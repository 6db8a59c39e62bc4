/-
# Proc.UserMem -- the user memory that read, write, fstat and pipe touch

`argint` and `argptr` of `syscall.c`, and down to `readi`, `writei`, the pipe and the
console the part of the code that moves bytes from or to the checked pointer.  Registers
and the `uint`s of the code are 32-bit words, compared without sign; an `int` is read
with `toInt`.  What a call does is given by the user addresses it touches, in order.

What the outside decides is in `Env`: the inode's size and the file's offset each time the
inode is locked (another process may have changed them), how many bytes can go through a
pipe before the call ends, and what the console delivers.

`argptr` adds the length as it is, and a negative one makes the sum small.  Every loop with
a signed counter then does nothing; `readi` has an unsigned length and clips it to the
file, so what it copies is bounded by the file alone.
-/
import Xv6Rpi.Kernel.State

namespace Xv6Rpi.Proc.UserMem

open Theory
open Kernel (FdType NOFILE T_DEV CONSOLE)

set_option autoImplicit false

abbrev Word : Type := BitVec 32

/-- The end of the user address space; no process is larger. -/
abbrev UADDR_SZ : Nat := 268435456

/-! ## Arguments -/

/-- The registers of the trap frame that carry arguments. -/
structure Regs where
  r1 : Word
  r2 : Word
  r3 : Word
  r4 : Word

/-- Fetch the `n`th system call argument. -/
def argint (regs : Regs) : Fin 4 → Word
  | 0 => regs.r1
  | 1 => regs.r2
  | 2 => regs.r3
  | 3 => regs.r4

/-- Fetch the `n`th argument as a pointer to `size` bytes. -/
def argptr (sz : Word) (regs : Regs) (n : Fin 4) (size : Word) : Option Word :=
  let i := argint regs n
  if sz ≤ i ∨ sz < i + size then none else some i

/-- An open file: `type` is the inode's, for `FD_INODE`. -/
structure OpenFile where
  fdType : FdType
  readable : Bool
  writable : Bool
  type : Nat
  major : Nat

/-- Fetch the `n`th argument as a file descriptor. -/
def argfd (ofile : Fin NOFILE → Option OpenFile) (regs : Regs) (n : Fin 4) : Option OpenFile :=
  let fd := (argint regs n).toInt
  if fd < 0 then none
  else if small : fd.toNat < NOFILE then ofile ⟨fd.toNat, small⟩
  else none

/-! ## Moving bytes -/

/-- What the outside decides during a call. -/
structure Env where
  size : Nat → Word
  off : Nat → Word
  room : Nat
  input : List Byte

/-- The addresses of `n` bytes from `p` on. -/
def span (p : Word) (n : Nat) : List Word := (List.range n).map fun k => p + BitVec.ofNat 32 k

/-- `min` of two `uint`s. -/
def umin (a b : Word) : Word := if a < b then a else b

/-- The copy loop of `readi` and `writei`: at most one block at a time. -/
def copyLoop (n : Word) : Nat → Word → Word → Word → List Word
  | 0, _, _, _ => []
  | fuel + 1, tot, off, p =>
    if tot < n then
      let m := umin (n - tot) (512 - off % 512)
      span p m.toNat ++ copyLoop n fuel (tot + m) (off + m) (p + m)
    else []

/-- `for (i = 0; i < n; i++)` over `addr[i]`, as long as the pipe gives or takes bytes. -/
def pipeLoop (addr : Word) (n : Int) : Nat → Nat → List Word
  | 0, _ => []
  | room + 1, i =>
    if (i : Int) < n then (addr + BitVec.ofNat 32 i) :: pipeLoop addr n room (i + 1) else []

/-- `C('D')`. -/
abbrev EOT : Byte := 4
abbrev NEWLINE : Byte := 10

/-- The loop of `consoleread` over the input it gets before it returns. -/
def consoleread : List Byte → Int → Word → List Word
  | [], _, _ => []
  | c :: input, n, dst =>
    if 0 < n then
      if c = EOT then []
      else dst :: (if c = NEWLINE then [] else consoleread input (n - 1) (dst + 1))
    else []

/-- The loop of `consolewrite`. -/
def consolewrite (buf : Word) (n : Int) : List Word := pipeLoop buf n n.toNat 0

/-- The number of bytes `readi` copies out of a file, after its checks. -/
def readiCount (size off n : Word) : Word :=
  if size < off ∨ off + n < off then 0
  else if size < off + n then size - off
  else n

/-- Read data from an inode. -/
def readi (f : OpenFile) (env : Env) (dst n : Word) : List Word :=
  if f.type = T_DEV then
    if f.major = CONSOLE then consoleread env.input n.toInt dst else []
  else
    let m := readiCount (env.size 0) (env.off 0) n
    copyLoop m m.toNat 0 (env.off 0) dst

/-- `MAXFILE * BSIZE`. -/
abbrev MAXSIZE : Word := 71680

/-- Write data to an inode, the `k`th time it is locked; false is -1. -/
def writei (f : OpenFile) (env : Env) (k : Nat) (src n : Word) : List Word × Bool :=
  if f.type = T_DEV then
    if f.major = CONSOLE then (consolewrite src n.toInt, true) else ([], false)
  else if env.size k < env.off k ∨ env.off k + n < env.off k then ([], false)
  else if MAXSIZE < env.off k + n then ([], false)
  else (copyLoop n n.toNat 0 (env.off k) src, true)

/-! ## Files -/

/-- Read from file `f`. -/
def fileread (f : OpenFile) (env : Env) (addr n : Word) : List Word :=
  if f.readable = false then []
  else
    match f.fdType with
    | .pipe => pipeLoop addr n.toInt env.room 0
    | .inode => readi f env addr n
    | .none => []

/-- What one transaction of `filewrite` writes at most. -/
abbrev CHUNK : Int := 1536

/-- The loop of `filewrite`; `k` counts its rounds. -/
def filewriteLoop (f : OpenFile) (env : Env) (addr : Word) (n : Int) : Nat → Nat → Nat → List Word
  | 0, _, _ => []
  | fuel + 1, i, k =>
    if (i : Int) < n then
      let n1 := min (n - i) CHUNK
      let r := writei f env k (addr + BitVec.ofNat 32 i) (BitVec.ofInt 32 n1)
      r.1 ++ (if r.2 then filewriteLoop f env addr n fuel (i + n1.toNat) (k + 1) else [])
    else []

/-- Write to file `f`. -/
def filewrite (f : OpenFile) (env : Env) (addr n : Word) : List Word :=
  if f.writable = false then []
  else
    match f.fdType with
    | .pipe => pipeLoop addr n.toInt env.room 0
    | .inode => filewriteLoop f env addr n.toInt n.toInt.toNat 0 0
    | .none => []

/-- `sizeof(struct stat)`. -/
abbrev STATSZ : Word := 20

/-- The stores of `stati`: `dev`, `ino`, `type`, `nlink` and `size`. -/
def stati (st : Word) : List Word :=
  span (st + 4) 4 ++ span (st + 8) 4 ++ span st 2 ++ span (st + 12) 2 ++ span (st + 16) 4

def filestat (f : OpenFile) (st : Word) : List Word :=
  match f.fdType with
  | .inode => stati st
  | _ => []

/-! ## System calls -/

inductive UserCall where
  | read (env : Env)
  | write (env : Env)
  | fstat
  /-- `granted`: there are files, descriptors and memory for the pipe -/
  | pipe (granted : Bool)

/-- The user memory a call touches; none when an argument check fails. -/
def UserCall.touches (ofile : Fin NOFILE → Option OpenFile) (sz : Word) (regs : Regs) :
    UserCall → Option (List Word)
  | .read env => do
      let f ← argfd ofile regs 0
      let n := argint regs 2
      let p ← argptr sz regs 1 n
      return fileread f env p n
  | .write env => do
      let f ← argfd ofile regs 0
      let n := argint regs 2
      let p ← argptr sz regs 1 n
      return filewrite f env p n
  | .fstat => do
      let f ← argfd ofile regs 0
      let st ← argptr sz regs 1 STATSZ
      return filestat f st
  | .pipe granted => do
      let fd ← argptr sz regs 0 8
      return if granted then span fd 4 ++ span (fd + 4) 4 else []

/-- Every address lies in `[0, sz)`. -/
def Confined (sz : Word) (touched : List Word) : Prop := ∀ a ∈ touched, a < sz

instance (sz : Word) (touched : List Word) : Decidable (Confined sz touched) :=
  List.decidableBAll (· < sz) touched

/-- The condition: a negative length is no harm, except for a read from a file on the
disk, where the bytes copied must fit. -/
def LengthFits (ofile : Fin NOFILE → Option OpenFile) (sz : Word) (regs : Regs) : UserCall → Prop
  | .read env =>
    (argint regs 2).toInt < 0 →
      ∀ f, argfd ofile regs 0 = some f → f.readable = true → f.fdType = .inode → f.type ≠ T_DEV →
        (argint regs 1).toNat + (readiCount (env.size 0) (env.off 0) (argint regs 2)).toNat ≤ sz.toNat
  | _ => True

/-! ## What the loops touch -/

theorem mem_span {p a : Word} {n : Nat} : a ∈ span p n ↔ ∃ k < n, p + BitVec.ofNat 32 k = a := by
  simp [span]

theorem span_append (p : Word) (m n : Nat) :
    span p m ++ span (p + BitVec.ofNat 32 m) n = span p (m + n) := by
  unfold span
  rw [List.range_add, List.map_append, List.map_map]
  congr 1
  apply List.map_congr_left
  intro k _
  simp only [Function.comp, BitVec.ofNat_add, BitVec.add_assoc]

/-- A span that does not reach the end of memory is an interval. -/
theorem confined_span_iff {sz p : Word} {n : Nat} (inside : p < sz) :
    Confined sz (span p n) ↔ p.toNat + n ≤ sz.toNat := by
  rw [BitVec.lt_def] at inside
  have small := sz.isLt
  constructor
  · intro confined
    by_contra beyond
    -- the first address past the end is touched
    have touched : sz ∈ span p n := by
      refine mem_span.2 ⟨sz.toNat - p.toNat, by omega, ?_⟩
      apply BitVec.eq_of_toNat_eq
      simp only [BitVec.toNat_add, BitVec.toNat_ofNat]
      omega
    exact absurd (confined sz touched) (BitVec.lt_irrefl sz)
  · intro fits a isIn
    obtain ⟨k, less, rfl⟩ := mem_span.1 isIn
    rw [BitVec.lt_def]
    simp only [BitVec.toNat_add, BitVec.toNat_ofNat]
    omega

/-- The copy loop copies what is left, one block after the other. -/
theorem copyLoop_eq (n : Word) (fuel : Nat) (tot off p : Word) (started : tot.toNat ≤ n.toNat)
    (enough : n.toNat - tot.toNat ≤ fuel) :
    copyLoop n fuel tot off p = span p (n.toNat - tot.toNat) := by
  induction fuel generalizing tot off p with
  | zero =>
    have done : n.toNat - tot.toNat = 0 := by omega
    rw [done]
    rfl
  | succ fuel ih =>
    unfold copyLoop
    by_cases more : tot < n
    · have less := BitVec.lt_def.1 more
      have left : (n - tot).toNat = n.toNat - tot.toNat := BitVec.toNat_sub_of_le (BitVec.le_of_lt more)
      have block : 0 < (512 - off % 512 : Word).toNat := by
        have inBlock : (off % 512).toNat < 512 := by
          rw [BitVec.toNat_umod]
          exact Nat.mod_lt _ (by decide)
        rw [BitVec.toNat_sub_of_le (by rw [BitVec.le_def]; exact Nat.le_of_lt inBlock)]
        have whole : (512 : Word).toNat = 512 := rfl
        omega
      rw [if_pos more]
      generalize isM : umin (n - tot) (512 - off % 512) = m
      have bounds : 0 < m.toNat ∧ m.toNat ≤ n.toNat - tot.toNat := by
        subst isM
        unfold umin
        split
        case isTrue => omega
        case isFalse notLess =>
          rw [BitVec.lt_def] at notLess
          omega
      have next : (tot + m).toNat = tot.toNat + m.toNat := by
        have small := n.isLt
        rw [BitVec.toNat_add]
        omega
      have asWord : p + m = p + BitVec.ofNat 32 m.toNat := by rw [BitVec.ofNat_toNat, BitVec.setWidth_eq]
      have total : m.toNat + (n.toNat - (tot.toNat + m.toNat)) = n.toNat - tot.toNat := by omega
      dsimp only
      rw [ih (tot + m) (off + m) (p + m) (by omega) (by omega), next, asWord, span_append, total]
    · have done : n.toNat - tot.toNat = 0 := by
        rw [BitVec.lt_def] at more
        omega
      rw [if_neg more, done]
      rfl

theorem copyLoop_whole (n off p : Word) : copyLoop n n.toNat 0 off p = span p n.toNat := by
  simpa using copyLoop_eq n n.toNat 0 off p (by simp) (by simp)

theorem mem_pipeLoop {addr a : Word} {n : Int} {room i : Nat} (isIn : a ∈ pipeLoop addr n room i) :
    ∃ k : Nat, (k : Int) < n ∧ addr + BitVec.ofNat 32 k = a := by
  induction room generalizing i with
  | zero => cases isIn
  | succ room ih =>
    unfold pipeLoop at isIn
    by_cases more : (i : Int) < n
    · rw [if_pos more] at isIn
      rcases List.mem_cons.1 isIn with rfl | later
      · exact ⟨i, more, rfl⟩
      · exact ih later
    · rw [if_neg more] at isIn
      cases isIn

theorem mem_consoleread {input : List Byte} {n : Int} {dst a : Word}
    (isIn : a ∈ consoleread input n dst) : ∃ k : Nat, (k : Int) < n ∧ dst + BitVec.ofNat 32 k = a := by
  induction input generalizing n dst with
  | nil => cases isIn
  | cons c input ih =>
    unfold consoleread at isIn
    by_cases more : 0 < n
    · rw [if_pos more] at isIn
      split at isIn
      · cases isIn
      · rcases List.mem_cons.1 isIn with rfl | later
        · exact ⟨0, more, by simp⟩
        · split at later
          · cases later
          · obtain ⟨k, less, rfl⟩ := ih later
            refine ⟨k + 1, by push_cast; omega, ?_⟩
            rw [BitVec.ofNat_add, BitVec.add_assoc, BitVec.add_comm (BitVec.ofNat 32 k)]
            rfl
    · rw [if_neg more] at isIn
      cases isIn

/-- One round of `filewrite` touches its chunk only. -/
theorem mem_writei {f : OpenFile} {env : Env} {k : Nat} {src a : Word} {n1 : Int} (positive : 0 ≤ n1)
    (small : n1 ≤ 1536) (isIn : a ∈ (writei f env k src (BitVec.ofInt 32 n1)).1) :
    ∃ j : Nat, (j : Int) < n1 ∧ src + BitVec.ofNat 32 j = a := by
  have signed : (BitVec.ofInt 32 n1).toInt = n1 := by
    rw [BitVec.toInt_ofInt]
    exact Int.bmod_eq_of_le (by omega) (by omega)
  have unsigned : ((BitVec.ofInt 32 n1).toNat : Int) = n1 := by
    rw [BitVec.toNat_ofInt]
    omega
  unfold writei at isIn
  split at isIn
  · split at isIn
    · rw [signed] at isIn
      exact mem_pipeLoop isIn
    · cases isIn
  · split at isIn
    · cases isIn
    · split at isIn
      · cases isIn
      · rw [copyLoop_whole] at isIn
        obtain ⟨j, less, same⟩ := mem_span.1 isIn
        exact ⟨j, by omega, same⟩

theorem mem_filewriteLoop {f : OpenFile} {env : Env} {addr a : Word} {n : Int} {fuel i k : Nat}
    (isIn : a ∈ filewriteLoop f env addr n fuel i k) :
    ∃ j : Nat, (j : Int) < n ∧ addr + BitVec.ofNat 32 j = a := by
  induction fuel generalizing i k with
  | zero => cases isIn
  | succ fuel ih =>
    unfold filewriteLoop at isIn
    by_cases more : (i : Int) < n
    · rw [if_pos more] at isIn
      rcases List.mem_append.1 isIn with here | later
      · have chunk : min (n - i) CHUNK ≤ 1536 := Int.min_le_right _ _
        have positive : 0 ≤ min (n - i) CHUNK := Int.le_min.2 ⟨by omega, by decide⟩
        obtain ⟨j, less, rfl⟩ := mem_writei positive chunk here
        refine ⟨i + j, by push_cast; omega, ?_⟩
        rw [BitVec.ofNat_add, BitVec.add_assoc]
      · split at later
        · exact ih later
        · cases later
    · rw [if_neg more] at isIn
      cases isIn

/-! ## Confinement -/

/-- What passes `argptr` with a length that is not negative. -/
theorem argptr_fits {sz size p : Word} {regs : Regs} {n : Fin 4} (user : sz.toNat < UADDR_SZ)
    (passed : argptr sz regs n size = some p) :
    p = argint regs n ∧ p < sz ∧ (0 ≤ size.toInt → p.toNat + size.toNat ≤ sz.toNat) := by
  unfold argptr at passed
  dsimp only at passed
  split at passed
  case isTrue => cases passed
  case isFalse fits =>
    obtain rfl := Option.some.inj passed
    rw [not_or, BitVec.not_le, BitVec.not_lt] at fits
    obtain ⟨inside, sum⟩ := fits
    refine ⟨rfl, inside, fun positive => ?_⟩
    replace user : sz.toNat < 268435456 := user
    have unsigned := BitVec.toInt_eq_toNat_cond size
    have small := size.isLt
    rw [BitVec.lt_def] at inside
    rw [BitVec.le_def, BitVec.toNat_add] at sum
    split at unsigned <;> omega

/-- Touching `p[k]` for `k < n` only is harmless after the check, whatever the sign of `n`. -/
theorem confined_of_offsets {sz n p : Word} {touched : List Word} (inside : p < sz)
    (fits : 0 ≤ n.toInt → p.toNat + n.toNat ≤ sz.toNat)
    (offsets : ∀ a ∈ touched, ∃ k : Nat, (k : Int) < n.toInt ∧ p + BitVec.ofNat 32 k = a) :
    Confined sz touched := by
  intro a isIn
  obtain ⟨k, less, same⟩ := offsets a isIn
  have whole := fits (by omega)
  have unsigned := BitVec.toInt_eq_toNat_cond n
  refine (confined_span_iff inside).2 whole a (mem_span.2 ⟨k, ?_, same⟩)
  split at unsigned <;> omega

theorem confined_filewrite {f : OpenFile} {env : Env} {sz n p : Word} (inside : p < sz)
    (fits : 0 ≤ n.toInt → p.toNat + n.toNat ≤ sz.toNat) : Confined sz (filewrite f env p n) := by
  apply confined_of_offsets inside fits
  intro a isIn
  unfold filewrite at isIn
  split at isIn
  · cases isIn
  · split at isIn
    · exact mem_pipeLoop isIn
    · exact mem_filewriteLoop isIn
    · cases isIn

/-- Reading from anything but a file on the disk. -/
theorem confined_fileread {f : OpenFile} {env : Env} {sz n p : Word} (inside : p < sz)
    (fits : 0 ≤ n.toInt → p.toNat + n.toNat ≤ sz.toNat)
    (other : ¬ (f.readable = true ∧ f.fdType = .inode ∧ f.type ≠ T_DEV)) :
    Confined sz (fileread f env p n) := by
  apply confined_of_offsets inside fits
  intro a isIn
  unfold fileread at isIn
  split at isIn
  · cases isIn
  case isFalse readable =>
    split at isIn
    · exact mem_pipeLoop isIn
    case h_2 isInode =>
      have device : f.type = T_DEV := by
        by_contra notDev
        exact other ⟨by simpa using readable, isInode, notDev⟩
      unfold readi at isIn
      rw [if_pos device] at isIn
      split at isIn
      · exact mem_consoleread isIn
      · cases isIn
    · cases isIn

/-- Reading from a file on the disk touches what `readi` copies. -/
theorem fileread_disk {f : OpenFile} {env : Env} {n p : Word} (readable : f.readable = true)
    (isInode : f.fdType = .inode) (notDev : f.type ≠ T_DEV) :
    fileread f env p n = span p (readiCount (env.size 0) (env.off 0) n).toNat := by
  unfold fileread readi
  simp only [readable, isInode, if_neg notDev, Bool.true_eq_false, if_false]
  exact copyLoop_whole _ _ _

theorem readiCount_le (size off n : Word) (positive : 0 ≤ n.toInt) :
    (readiCount size off n).toNat ≤ n.toNat := by
  have unsigned := BitVec.toInt_eq_toNat_cond n
  unfold readiCount
  split
  · exact Nat.zero_le _
  case isFalse passed =>
    split
    case isTrue clipped =>
      rw [not_or, BitVec.not_lt, BitVec.not_lt, BitVec.le_def, BitVec.le_def] at passed
      rw [BitVec.lt_def] at clipped
      rw [BitVec.toNat_sub_of_le (BitVec.le_def.2 passed.1)]
      rw [BitVec.toNat_add] at passed clipped
      split at unsigned <;> omega
    · exact Nat.le_refl _

theorem confined_stati {sz st : Word} (inside : st < sz) (fits : st.toNat + 20 ≤ sz.toNat) :
    Confined sz (stati st) := by
  intro a isIn
  refine (confined_span_iff inside).2 fits a ?_
  have whole : span st 20 = span st 4 ++ span (st + 4) 4 ++ span (st + 8) 4 ++ span (st + 12) 4 ++
      span (st + 16) 4 := by
    rw [show (st + 4 : Word) = st + BitVec.ofNat 32 4 from rfl, span_append,
      show (st + 8 : Word) = st + BitVec.ofNat 32 (4 + 4) from rfl, span_append,
      show (st + 12 : Word) = st + BitVec.ofNat 32 (4 + 4 + 4) from rfl, span_append,
      show (st + 16 : Word) = st + BitVec.ofNat 32 (4 + 4 + 4 + 4) from rfl, span_append]
  have half : ∀ p : Word, ∀ b ∈ span p 2, b ∈ span p 4 := by
    intro p b inHalf
    obtain ⟨k, less, same⟩ := mem_span.1 inHalf
    exact mem_span.2 ⟨k, by omega, same⟩
  rw [whole]
  simp only [stati, List.mem_append] at isIn ⊢
  rcases isIn with (((dev | ino) | type) | nlink) | size
  · exact .inl (.inl (.inl (.inr dev)))
  · exact .inl (.inl (.inr ino))
  · exact .inl (.inl (.inl (.inl (half _ _ type))))
  · exact .inl (.inr (half _ _ nlink))
  · exact .inr size

/-- **User memory is confined exactly when the length fits.**  Whenever a call gets past its
argument checks, all user memory it touches through the checked pointer lies in the
process, except when a negative length reads more from a file on the disk than fits. -/
theorem user_memory_confined_iff (ofile : Fin NOFILE → Option OpenFile) (sz : Word) (regs : Regs)
    (call : UserCall) (touched : List Word) (user : sz.toNat < UADDR_SZ)
    (passed : call.touches ofile sz regs = some touched) :
    Confined sz touched ↔ LengthFits ofile sz regs call := by
  cases call <;> simp only [UserCall.touches, Option.bind_eq_bind, Option.bind_eq_some_iff,
    Option.pure_def, Option.some.injEq] at passed
  case read env =>
    obtain ⟨f, isFile, p, checked, rfl⟩ := passed
    obtain ⟨isArg, inside, fits⟩ := argptr_fits user checked
    by_cases disk : f.readable = true ∧ f.fdType = .inode ∧ f.type ≠ T_DEV
    · obtain ⟨readable, isInode, notDev⟩ := disk
      rw [fileread_disk readable isInode notDev, confined_span_iff inside]
      constructor
      · intro small negative g isFile' _ _ _
        rw [← isArg]
        exact small
      · intro small
        by_cases negative : (argint regs 2).toInt < 0
        · rw [isArg]
          exact small negative f isFile readable isInode notDev
        · have whole := fits (by omega)
          have clipped := readiCount_le (env.size 0) (env.off 0) _ (Int.not_lt.1 negative)
          omega
    · refine iff_of_true (confined_fileread inside fits disk) ?_
      intro _ g isFile' readable isInode notDev
      rw [isFile] at isFile'
      obtain rfl := Option.some.inj isFile'
      exact absurd ⟨readable, isInode, notDev⟩ disk
  case write env =>
    obtain ⟨f, isFile, p, checked, rfl⟩ := passed
    obtain ⟨isArg, inside, fits⟩ := argptr_fits user checked
    exact iff_of_true (confined_filewrite inside fits) trivial
  case fstat =>
    obtain ⟨f, isFile, st, checked, rfl⟩ := passed
    obtain ⟨isArg, inside, fits⟩ := argptr_fits user checked
    refine iff_of_true ?_ trivial
    unfold filestat
    split
    · exact confined_stati inside (fits (by decide))
    · intro a none
      cases none
  case pipe granted =>
    obtain ⟨fd, checked, rfl⟩ := passed
    obtain ⟨isArg, inside, fits⟩ := argptr_fits user checked
    refine iff_of_true ?_ trivial
    cases granted with
    | false =>
      intro a none
      cases none
    | true =>
      have both : span fd 4 ++ span (fd + 4) 4 = span fd 8 := span_append fd 4 4
      simp only [if_true, both]
      exact (confined_span_iff inside).2 (fits (by decide))

/-- A file on the disk, open for reading as descriptor 3. -/
def diskFile : Fin NOFILE → Option OpenFile := fun fd =>
  if fd = 3 then some ⟨.inode, true, false, 2, 0⟩ else none

/-- The file has 100 bytes and is read from its start. -/
def hundredBytes : UserCall := .read ⟨fun _ => 100, fun _ => 0, 0, []⟩

/-- `read(3, 4000, 96)` in a process of one page. -/
theorem user_memory_confined_page : ∃ touched,
    hundredBytes.touches diskFile 4096 ⟨3, 4000, 96, 0⟩ = some touched ∧ Confined 4096 touched := by
  obtain ⟨touched, passed⟩ := Option.isSome_iff_exists.1
    (show (hundredBytes.touches diskFile 4096 ⟨3, 4000, 96, 0⟩).isSome = true by decide +kernel)
  have fits : LengthFits diskFile 4096 ⟨3, 4000, 96, 0⟩ hundredBytes := by
    intro negative
    exact absurd negative (by decide)
  exact ⟨touched, passed,
    (user_memory_confined_iff diskFile 4096 ⟨3, 4000, 96, 0⟩ hundredBytes touched (by decide) passed).2 fits⟩

/-- **A negative length writes past the end of the process**: `read(3, 4095, -1)` in a process
of one page copies all 100 bytes of the file, 99 of them beyond the page. -/
theorem negative_read_escapes : ∃ touched,
    hundredBytes.touches diskFile 4096 ⟨3, 4095, 4294967295, 0⟩ = some touched ∧
      ¬ Confined 4096 touched := by
  have escapes : (hundredBytes.touches diskFile 4096 ⟨3, 4095, 4294967295, 0⟩).map
      (fun touched => decide (Confined 4096 touched)) = some false := by decide +kernel
  obtain ⟨touched, passed, outside⟩ := Option.map_eq_some_iff.1 escapes
  exact ⟨touched, passed, of_decide_eq_false outside⟩

end Xv6Rpi.Proc.UserMem
