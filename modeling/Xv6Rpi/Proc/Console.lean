/-
# Proc.Console -- the line discipline of the console

`consoleintr` and `consoleread` of `console.c`.  The counters `r`, `w` and `e` are 32 bits wide and
wrap.  `consoleread` gives up the lock only in `sleep`, so a call runs as a sequence of slices;
`Sys.step` is any interleaving of slices and of characters that arrive.  The echo and the wakeups
are left out: a sleeper may go on at any time.

`Text` is the line discipline by itself: what has been committed, what is still being edited, and how
much has been delivered.  It is made from what is seen of a run (`textOf`), without the buffer.
-/
import Mathlib.Data.List.Induction
import Xv6Rpi.Proc.Pipe

namespace Xv6Rpi.Proc.Console

open Theory Kernel Proc

set_option autoImplicit false

/-! ## The code -/

abbrev INPUT_BUF : Nat := 512

/-- `C('P')`: process listing. -/
abbrev CTRL_P : Byte := 0x10
/-- `C('U')`: kill line. -/
abbrev CTRL_U : Byte := 0x15
/-- `C('H')`: backspace. -/
abbrev CTRL_H : Byte := 0x08
abbrev DEL : Byte := 0x7F
/-- `C('D')`: end of file. -/
abbrev CTRL_D : Byte := 0x04
abbrev LF : Byte := 0x0A
abbrev CR : Byte := 0x0D

structure Input where
  buf : Nat → Byte
  /-- Read index -/
  r : Nat
  /-- Write index -/
  w : Nat
  /-- Edit index -/
  e : Nat

/-- `k - 1` -/
def pred (k : Nat) : Nat := (k + U32 - 1) % U32

namespace Input

/-- The loop that kills a line.  Each round brings `e` closer to `w`, so as many rounds as they are
apart are enough. -/
def killLine : Nat → Input → Input
  | 0, i => i
  | rounds + 1, i =>
    if i.e ≠ i.w ∧ i.buf (pred i.e % INPUT_BUF) ≠ LF then killLine rounds { i with e := pred i.e }
    else i

/-- A character that is put into the buffer. -/
def store (i : Input) (c : Byte) : Input :=
  let i := { i with buf := upd i.buf (i.e % INPUT_BUF) c, e := (i.e + 1) % U32 }
  if c = LF ∨ c = CTRL_D ∨ i.e = (i.r + INPUT_BUF) % U32 then { i with w := i.e } else i

/-- What `consoleintr` does with a character. -/
def type (i : Input) (c : Byte) : Input :=
  if c = CTRL_P then i
  else if c = CTRL_U then killLine ((i.e + U32 - i.w) % U32) i
  else if c = CTRL_H ∨ c = DEL then
    if i.e ≠ i.w then { i with e := pred i.e } else i
  else if c ≠ 0 ∧ (i.e + U32 - i.r) % U32 < INPUT_BUF then i.store (if c = CR then LF else c)
  else i

/-- `consoleintr`, which gets one character after the other. -/
def consoleintr (i : Input) (cs : List Byte) : Input := cs.foldl type i

end Input

/-- How a slice of `consoleread` ends: what was stored at `dst`, how much is still wanted, and whether
the call has to sleep. -/
structure Slice where
  input : Input
  bytes : List Byte
  n : Nat
  sleeps : Bool

/-- The loop of `consoleread`, with `n` bytes to go. -/
def readLoop (target : Nat) : Nat → Input → Slice
  | 0, i => ⟨i, [], 0, false⟩
  | n + 1, i =>
    if i.r = i.w then ⟨i, [], n + 1, true⟩
    else
      let c := i.buf (i.r % INPUT_BUF)
      let i := { i with r := (i.r + 1) % U32 }
      if c = CTRL_D then
        -- the mark is saved for next time, so that the caller gets a result of 0 bytes
        ⟨if n + 1 < target then { i with r := pred i.r } else i, [], n + 1, false⟩
      else if c = LF then ⟨i, [c], n, false⟩
      else
        let rest := readLoop target n i
        { rest with bytes := c :: rest.bytes }

/-- What is seen: characters that arrive, bytes that reach a reader, and what a call returns. -/
inductive Obs where
  | typed (c : Byte)
  | byte (p : Pid) (b : Byte)
  | returned (p : Pid) (target : Nat) (result : Int)

inductive Op where
  | intr (cs : List Byte)
  /-- A call for `n` bytes; one for less than one byte is as good as one for none. -/
  | read (p : Pid) (n : Int) (killed : Bool)
  | resume (p : Pid) (killed : Bool)

/-- The console, and the calls that sleep: the bytes asked for and those still wanted. -/
structure Sys where
  input : Input
  calls : Pid → Option (Nat × Nat)

namespace Sys

/-- `consoleread`, from the call or from the return of `sleep` on. -/
def consoleread (s : Sys) (p : Pid) (target n : Nat) (killed : Bool) : Sys × List Obs :=
  let r := readLoop target n s.input
  let seen := r.bytes.map (.byte p)
  if r.sleeps then
    if killed then (⟨r.input, upd s.calls p none⟩, seen ++ [.returned p target (-1)])
    else (⟨r.input, upd s.calls p (some (target, r.n))⟩, seen)
  else (⟨r.input, upd s.calls p none⟩, seen ++ [.returned p target (target - r.n)])

def step (s : Sys) : Op → Option (Sys × List Obs)
  | .intr cs => some ({ s with input := s.input.consoleintr cs }, cs.map .typed)
  | .read p n killed =>
    match s.calls p with
    | none => some (s.consoleread p n.toNat n.toNat killed)
    | some _ => none
  | .resume p killed =>
    match s.calls p with
    | none => none
    | some (target, n) => some (s.consoleread p target n killed)

/-- Nothing has been typed, and nobody reads. -/
def start (buf : Nat → Byte) : Sys := ⟨⟨buf, 0, 0, 0⟩, fun _ => none⟩

end Sys

/-! ## The line discipline -/

/-- What readers get of a text: its bytes, and an end of file for each mark. -/
inductive Item where
  | byte (b : Byte)
  | eof
  deriving DecidableEq

def item (c : Byte) : Item := if c = CTRL_D then .eof else .byte c

/-- The items that an observation delivers: a call for some bytes that returns 0 delivers an end of
file. -/
def Obs.items : Obs → List Item
  | .typed _ => []
  | .byte _ b => [.byte b]
  | .returned _ target result => if 0 < target ∧ result = 0 then [.eof] else []

def delivered (seen : List Obs) : List Item := seen.flatMap Obs.items

structure Text where
  committed : List Byte
  /-- What is being edited. -/
  tail : List Byte
  /-- How many of the committed characters have been delivered. -/
  taken : Nat

namespace Text

/-- The characters that take up room. -/
def waiting (t : Text) : Nat := t.committed.length - t.taken + t.tail.length

/-- A character is put at the end; a line, an end of file or a full buffer is committed. -/
def store (t : Text) (c : Byte) : Text :=
  if c = LF ∨ c = CTRL_D ∨ t.waiting + 1 = INPUT_BUF then
    { t with committed := t.committed ++ t.tail ++ [c], tail := [] }
  else { t with tail := t.tail ++ [c] }

/-- What a character does: editing reaches only what is not committed. -/
def type (t : Text) (c : Byte) : Text :=
  if c = CTRL_P ∨ c = 0 then t
  else if c = CTRL_U then { t with tail := [] }
  else if c = CTRL_H ∨ c = DEL then { t with tail := t.tail.dropLast }
  else if t.waiting = INPUT_BUF then t
  else t.store (if c = CR then LF else c)

def see (t : Text) : Obs → Text
  | .typed c => t.type c
  | o => { t with taken := t.taken + o.items.length }

end Text

/-- The text that a run has made so far. -/
def textOf (seen : List Obs) : Text := seen.foldl Text.see ⟨[], [], 0⟩

/-! ## The buffer stands for the text -/

/-- The buffer holds the committed characters `q` and then those being edited. -/
structure Stands (i : Input) (q tail : List Byte) : Prop where
  queued : Queued INPUT_BUF U32 i.buf i.r i.e (q ++ tail)
  write : i.w = (i.r + q.length) % U32
  /-- a line is committed when it ends -/
  noLine : LF ∉ tail
  /-- a full buffer is committed -/
  full : (q ++ tail).length = INPUT_BUF → tail = []

theorem inputBuf_lt : INPUT_BUF < U32 := by decide

theorem inputBuf_dvd : INPUT_BUF ∣ U32 := ⟨8388608, by decide⟩

namespace Stands

variable {i : Input} {q tail : List Byte} {c : Byte}

theorem front (stands : Stands i q tail) : Queued INPUT_BUF U32 i.buf i.r i.w q :=
  stands.write ▸ stands.queued.front_part

theorem read_iff (stands : Stands i q tail) : i.r = i.w ↔ q = [] := stands.front.empty_iff inputBuf_lt

theorem edit_iff (stands : Stands i q tail) : i.e = i.w ↔ tail = [] := by
  have few := stands.queued.few
  have apart := stands.queued.apart_iff inputBuf_lt (k := q.length) (by simp at few; omega)
  rw [stands.write, apart]
  simp

theorem length_eq (stands : Stands i q tail) : (i.e + U32 - i.r) % U32 = q.length + tail.length := by
  rw [stands.queued.length_eq inputBuf_lt, List.length_append]

/-- Backspace: one character less. -/
theorem back (stands : Stands i q (tail ++ [c])) :
    i.buf (pred i.e % INPUT_BUF) = c ∧ Stands { i with e := pred i.e } q tail := by
  have queued := stands.queued
  rw [← List.append_assoc] at queued
  obtain ⟨last, queued⟩ := queued.drop inputBuf_dvd
  refine ⟨last, queued, stands.write, fun member =>
    stands.noLine (List.mem_append_left _ member), fun full => ?_⟩
  -- a full buffer had no room for the character
  have few := stands.queued.few
  simp at few full
  omega

theorem killLine (stands : Stands i q tail) : Stands (i.killLine tail.length) q [] := by
  induction tail using List.reverseRecOn generalizing i with
  | nil => exact stands
  | append_singleton tail c ih =>
    obtain ⟨last, fewer⟩ := stands.back
    have notEmpty : i.e ≠ i.w := by simp [stands.edit_iff]
    have notLine : i.buf (pred i.e % INPUT_BUF) ≠ LF := by
      intro isLine
      exact stands.noLine (List.mem_append_right _ (List.mem_singleton.2 (isLine.symm.trans last)))
    rw [List.length_append, List.length_singleton, Input.killLine, if_pos ⟨notEmpty, notLine⟩]
    exact ih fewer

/-- A character is put at the end of the ones being edited, or they are all committed with it. -/
theorem store (c : Byte) (stands : Stands i q tail) (room : q.length + tail.length < INPUT_BUF) :
    if c = LF ∨ c = CTRL_D ∨ q.length + tail.length + 1 = INPUT_BUF then
      Stands (i.store c) (q ++ tail ++ [c]) []
    else Stands (i.store c) q (tail ++ [c]) := by
  have queued := stands.queued.put inputBuf_dvd (by simpa using room) c
  rw [← upd_eq_update] at queued
  have fullIff := queued.full_iff inputBuf_lt
  have count : (q ++ tail ++ [c]).length = q.length + tail.length + 1 := by simp [Nat.add_assoc]
  rw [count] at fullIff
  have commitsIff : (c = LF ∨ c = CTRL_D ∨ (i.e + 1) % U32 = (i.r + INPUT_BUF) % U32) ↔
      (c = LF ∨ c = CTRL_D ∨ q.length + tail.length + 1 = INPUT_BUF) := by rw [fullIff]
  split
  case isTrue commits =>
    rw [Input.store]
    dsimp only
    rw [if_pos (commitsIff.2 commits)]
    exact ⟨by simpa using queued, queued.back, by simp, fun _ => rfl⟩
  case isFalse goesOn =>
    rw [Input.store]
    dsimp only
    rw [if_neg (mt commitsIff.1 goesOn)]
    refine ⟨by simpa using queued, stands.write, fun member => ?_, fun full => ?_⟩
    · rcases List.mem_append.1 member with old | new
      · exact stands.noLine old
      · exact goesOn (Or.inl (List.mem_singleton.1 new).symm)
    · exact absurd (Or.inr (Or.inr (by simpa [Nat.add_assoc] using full))) goesOn

/-- A reader takes the character in front. -/
theorem take (stands : Stands i (c :: q) tail) :
    i.buf (i.r % INPUT_BUF) = c ∧ Stands { i with r := (i.r + 1) % U32 } q tail := by
  obtain ⟨first, queued⟩ := stands.queued.take inputBuf_dvd
  refine ⟨first, queued, ?_, stands.noLine, fun full => ?_⟩
  · exact (stands.front.take inputBuf_dvd).2.back
  · have few := stands.queued.few
    simp at few full
    omega

end Stands

/-! ## Characters that arrive -/

/-- The buffer stands for the part of a text that has not been delivered. -/
def Agrees (i : Input) (t : Text) (items : List Item) : Prop :=
  ∃ front q, t.committed = front ++ q ∧ t.taken = front.length ∧ items = front.map item ∧
    Stands i q t.tail

section Typing

variable {i : Input} {t : Text} {items : List Item} {c : Byte}

theorem Agrees.waiting_eq (agrees : Agrees i t items) : (i.e + U32 - i.r) % U32 = t.waiting := by
  obtain ⟨front, q, committed, taken, -, stands⟩ := agrees
  rw [stands.length_eq, Text.waiting, committed, taken]
  simp

theorem Agrees.store (agrees : Agrees i t items) (room : t.waiting < INPUT_BUF) :
    Agrees (i.store c) (t.store c) items := by
  have size := agrees.waiting_eq
  obtain ⟨front, q, committed, taken, isItems, stands⟩ := agrees
  rw [stands.length_eq] at size
  have stored := stands.store c (by omega)
  rw [size] at stored
  rw [Text.store]
  by_cases commits : c = LF ∨ c = CTRL_D ∨ t.waiting + 1 = INPUT_BUF
  · rw [if_pos commits] at stored ⊢
    exact ⟨front, q ++ t.tail ++ [c], by simp [committed], taken, isItems, stored⟩
  · rw [if_neg commits] at stored ⊢
    exact ⟨front, q, committed, taken, isItems, stored⟩

/-- **A character** does to the buffer what it does to the text. -/
theorem Agrees.type (agrees : Agrees i t items) : Agrees (i.type c) (t.type c) items := by
  have size := agrees.waiting_eq
  rw [Input.type, Text.type]
  by_cases list : c = CTRL_P
  · rw [if_pos list, if_pos (Or.inl list)]
    exact agrees
  by_cases none_ : c = 0
  · rw [if_neg list, if_pos (Or.inr none_), none_]
    exact agrees
  rw [if_neg list, if_neg (not_or.2 ⟨list, none_⟩)]
  by_cases kill : c = CTRL_U
  · rw [if_pos kill, if_pos kill]
    obtain ⟨front, q, committed, taken, isItems, stands⟩ := agrees
    have rounds : (i.e + U32 - i.w) % U32 = t.tail.length := by
      rw [stands.write]
      exact (stands.queued.back_part inputBuf_dvd).length_eq inputBuf_lt
    rw [rounds]
    exact ⟨front, q, committed, taken, isItems, stands.killLine⟩
  rw [if_neg kill, if_neg kill]
  by_cases back : c = CTRL_H ∨ c = DEL
  · rw [if_pos back, if_pos back]
    obtain ⟨front, q, committed, taken, isItems, stands⟩ := agrees
    refine ⟨front, q, committed, taken, isItems, ?_⟩
    rcases List.eq_nil_or_concat t.tail with nothing | ⟨tail, last, isTail⟩
    · rw [if_neg (not_not.2 (stands.edit_iff.2 nothing)), nothing]
      simpa [nothing] using stands
    · rw [isTail, List.concat_eq_append] at stands ⊢
      rw [if_pos (by simp [stands.edit_iff]), List.dropLast_concat]
      exact stands.back.2
  rw [if_neg back, if_neg back, size]
  by_cases full : t.waiting = INPUT_BUF
  · rw [if_pos full, if_neg (by omega)]
    exact agrees
  · have room : t.waiting < INPUT_BUF := by
      obtain ⟨front, q, committed, taken, isItems, stands⟩ := agrees
      have few := stands.queued.few
      rw [stands.length_eq] at size
      simp at few
      omega
    rw [if_neg full, if_pos ⟨none_, room⟩]
    exact agrees.store room

theorem Agrees.consoleintr {cs : List Byte} (agrees : Agrees i t items) :
    Agrees (i.consoleintr cs) (cs.foldl Text.type t) items := by
  induction cs generalizing i t with
  | nil => exact agrees
  | cons c cs ih => exact ih agrees.type

end Typing

/-! ## Reading -/

section Read

variable {i : Input} {q tail : List Byte} {target n : Nat}

/-- The end of file that a call returning `n` bytes short of its target delivers. -/
def eofOf (target n : Nat) : List Item := if 0 < target ∧ (target : Int) - n = 0 then [.eof] else []

theorem eofOf_of_lt (short : n < target) : eofOf target n = [] := if_neg (by omega)

theorem item_of_ne {c : Byte} (ne : c ≠ CTRL_D) : item c = .byte c := if_neg ne

/-- A mark that is put back stands where it stood. -/
theorem Stands.pred_succ (stands : Stands i q tail) : pred ((i.r + 1) % U32) = i.r := by
  have small : i.r < 4294967296 := stands.queued.front
  show ((i.r + 1) % 4294967296 + 4294967296 - 1) % 4294967296 = i.r
  omega

/-- **The loop of `consoleread`** takes committed characters from the front: it delivers them, and a
mark if and only if it returns 0 for it. -/
theorem Stands.readLoop (stands : Stands i q tail) (most : n ≤ target) :
    ∃ x q', q = x ++ q' ∧ Stands (readLoop target n i).input q' tail ∧
      (readLoop target n i).n ≤ n ∧ ((readLoop target n i).sleeps = true → 0 < (readLoop target n i).n) ∧
      x.map item = (readLoop target n i).bytes.map .byte ++
        if (readLoop target n i).sleeps then [] else eofOf target (readLoop target n i).n := by
  induction n generalizing i q with
  | zero =>
    refine ⟨[], q, rfl, stands, le_rfl, fun never => (nomatch never), ?_⟩
    have none_ : eofOf target 0 = [] := if_neg (by omega)
    simp [Console.readLoop, none_]
  | succ n ih =>
    rw [Console.readLoop]
    by_cases empty : i.r = i.w
    · rw [if_pos empty]
      exact ⟨[], q, rfl, stands, le_rfl, fun _ => Nat.succ_pos n, rfl⟩
    rw [if_neg empty]
    cases q with
    | nil => exact absurd (stands.read_iff.2 rfl) empty
    | cons c q =>
      obtain ⟨isC, onward⟩ := stands.take
      dsimp only
      rw [isC]
      by_cases mark : c = CTRL_D
      · rw [if_pos mark]
        by_cases later : n + 1 < target
        · rw [if_pos later, stands.pred_succ]
          refine ⟨[], c :: q, rfl, stands, le_rfl, fun never => (nomatch never), ?_⟩
          simp [eofOf_of_lt later]
        · rw [if_neg later]
          refine ⟨[c], q, rfl, onward, le_rfl, fun never => (nomatch never), ?_⟩
          have now : eofOf target (n + 1) = [.eof] := if_pos (by omega)
          have isEof : item c = .eof := if_pos mark
          simp [now, isEof]
      rw [if_neg mark]
      by_cases line : c = LF
      · rw [if_pos line]
        refine ⟨[c], q, rfl, onward, Nat.le_succ n, fun never => (nomatch never), ?_⟩
        simp [eofOf_of_lt (show n < target by omega), item_of_ne mark]
      · rw [if_neg line]
        obtain ⟨x, q', rfl, rest, fewer, sleeps, items⟩ := ih onward (by omega)
        refine ⟨c :: x, q', rfl, rest, by dsimp only; omega, sleeps, ?_⟩
        rw [List.map_cons, items, item_of_ne mark]
        rfl

end Read

/-! ## Runs -/

section Run

variable {s s' : Sys} {seen more : List Obs} {p : Pid} {target n : Nat}

theorem textOf_append (seen more : List Obs) : textOf (seen ++ more) = more.foldl Text.see (textOf seen) :=
  List.foldl_append

theorem delivered_append (seen more : List Obs) :
    delivered (seen ++ more) = delivered seen ++ delivered more := List.flatMap_append

/-- Typing delivers nothing. -/
theorem delivered_typed (cs : List Byte) : delivered (cs.map .typed) = [] := by
  induction cs with
  | nil => rfl
  | cons c cs ih => exact ih

theorem delivered_bytes (p : Pid) (bytes : List Byte) :
    delivered (bytes.map (.byte p)) = bytes.map .byte := by
  induction bytes with
  | nil => rfl
  | cons b bytes ih => exact congrArg (Item.byte b :: ·) ih

/-- Reading adds nothing to the text. -/
theorem see_read (t : Text) (reads : ∀ o ∈ more, ∀ c, o ≠ .typed c) :
    more.foldl Text.see t = { t with taken := t.taken + (delivered more).length } := by
  induction more generalizing t with
  | nil => rfl
  | cons o more ih =>
    have now : t.see o = { t with taken := t.taken + o.items.length } := by
      cases o with
      | typed c => exact absurd rfl (reads _ List.mem_cons_self c)
      | byte => rfl
      | returned => rfl
    have count : (delivered (o :: more)).length = o.items.length + (delivered more).length := by
      simp [delivered]
    rw [List.foldl_cons, now, ih _ fun o' member => reads o' (List.mem_cons_of_mem _ member), count,
      ← Nat.add_assoc]

/-- A reader types nothing. -/
theorem not_typed (p : Pid) (bytes : List Byte) (target : Nat) (result : Int) :
    ∀ o ∈ bytes.map (Obs.byte p) ++ [Obs.returned p target result], ∀ c, o ≠ Obs.typed c := by
  rintro _ member c rfl
  simp at member

/-- What holds between two steps. -/
structure Inv (seen : List Obs) (s : Sys) : Prop where
  agrees : Agrees s.input (textOf seen) (delivered seen)
  calls : ∀ p target n, s.calls p = some (target, n) → 0 < n ∧ n ≤ target

/-- A slice of `consoleread`, whatever the table of calls says after it. -/
theorem Agrees.read {i : Input} (agrees : Agrees i (textOf seen) (delivered seen)) (most : n ≤ target)
    (reads : ∀ o ∈ more, ∀ c, o ≠ .typed c)
    (shows : delivered more = (readLoop target n i).bytes.map .byte ++
      if (readLoop target n i).sleeps then [] else eofOf target (readLoop target n i).n) :
    Agrees (readLoop target n i).input (textOf (seen ++ more)) (delivered (seen ++ more)) := by
  obtain ⟨front, q, committed, taken, isItems, stands⟩ := agrees
  obtain ⟨x, q', rfl, stands', -, -, items⟩ := stands.readLoop most
  rw [textOf_append, see_read _ reads, delivered_append]
  have isMore : delivered more = x.map item := shows.trans items.symm
  refine ⟨front ++ x, q', ?_, ?_, ?_, stands'⟩
  · rw [List.append_assoc]
    exact committed
  · simp [taken, isMore]
  · rw [isItems, isMore, List.map_append]

theorem Inv.consoleread (inv : Inv seen s) (most : n ≤ target) (killed : Bool)
    (stepped : s.consoleread p target n killed = (s', more)) : Inv (seen ++ more) s' := by
  obtain ⟨_, _, _, _, _, stands⟩ := inv.agrees
  obtain ⟨_, _, _, _, fewer, some_, _⟩ := stands.readLoop most
  have others : ∀ call : Option (Nat × Nat), (∀ target n, call = some (target, n) → 0 < n ∧ n ≤ target) →
      ∀ p' target n, upd s.calls p call p' = some (target, n) → 0 < n ∧ n ≤ target := by
    intro call good p' target n isCall
    by_cases same : p' = p
    · rw [same, upd_same] at isCall
      exact good target n isCall
    · rw [upd_ne _ _ same] at isCall
      exact inv.calls p' target n isCall
  have noCall : ∀ target n, (none : Option (Nat × Nat)) = some (target, n) → 0 < n ∧ n ≤ target :=
    fun _ _ never => (nomatch never)
  rw [Sys.consoleread] at stepped
  by_cases sleeps : (readLoop target n s.input).sleeps = true
  · rw [if_pos sleeps] at stepped
    by_cases isKilled : killed = true
    · rw [if_pos isKilled] at stepped
      obtain ⟨rfl, rfl⟩ := Prod.mk.inj stepped
      refine ⟨inv.agrees.read most (not_typed _ _ _ _) ?_, others none noCall⟩
      rw [delivered_append, delivered_bytes, sleeps]
      simp [delivered, Obs.items]
    · rw [if_neg isKilled] at stepped
      obtain ⟨rfl, rfl⟩ := Prod.mk.inj stepped
      refine ⟨inv.agrees.read most (by simp) ?_, others _ fun target' n' isCall => ?_⟩
      · rw [delivered_bytes, sleeps]
        simp
      · obtain ⟨rfl, rfl⟩ := Prod.mk.inj (Option.some.inj isCall)
        exact ⟨some_ sleeps, fewer.trans most⟩
  · rw [if_neg sleeps] at stepped
    obtain ⟨rfl, rfl⟩ := Prod.mk.inj stepped
    refine ⟨inv.agrees.read most (not_typed _ _ _ _) ?_, others none noCall⟩
    rw [delivered_append, delivered_bytes, if_neg sleeps]
    simp [delivered, Obs.items, eofOf]

/-- **A step** keeps the buffer and the text together. -/
theorem Inv.step (inv : Inv seen s) {op : Op} (stepped : s.step op = some (s', more)) :
    Inv (seen ++ more) s' := by
  cases op with
  | intr cs =>
    obtain ⟨rfl, rfl⟩ := Prod.mk.inj (Option.some.inj stepped)
    refine ⟨?_, inv.calls⟩
    rw [textOf_append, delivered_append, delivered_typed, List.append_nil, List.foldl_map]
    exact inv.agrees.consoleintr
  | read p n killed =>
    rw [Sys.step] at stepped
    split at stepped
    case h_1 => exact inv.consoleread le_rfl killed (Option.some.inj stepped)
    case h_2 => cases stepped
  | resume p killed =>
    rw [Sys.step] at stepped
    split at stepped
    case h_1 => cases stepped
    case h_2 target n isCall =>
      exact inv.consoleread (inv.calls p target n isCall).2 killed (Option.some.inj stepped)

theorem inv_start (buf : Nat → Byte) : Inv [] (Sys.start buf) := by
  refine ⟨⟨[], [], rfl, rfl, rfl, .nil (show 0 < U32 by decide), rfl, by simp [textOf], fun _ => rfl⟩, ?_⟩
  intro p target n never
  cases never

end Run

/-- **The line discipline.**  In every run: the counters are in order and at most `INPUT_BUF` apart, and
what readers have been given, with an end of file for each mark, is the beginning of the text that has
been committed; the room that the text takes up is that between the counters. -/
theorem console_delivers {buf : Nat → Byte} {ops : List Op} {s : Sys} {seen : List Obs}
    (ran : Machine.run Sys.step (Sys.start buf) ops = some (s, seen)) :
    (s.input.w + U32 - s.input.r) % U32 ≤ (s.input.e + U32 - s.input.r) % U32 ∧
    (s.input.e + U32 - s.input.r) % U32 ≤ INPUT_BUF ∧
    (s.input.e + U32 - s.input.r) % U32 = (textOf seen).waiting ∧
    delivered seen <+: (textOf seen).committed.map item := by
  have inv := Machine.run_keeps (I := Inv) (fun _ _ _ _ _ inv stepped => inv.step stepped)
    ops [] _ s seen (inv_start buf) ran
  obtain ⟨front, q, committed, -, isItems, stands⟩ := inv.agrees
  have few := stands.queued.few
  rw [stands.length_eq, stands.front.length_eq inputBuf_lt]
  refine ⟨by omega, by simpa using few, ?_, ?_⟩
  · rw [← stands.length_eq]
    exact inv.agrees.waiting_eq
  · rw [List.nil_append] at committed isItems
    rw [committed, isItems, List.map_append]
    exact List.prefix_append _ _

/-- `ab`, a backspace, `c`, an end of file and `d` arrive; a read for ten bytes gets `ac`, and the next
one the end of file. -/
theorem console_delivers_session : ∃ s seen,
    Machine.run Sys.step (Sys.start fun _ => 0)
      [.read 0 10 false, .intr [97, 98, CTRL_H, 99, CTRL_D, 100], .resume 0 false, .read 0 10 false] =
        some (s, seen) ∧
    delivered seen = [.byte 97, .byte 99, .eof] ∧ (textOf seen).waiting = 1 ∧
    delivered seen <+: (textOf seen).committed.map item := by
  have shown : (Machine.run Sys.step (Sys.start fun _ => 0)
      [.read 0 10 false, .intr [97, 98, CTRL_H, 99, CTRL_D, 100], .resume 0 false, .read 0 10 false]).map
        (fun r => (delivered r.2, (textOf r.2).waiting)) = some ([.byte 97, .byte 99, .eof], 1) := by
    decide +kernel
  obtain ⟨⟨s, seen⟩, ran, result⟩ := Option.map_eq_some_iff.1 shown
  obtain ⟨isDelivered, isWaiting⟩ := Prod.mk.inj result
  exact ⟨s, seen, ran, isDelivered, isWaiting, (console_delivers ran).2.2.2⟩

end Xv6Rpi.Proc.Console
