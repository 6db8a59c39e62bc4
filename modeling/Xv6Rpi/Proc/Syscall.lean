/-
# Proc.Syscall -- the dispatcher of system calls

`syscall` of `syscall.c`, and `sys_exec` with the functions that fetch its arguments.  What the
other calls do is left open: `call` gives for each of them the code of its handler.

The table has an entry for each number from 1 to 21, none at 0, and the test before it lets one
number more through, so that the word after the table counts as an entry too (`past`).  The number
of the call comes in `r0` and its result goes there, except for `exec`, which has set `r0` itself
if it succeeds.  If it fails nobody sets it.
-/
import Xv6Rpi.Proc.ExecSpec

namespace Xv6Rpi.Proc.Syscall

open Theory
open Proc.Vm
open Proc.Exec
open Kernel (upd)

set_option autoImplicit false

/-! ## Numbers -/

inductive Sysno where
  | fork
  | exit
  | wait
  | pipe
  | read
  | kill
  | exec
  | fstat
  | chdir
  | dup
  | getpid
  | sbrk
  | sleep
  | uptime
  | open
  | write
  | mknod
  | unlink
  | link
  | mkdir
  | close
  deriving DecidableEq

/-- `SYS_fork` and the others. -/
def Sysno.num : Sysno → Nat
  | .fork => 1
  | .exit => 2
  | .wait => 3
  | .pipe => 4
  | .read => 5
  | .kill => 6
  | .exec => 7
  | .fstat => 8
  | .chdir => 9
  | .dup => 10
  | .getpid => 11
  | .sbrk => 12
  | .sleep => 13
  | .uptime => 14
  | .open => 15
  | .write => 16
  | .mknod => 17
  | .unlink => 18
  | .link => 19
  | .mkdir => 20
  | .close => 21

/-- `syscalls[]`. -/
def syscalls : List (Option Sysno) :=
  [none, some .fork, some .exit, some .wait, some .pipe, some .read, some .kill, some .exec,
    some .fstat, some .chdir, some .dup, some .getpid, some .sbrk, some .sleep, some .uptime,
    some .open, some .write, some .mknod, some .unlink, some .link, some .mkdir, some .close]

/-- The entries of the table are where their numbers say. -/
theorem syscalls_num (n : Sysno) : syscalls[n.num]? = some (some n) := by
  cases n <;> rfl

theorem num_of_entry {i : Nat} {n : Sysno} (here : syscalls[i]? = some (some n)) : n.num = i := by
  have small : n.num < syscalls.length := (List.getElem?_eq_some_iff.1 (syscalls_num n)).1
  have nodup : syscalls.Nodup := by decide
  exact (List.getElem?_inj small nodup).1 ((syscalls_num n).trans here.symm)

/-! ## Arguments of `exec` -/

/-- A string that ends before `room` bytes are over. -/
def readStr (f : Nat → Byte) : Nat → Nat → Option (List Byte)
  | 0, _ => none
  | room + 1, a => if f a = 0 then some [] else (readStr f room (a + 1)).map (f a :: ·)

/-- Fetch the int at addr from the current process. -/
def fetchint (t : Task) (addr : Nat) : Option Nat :=
  if t.sz ≤ addr ∨ t.sz < (addr + 4) % UINTS then none else some (wordAt (t.mem.user t.pgdir) addr)

/-- Fetch the nul-terminated string at addr from the current process. -/
def fetchstr (t : Task) (addr : Nat) : Option (List Byte) :=
  if t.sz ≤ addr then none else readStr (t.mem.user t.pgdir) (t.sz - addr) addr

/-- The loop of `sys_exec`, with room for so many entries of `argv`. -/
def fetchArgv (t : Task) (uargv : Nat) : Nat → Nat → Option Argv
  | 0, _ => none
  | room + 1, i =>
    match fetchint t ((uargv + 4 * i) % UINTS) with
    | none => none
    | some uarg =>
      if uarg = 0 then some []
      else match fetchstr t uarg with
        | none => none
        | some s => (fetchArgv t uargv room (i + 1)).map (s :: ·)

/-- `sys_exec`, where `namei` finds what `names` says. -/
def sysExec (junk : Nat) (names : List Byte → Option (Nat × FileBytes)) : X Int := do
  let t ← Act.get
  match fetchstr t t.tf.r1, fetchArgv t (t.tf.regs 2) MAXARG 0 with
  | some path, some argv => exec junk path (names path) argv
  | _, _ => return -1

/-! ## The dispatcher -/

/-- A result as it stands in a register. -/
def toWord (r : Int) : Nat := (r % (UINTS : Int)).toNat

def setR0 (r : Nat) (t : Task) : Task := { t with tf := { t.tf with r0 := r } }

/-- An unknown system call. -/
def unknown : X Unit := Act.modify (setR0 (toWord (-1)))

/-- `num > 0 && num <= NELEM(syscalls)`, where `num` is an `int` but the second comparison is one of
unsigned numbers. -/
def inTable (num : Nat) : Bool := 0 < num && num < 2147483648 && num ≤ syscalls.length

def syscall (past : Nat) (call : Sysno → X Int) : X Unit := do
  let t ← Act.get
  let num := t.tf.r0
  if inTable num then
    match syscalls[num]? with
    | some (some n) => do
        let ret ← call n
        -- do not set the return value if it is SYS_exec
        if num = Sysno.exec.num then return ()
        else Act.modify (setR0 (toWord ret))
    | some none => unknown
    | none => do
        -- the word after the table is not an entry of it
        Act.failIf (past != 0) .wild
        unknown
  else unknown

/-- The handlers: `sys_exec`, and whatever the others are. -/
def handlers (junk : Nat) (names : List Byte → Option (Nat × FileBytes)) (other : Sysno → X Int)
    (n : Sysno) : X Int :=
  if n = .exec then sysExec junk names else other n

/-! ## What `exec` does to the registers -/

section Registers

variable {S : Setup} {R : Set (Nat × Nat)} {t t' : Task} {junk : Nat} {path : List Byte}
  {node : Option (Nat × FileBytes)} {argv : Argv} {r : Int}

theorem leftover_r0 : (leftover node argv t).r0 = t.tf.r0 ∨ (leftover node argv t).r0 = argv.length := by
  unfold leftover
  split
  · exact Or.inl rfl
  · split
    · split
      · exact Or.inl rfl
      · split
        · exact Or.inr rfl
        · exact Or.inl rfl
    · exact Or.inl rfl

/-- The registers when `exec` returns. -/
theorem ended_registers (ended : Ended S R junk path node argv t r t') :
    (r = -1 ∧ (t'.tf.r0 = t.tf.r0 ∨ t'.tf.r0 = argv.length)) ∨
      (r = 0 ∧ t'.tf.r0 = argv.length ∧ t'.tf.r1 = t'.tf.spUsr) := by
  rcases ended with ⟨isBad, -, m', -, rfl⟩ | ⟨isZero, -, ip, f, d, n, m1, -, -, entered⟩
  · exact Or.inl ⟨isBad, leftover_r0⟩
  · rw [entered.task]
    exact Or.inr ⟨isZero, rfl, rfl⟩

end Registers

/-! ## What the user sees -/

section Dispatch

variable {S : Setup} {R : Set (Nat × Nat)} {t t' : Task} {junk past : Nat}
  {names : List Byte → Option (Nat × FileBytes)} {other : Sysno → X Int} {r : Int}

theorem length_fetchArgv {uargv room i : Nat} {argv : Argv}
    (fetched : fetchArgv t uargv room i = some argv) : argv.length < room := by
  induction room generalizing i argv with
  | zero => cases fetched
  | succ room ih =>
    rw [fetchArgv] at fetched
    split at fetched
    · cases fetched
    · split at fetched
      · cases fetched
        exact Nat.succ_pos room
      · split at fetched
        · cases fetched
        · obtain ⟨rest, isRest, rfl⟩ := Option.map_eq_some_iff.1 fetched
          exact Nat.succ_lt_succ (ih isRest)

theorem length_readStr {f : Nat → Byte} {room a : Nat} {s : List Byte}
    (found : readStr f room a = some s) : s.length < room := by
  induction room generalizing a s with
  | zero => cases found
  | succ room ih =>
    rw [readStr] at found
    split at found
    · cases found
      exact Nat.succ_pos room
    · obtain ⟨rest, isRest, rfl⟩ := Option.map_eq_some_iff.1 found
      exact Nat.succ_lt_succ (ih isRest)

/-- A string of the process lies in its address space. -/
theorem length_fetchstr {addr : Nat} {s : List Byte} (fetched : fetchstr t addr = some s) :
    s.length < t.sz := by
  unfold fetchstr at fetched
  split at fetched
  · cases fetched
  · exact (length_readStr fetched).trans_le (Nat.sub_le _ _)

theorem fetchArgv_short {uargv room i : Nat} {argv : Argv}
    (fetched : fetchArgv t uargv room i = some argv) : ∀ s ∈ argv, s.length < t.sz := by
  induction room generalizing i argv with
  | zero => cases fetched
  | succ room ih =>
    rw [fetchArgv] at fetched
    split at fetched
    · cases fetched
    · split at fetched
      · cases fetched
        exact fun s never => (nomatch never)
      · split at fetched
        · cases fetched
        case h_2 s isString =>
          obtain ⟨rest, isRest, rfl⟩ := Option.map_eq_some_iff.1 fetched
          intro s' member
          rcases List.mem_cons.1 member with rfl | later
          · exact length_fetchstr isString
          · exact ih isRest s' later

/-- A call that is dispatched as it should be: only through entries of the table, and the user finds
in `r0` what the handler has returned, except that a program that has been entered finds its
arguments. -/
structure Dispatches (past junk : Nat) (names : List Byte → Option (Nat × FileBytes))
    (other : Sysno → X Int) (t : Task) : Prop where
  unknown : (∀ n : Sysno, n.num ≠ t.tf.r0) →
    syscall past (handlers junk names other) t = .done () (setR0 (toWord (-1)) t)
  returns : ∀ n : Sysno, n.num = t.tf.r0 → ∀ r t1, (handlers junk names other n t).leaf = .done r t1 →
    (n = .exec → r = -1) →
    (syscall past (handlers junk names other) t).leaf = .done () (setR0 (toWord r) t1)
  enters : Sysno.exec.num = t.tf.r0 → ∀ t1, (sysExec junk names t).leaf = .done 0 t1 →
    (syscall past (handlers junk names other) t).leaf = .done () t1 ∧
      ∃ argv, fetchArgv t (t.tf.regs 2) MAXARG 0 = some argv ∧ t1.tf.r0 = argv.length ∧
        t1.tf.r1 = t1.tf.spUsr

theorem inTable_num (n : Sysno) : inTable n.num = true := by
  cases n <;> rfl

theorem num_injective {n k : Sysno} (same : n.num = k.num) : n = k := by
  have entries := syscalls_num n
  rw [same, syscalls_num k] at entries
  exact (Option.some.inj (Option.some.inj entries)).symm

/-- A number of a system call. -/
theorem syscall_num {call : Sysno → X Int} {n : Sysno} (isNum : n.num = t.tf.r0) :
    syscall past call t = (call n t).bind fun ret t1 =>
      if n = .exec then .done () t1 else .done () (setR0 (toWord ret) t1) := by
  rw [syscall, Act.bind_apply, Act.get_apply, Outcome.done_bind, ← isNum, inTable_num, if_pos rfl,
    syscalls_num]
  show (call n t).bind _ = _
  congr 1
  funext ret t1
  by_cases isExec : n = .exec
  · rw [if_pos isExec, if_pos (congrArg Sysno.num isExec)]
    rfl
  · rw [if_neg isExec, if_neg (mt num_injective isExec)]
    rfl

/-- Any other number. -/
theorem syscall_unknown {call : Sysno → X Int} (noNum : ∀ n : Sysno, n.num ≠ t.tf.r0) :
    syscall past call t = if t.tf.r0 = 22 ∧ past ≠ 0 then .fail .wild t
      else .done () (setR0 (toWord (-1)) t) := by
  rw [syscall, Act.bind_apply, Act.get_apply, Outcome.done_bind]
  by_cases isIn : inTable t.tf.r0 = true
  · rw [if_pos isIn]
    match entry : syscalls[t.tf.r0]? with
    | some (some n) => exact absurd (num_of_entry entry) (noNum n)
    | some none =>
      have inside : t.tf.r0 < 22 := (List.getElem?_eq_some_iff.1 entry).1
      rw [if_neg fun both => absurd both.1 inside.ne]
      rfl
    | none =>
      have outside : 22 ≤ t.tf.r0 := List.getElem?_eq_none_iff.1 entry
      have inside : t.tf.r0 ≤ 22 := by
        simp only [inTable, Bool.and_eq_true, decide_eq_true_eq] at isIn
        exact isIn.2
      have last : t.tf.r0 = 22 := le_antisymm inside outside
      by_cases clear_ : past = 0
      · rw [if_neg fun both => both.2 clear_, clear_]
        rfl
      · rw [if_pos ⟨last, clear_⟩]
        show (Act.failIf (past != 0) .wild >>= fun _ => unknown) t = _
        rw [Act.bind_apply, bne_iff_ne.2 clear_, Act.failIf_true, Outcome.fail_bind]
  · rw [if_neg isIn, if_neg]
    · rfl
    · rintro ⟨last, -⟩
      rw [last] at isIn
      exact isIn rfl

/-- The arguments of `exec` can be fetched, and the call is not one that returns -1. -/
def ExecGoes (junk : Nat) (names : List Byte → Option (Nat × FileBytes)) (t : Task) : Prop :=
  ∃ path argv, fetchstr t t.tf.r1 = some path ∧ fetchArgv t (t.tf.regs 2) MAXARG 0 = some argv ∧
    verdict junk (names path) argv t.mem.supply ≠ .refuses

/-- `sys_exec` whose arguments can be fetched is `exec` of them. -/
theorem sysExec_eq {path : List Byte} {argv : Argv}
    (isPath : fetchstr t t.tf.r1 = some path)
    (isArgv : fetchArgv t (t.tf.regs 2) MAXARG 0 = some argv) :
    sysExec junk names t = exec junk path (names path) argv t := by
  rw [sysExec, Act.bind_apply, Act.get_apply, Outcome.done_bind, isPath, isArgv]

/-- What `exec` has come to when `sys_exec` returns. -/
theorem sysExec_ended (own : Held S t.pgdir R t.mem) (bounded : t.sz ≤ UADDR_SZ)
    {path : List Byte} {argv : Argv} (isPath : fetchstr t t.tf.r1 = some path)
    (isArgv : fetchArgv t (t.tf.regs 2) MAXARG 0 = some argv)
    (returned : (sysExec junk names t).leaf = .done r t') :
    Ended S R junk path (names path) argv t r t' := by
  have short : ∀ s ∈ argv, s.length < UADDR_SZ := fun s member =>
    (fetchArgv_short isArgv s member).trans_le bounded
  have ended := (exec_sat junk path (names path) own short).leaf fun _ _ => trivial
  rw [sysExec_eq isPath isArgv] at returned
  rwa [returned] at ended

/-- `sys_exec` fails to fetch its arguments, or it is `exec` of them. -/
theorem sysExec_cases (own : Held S t.pgdir R t.mem) (bounded : t.sz ≤ UADDR_SZ)
    (returned : (sysExec junk names t).leaf = .done r t') :
    (r = -1 ∧ t' = t) ∨ ∃ path argv, fetchArgv t (t.tf.regs 2) MAXARG 0 = some argv ∧
      Ended S R junk path (names path) argv t r t' := by
  cases isPath : fetchstr t t.tf.r1 with
  | none =>
    rw [sysExec, Act.bind_apply, Act.get_apply, Outcome.done_bind, isPath] at returned
    cases returned
    exact Or.inl ⟨rfl, rfl⟩
  | some path =>
    cases isArgv : fetchArgv t (t.tf.regs 2) MAXARG 0 with
    | none =>
      rw [sysExec, Act.bind_apply, Act.get_apply, Outcome.done_bind, isPath, isArgv] at returned
      cases returned
      exact Or.inl ⟨rfl, rfl⟩
    | some argv => exact Or.inr ⟨path, argv, rfl, sysExec_ended own bounded isPath isArgv returned⟩

/-- **When `sys_exec` fails.** -/
theorem sysExec_fails_iff (own : Held S t.pgdir R t.mem) (bounded : t.sz ≤ UADDR_SZ) :
    (∃ t', (sysExec junk names t).leaf = .done (-1) t') ↔ ¬ ExecGoes junk names t := by
  constructor
  · rintro ⟨t', returned⟩ ⟨path, argv, isPath, isArgv, goes⟩
    rcases sysExec_ended own bounded isPath isArgv returned with ⟨-, refuses, -⟩ | ⟨never, -⟩
    · exact goes refuses
    · cases never
  · intro fails
    cases isPath : fetchstr t t.tf.r1 with
    | none =>
      rw [sysExec, Act.bind_apply, Act.get_apply, Outcome.done_bind, isPath]
      exact ⟨t, rfl⟩
    | some path =>
      cases isArgv : fetchArgv t (t.tf.regs 2) MAXARG 0 with
      | none =>
        rw [sysExec, Act.bind_apply, Act.get_apply, Outcome.done_bind, isPath, isArgv]
        exact ⟨t, rfl⟩
      | some argv =>
        have short : ∀ s ∈ argv, s.length < UADDR_SZ := fun s member =>
          (fetchArgv_short isArgv s member).trans_le bounded
        have refuses : verdict junk (names path) argv t.mem.supply = .refuses := by
          by_contra goes
          exact fails ⟨path, argv, isPath, isArgv, goes⟩
        obtain ⟨m', -, leaf⟩ := exec_refuses path own short refuses
        rw [sysExec_eq isPath isArgv]
        exact ⟨_, leaf⟩

/-- A failing `exec` leaves something in `r0` that is not -1. -/
theorem sysExec_fails_r0 (own : Held S t.pgdir R t.mem) (bounded : t.sz ≤ UADDR_SZ)
    (isExec : Sysno.exec.num = t.tf.r0)
    (failed : (sysExec junk names t).leaf = .done (-1) t') : t'.tf.r0 ≠ toWord (-1) := by
  have isExec : 7 = t.tf.r0 := isExec
  have minusOne : toWord (-1) = 4294967295 := by decide
  rw [minusOne]
  rcases sysExec_cases own bounded failed with ⟨-, rfl⟩ | ⟨path, argv, fetched, ended⟩
  · omega
  · have few : argv.length < 32 := length_fetchArgv fetched
    rcases ended_registers ended with ⟨-, same | count⟩ | ⟨never, -⟩
    · omega
    · omega
    · cases never

/-- **System calls are dispatched as they should be** exactly if the number after the last is not
used while the word after the table is not 0, and an `exec` does not fail: its arguments can be
fetched, and by the file, the arguments and the memory there is it is not refused. -/
theorem dispatches_iff (own : Held S t.pgdir R t.mem) (bounded : t.sz ≤ UADDR_SZ) :
    Dispatches past junk names other t ↔
      (t.tf.r0 = syscalls.length → past = 0) ∧
      (t.tf.r0 = Sysno.exec.num → ExecGoes junk names t) := by
  have isHandler : handlers junk names other .exec = sysExec junk names := if_pos rfl
  constructor
  · intro dispatched
    refine ⟨fun last => ?_, fun isExec => ?_⟩
    · have last : t.tf.r0 = 22 := last
      have noNum : ∀ n : Sysno, n.num ≠ t.tf.r0 := by
        rw [last]
        intro n
        cases n <;> decide
      have run := dispatched.unknown noNum
      rw [syscall_unknown noNum] at run
      by_contra some_
      rw [if_pos ⟨last, some_⟩] at run
      cases run
    · by_contra fails
      obtain ⟨t1, failed⟩ := (sysExec_fails_iff own bounded).2 fails
      have seen := dispatched.returns .exec isExec.symm (-1) t1 (isHandler ▸ failed) fun _ => rfl
      rw [syscall_num isExec.symm, isHandler, Outcome.leaf_bind_done_iff] at seen
      obtain ⟨ret, t2, first, second⟩ := seen
      rw [failed] at first
      cases first
      have same : t1 = setR0 (toWord (-1)) t1 := (Outcome.done.inj second).2
      exact sysExec_fails_r0 own bounded isExec.symm failed (congrArg (·.tf.r0) same)
  · rintro ⟨noLast, goes⟩
    refine ⟨fun noNum => ?_, fun n isNum r t1 returned onlyFailed => ?_, fun isExec t1 returned => ⟨?_, ?_⟩⟩
    · rw [syscall_unknown noNum, if_neg fun both => both.2 (noLast both.1)]
    · rw [syscall_num isNum, Outcome.leaf_bind_done_iff]
      refine ⟨r, t1, returned, ?_⟩
      by_cases isExec : n = .exec
      · subst isExec
        rw [isHandler, onlyFailed rfl] at returned
        exact absurd (goes isNum.symm) ((sysExec_fails_iff own bounded).1 ⟨t1, returned⟩)
      · rw [if_neg isExec]
        rfl
    · rw [syscall_num isExec, Outcome.leaf_bind_done_iff, isHandler]
      exact ⟨0, t1, returned, rfl⟩
    · rcases sysExec_cases own bounded returned with ⟨never, -⟩ | ⟨path, argv, fetched, ended⟩
      · cases never
      · rcases ended_registers ended with ⟨never, -⟩ | ⟨-, count, vector⟩
        · cases never
        · exact ⟨argv, fetched, count, vector⟩

end Dispatch

/-- The strings and the vector of a call `exec("sh", {"hi", 0})`. -/
def shellHi : List Byte := [115, 104, 0, 0, 12, 0, 0, 0, 0, 0, 0, 0, 104, 105, 0]

/-- A process that is about to make that call. -/
def callsShell (d : Nat) (m : VMem) : Task :=
  { caller d (Access.through d (.copyout 0 shellHi) m) with
    tf := ⟨0, 0, 0, 0, 7, 0, fun i => if i = 2 then 4 else 0, 0⟩ }

/-- The only program there is. -/
def onlyShell (path : List Byte) : Option (Nat × FileBytes) :=
  if path = [115, 104] then some (5, twoPages) else none

/-- `exec("sh", {"hi", 0})` is dispatched as it should be. -/
theorem dispatches_shell : ∃ d m S, ThreePages d m ∧ Held S d ∅ (callsShell d m).mem ∧
    fetchArgv (callsShell d m) 4 MAXARG 0 = some [[104, 105]] ∧
    Dispatches 0 9 onlyShell (fun _ => return 0) (callsShell d m) := by
  obtain ⟨d, m, S, made, held, checked⟩ := exists_caller (fun d m =>
    decide (fetchstr (callsShell d m) 0 = some [115, 104] ∧
      fetchArgv (callsShell d m) 4 MAXARG 0 = some [[104, 105]] ∧
      verdict 9 (onlyShell [115, 104]) [[104, 105]] (callsShell d m).mem.supply = .succeeds))
    (by decide +kernel)
  obtain ⟨isPath, isArgv, succeeds⟩ := of_decide_eq_true checked
  obtain ⟨held', -⟩ := held.through (.copyout 0 shellHi)
  refine ⟨d, m, S, made, held', isArgv, (dispatches_iff held' (by show 12288 ≤ 268435456; decide)).2
    ⟨fun _ => rfl, fun _ => ⟨_, _, isPath, isArgv, ?_⟩⟩⟩
  rw [succeeds]
  decide

/-- A file that is not found: the user sees 7 instead of -1.  And the number after the last calls
through whatever is stored after the table. -/
theorem exec_failure_unseen : ∃ d m S, ThreePages d m ∧ Held S d ∅ m ∧
    (∃ t1, (sysExec 0 (fun _ => none) (setR0 7 (caller d m))).leaf = .done (-1) t1 ∧
      (syscall 0 (handlers 0 (fun _ => none) fun _ => return 0) (setR0 7 (caller d m))).leaf =
        .done () t1 ∧ t1.tf.r0 = 7) ∧
    syscall 1 (handlers 0 (fun _ => none) fun _ => return 0) (setR0 22 (caller d m)) =
      .fail .wild (setR0 22 (caller d m)) := by
  obtain ⟨d, m, S, made, held, checked⟩ := exists_caller (fun d m =>
    (sysExec 0 (fun _ => none) (setR0 7 (caller d m))).passes fun r t1 =>
      r == -1 && t1.tf.r0 == 7) (by decide +kernel)
  obtain ⟨r, t1, failed, checked⟩ := Outcome.exists_of_passes checked
  rw [Bool.and_eq_true, beq_iff_eq, beq_iff_eq] at checked
  obtain ⟨rfl, r0⟩ := checked
  refine ⟨d, m, S, made, held, ⟨t1, failed, ?_, r0⟩, rfl⟩
  rw [syscall_num (n := .exec) rfl, Outcome.leaf_bind_done_iff]
  exact ⟨-1, t1, failed, rfl⟩

end Xv6Rpi.Proc.Syscall
