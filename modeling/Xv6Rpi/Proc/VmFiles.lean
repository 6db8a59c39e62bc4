/-
# Proc.VmFiles -- open files and the memory of pipes

A pipe has memory as long as one of its ends is open, and an end is open as long as a
file structure for it is in use (`PipesOk`).  `Refs s X` says that the counts of file
structures are those of the descriptors, apart from the references `X` a call has taken
or given up on its way.  Each function of `file.c` and `pipe.c` has one specification.
-/
import Mathlib.Data.Fintype.Prod
import Mathlib.Order.Fin.Basic
import Xv6Rpi.Proc.VmCalls
import Xv6Rpi.Proc.VmWhole
import Xv6Rpi.Theory.Count

namespace Xv6Rpi.Proc.Vm

open Theory
open Kernel (Client Pid FileId FdType NOFILE NFILE upd upd_same upd_ne upd_eq_update)

set_option autoImplicit false

/-! ## Calling functions of `vm.c` -/

/-- What a system call owes: as `vmStops`, for the whole state. -/
def sysStops (short : Prop) (may : VmPanic → Prop) : Contract Sys VmPanic VmEvent where
  rest := fun _ => False
  fails := fun e s => e = .oom ∧ PT_ORDER ∈ s.mem.misses ∧ short ∨ may e
  shows := fun | .kptFree taken back, _ => taken = some back
  given := fun _ => True

/-- The same, where it does not matter when page tables run out. -/
abbrev sysContract (may : VmPanic → Prop) : Contract Sys VmPanic VmEvent := sysStops True may

variable {short : Prop} {may : VmPanic → Prop}

theorem vm_spec {α : Type} {Q : α → VMem → Prop} {x : V α} {s : Sys}
    (sat : Sat (vmStops short may) Q (x s.mem)) :
    Sat (sysStops short may) (fun a s' => ∃ m, s' = { s with mem := m } ∧ Q a m) (vm x s) :=
  Sat.zoom (t := s) (fun m (s : Sys) => { s with mem := m }) sat (fun _ => id) (fun _ _ => id)
    (fun _ _ => id) (fun _ _ => trivial)

theorem vm_done {α : Type} {x : V α} {s : Sys} {a : α} {m : VMem} (returned : x s.mem = .done a m) :
    vm x s = .done a { s with mem := m } := by
  rw [vm, Act.zoom, returned]
  rfl

/-! ## The invariant of files and pipes -/

namespace Sys

/-- All descriptors. -/
def fds (s : Sys) : Pid × Fin NOFILE → Option FileId := fun x => (s.procs x.1).ofile x.2

/-- The memory of a pipe with an open end. -/
def pipeAt (s : Sys) (a : Nat) : Nat :=
  if (s.pipes a).readopen = true ∨ (s.pipes a).writeopen = true then a else 0

end Sys

/-- A file structure in use for an end of the pipe at `a`. -/
structure VmFile.IsEnd (f : VmFile) (a : Nat) (writable : Bool) : Prop where
  inUse : 0 < f.ref
  type : f.type = .pipe
  pipe : f.pipe = a
  side : f.writable = writable

def Ends.flag (e : Ends) (writable : Bool) : Bool := if writable then e.writeopen else e.readopen

/-- File structures out of use have no type, the ends of a pipe are open as long as there
is a file structure for them, and then its memory is of the allocator's. -/
structure PipesOk (s : Sys) : Prop where
  idle : ∀ i, (s.files i).ref = 0 → (s.files i).type = .none
  open_iff : ∀ a writable, (s.pipes a).flag writable = true ↔ ∃ i, (s.files i).IsEnd a writable
  once : ∀ i j a writable, (s.files i).IsEnd a writable →
    (s.files j).IsEnd a writable → i = j
  real : ∀ a writable, (s.pipes a).flag writable = true → BOOT_END ≤ a

/-- The counts are exact, apart from `X`. -/
def Refs (s : Sys) (X : FileId → Int) : Prop :=
  ∀ i, ((s.files i).ref : Int) = refCount s.fds i + X i

/-- One reference more or less. -/
def plus (X : FileId → Int) (i : FileId) (n : Int) : FileId → Int := fun j => X j + if j = i then n else 0

theorem plus_plus (X : FileId → Int) (i : FileId) (n k : Int) :
    plus (plus X i n) i k = plus X i (n + k) := by
  funext j
  simp only [plus]
  split <;> omega

theorem plus_zero (X : FileId → Int) (i : FileId) : plus X i 0 = X := by
  funext j
  simp [plus]

/-- A reference taken and given up again. -/
theorem plus_minus (X : FileId → Int) (i : FileId) : plus (plus X i 1) i (-1) = X := by
  rw [plus_plus, Int.add_right_neg, plus_zero]

theorem minus_plus (X : FileId → Int) (i : FileId) : plus (plus X i (-1)) i 1 = X := by
  rw [plus_plus, Int.add_left_neg, plus_zero]

theorem plus_comm (X : FileId → Int) (i j : FileId) (n k : Int) :
    plus (plus X i n) j k = plus (plus X j k) i n := by
  funext l
  simp only [plus]
  omega

/-- The view in which kernel stacks and directories are as given. -/
def Sys.view (s : Sys) (kstack : Pid → Nat) (dir : Root → Nat) : View :=
  ⟨s.modeStack, kstack, s.pipeAt, dir⟩

structure FileInv (S : Setup) (kstack : Pid → Nat) (dir : Root → Nat) (Q : Set (Nat × Nat))
    (X : FileId → Int) (s : Sys) : Prop where
  kept : Kept S (s.view kstack dir) Q s.mem
  pipes : PipesOk s
  refs : Refs s X

/-- Nothing but files and pipes changes. -/
structure FilesOnly (s s' : Sys) : Prop where
  procs : s'.procs = s.procs
  nextpid : s'.nextpid = s.nextpid
  modeStack : s'.modeStack = s.modeStack
  words : s'.mem.words = s.mem.words

theorem FilesOnly.refl (s : Sys) : FilesOnly s s := ⟨rfl, rfl, rfl, rfl⟩

theorem FilesOnly.trans {s s' s'' : Sys} (first : FilesOnly s s') (second : FilesOnly s' s'') :
    FilesOnly s s'' :=
  ⟨second.procs.trans first.procs, second.nextpid.trans first.nextpid,
    second.modeStack.trans first.modeStack, second.words.trans first.words⟩

section Files

variable {S : Setup} {kstack : Pid → Nat} {dir : Root → Nat} {Q : Set (Nat × Nat)}
variable {X : FileId → Int} {s s' : Sys} {i : FileId}

@[simp] theorem setFile_apply (i : FileId) (f : VmFile → VmFile) (s : Sys) :
    setFile i f s = .done () { s with files := upd s.files i (f (s.files i)) } := rfl

@[simp] theorem setProc_apply (p : Pid) (f : VmProc → VmProc) (s : Sys) :
    setProc p f s = .done () { s with procs := upd s.procs p (f (s.procs p)) } := rfl

/-- Another file structure in use, which is the same end of a pipe as before. -/
theorem PipesOk.setFile (ok : PipesOk s) {f : VmFile} (files : s'.files = upd s.files i f)
    (pipes : s'.pipes = s.pipes) (inUse : 0 < f.ref)
    (isSame : ∀ a writable, f.IsEnd a writable ↔ (s.files i).IsEnd a writable) : PipesOk s' := by
  have same : ∀ j a writable, (s'.files j).IsEnd a writable ↔ (s.files j).IsEnd a writable := by
    intro j a writable
    rw [files]
    by_cases here : j = i
    · subst here
      rw [upd_same]
      exact isSame a writable
    · rw [upd_ne _ _ here]
  refine ⟨fun j idle => ?_, fun a writable => ?_, fun j k a writable => ?_, pipes ▸ ok.real⟩
  · by_cases here : j = i
    · rw [here, files, upd_same] at idle
      omega
    · rw [files, upd_ne _ _ here] at idle ⊢
      exact ok.idle j idle
  · simp only [pipes, same]
    exact ok.open_iff a writable
  · rw [same, same]
    exact ok.once j k a writable

/-- Another count, for a file structure that stays in use. -/
theorem PipesOk.recount (ok : PipesOk s) (used : 0 < (s.files i).ref) {n : Nat} (stays : 0 < n) :
    PipesOk { s with files := upd s.files i { s.files i with ref := n } } :=
  ok.setFile rfl rfl stays fun _ _ => ⟨fun isEnd => { isEnd with inUse := used },
    fun isEnd => { isEnd with inUse := stays }⟩

/-- A file structure that is not for a pipe, before or after. -/
theorem PipesOk.plain (ok : PipesOk s) {f : VmFile} (before : (s.files i).type ≠ .pipe)
    (after : f.type ≠ .pipe) (inUse : 0 < f.ref) : PipesOk { s with files := upd s.files i f } :=
  ok.setFile rfl rfl inUse fun _ _ => iff_of_false (fun isEnd => after isEnd.type)
    fun isEnd => before isEnd.type

theorem Refs.recount (refs : Refs s X) {f : VmFile} (files : s'.files = upd s.files i f)
    (procs : s'.procs = s.procs) {n : Int} (count : (f.ref : Int) = (s.files i).ref + n) :
    Refs s' (plus X i n) := by
  intro j
  have fds : s'.fds = s.fds := by
    funext x
    simp only [Sys.fds, procs]
  rw [files, fds]
  by_cases here : j = i
  · subst here
    have before := refs j
    simp only [upd_same, plus, if_true]
    omega
  · have before := refs j
    simp only [upd_ne _ _ here, plus, if_neg here]
    omega

theorem Refs.setFile (refs : Refs s X) {f : VmFile} {n : Int}
    (count : (f.ref : Int) = (s.files i).ref + n) :
    Refs { s with files := upd s.files i f } (plus X i n) := by
  refine refs.recount ?_ ?_ count
  · rfl
  · rfl

theorem FilesOnly.setFile (s : Sys) (i : FileId) (f : VmFile) :
    FilesOnly s { s with files := upd s.files i f } := ⟨rfl, rfl, rfl, rfl⟩

theorem flag_shut (e : Ends) (writable side : Bool) :
    (e.shut side).flag writable = (e.flag writable && writable != side) := by
  cases writable <;> cases side <;> simp [Ends.shut, Ends.flag]

theorem pipeAt_eq (s : Sys) (a : Nat) :
    s.pipeAt a = if (s.pipes a).flag false = true ∨ (s.pipes a).flag true = true then a else 0 := rfl

theorem pipeAt_of_flag {a : Nat} {writable : Bool} (isOpen : (s.pipes a).flag writable = true) :
    s.pipeAt a = a := by
  rw [pipeAt_eq]
  cases writable with
  | false => exact if_pos (Or.inl isOpen)
  | true => exact if_pos (Or.inr isOpen)

/-- The last reference to a file structure goes, and with it an end of a pipe. -/
theorem PipesOk.close (ok : PipesOk s) (used : 0 < (s.files i).ref)
    (files : s'.files = upd s.files i { s.files i with ref := 0, type := .none })
    (pipes : ∀ a writable, (s'.pipes a).flag writable = true ↔
      (s.pipes a).flag writable = true ∧ ¬ (s.files i).IsEnd a writable) : PipesOk s' := by
  have same : ∀ j a writable, (s'.files j).IsEnd a writable ↔
      j ≠ i ∧ (s.files j).IsEnd a writable := by
    intro j a writable
    rw [files]
    by_cases here : j = i
    · subst here
      rw [upd_same]
      exact iff_of_false (fun isEnd => absurd isEnd.inUse (Nat.lt_irrefl 0)) fun both => both.1 rfl
    · rw [upd_ne _ _ here]
      exact ⟨fun isEnd => ⟨here, isEnd⟩, fun both => both.2⟩
  refine ⟨fun j idle => ?_, fun a writable => ?_, fun j k a writable isEnd isEnd' => ?_,
    fun a writable isOpen => ok.real a writable ((pipes a writable).1 isOpen).1⟩
  · rw [files] at idle ⊢
    by_cases here : j = i
    · rw [here, upd_same]
    · rw [upd_ne _ _ here] at idle ⊢
      exact ok.idle j idle
  · rw [pipes, ok.open_iff]
    constructor
    · rintro ⟨⟨j, isEnd⟩, notMine⟩
      refine ⟨j, (same j a writable).2 ⟨?_, isEnd⟩⟩
      rintro rfl
      exact notMine isEnd
    · rintro ⟨j, isEnd⟩
      obtain ⟨other, isEnd⟩ := (same j a writable).1 isEnd
      exact ⟨⟨j, isEnd⟩, fun mine => other (ok.once j i a writable isEnd mine)⟩
  · exact ok.once j k a writable ((same ..).1 isEnd).2 ((same ..).1 isEnd').2

/-- **`pipeclose` gives the memory back with the last end.** -/
theorem pipeclose_spec {a : Nat} {side : Bool} (kept : Kept S (s.view kstack dir) Q s.mem)
    (isOpen : (s.pipes a).flag side = true) (real : BOOT_END ≤ a) :
    Sat (sysStops short may) (fun _ s' => Kept S (s'.view kstack dir) Q s'.mem ∧ FilesOnly s s' ∧
      s'.files = s.files ∧ s'.irefs = s.irefs ∧
      s'.pipes = upd s.pipes a ((s.pipes a).shut side)) (pipeclose a side s) := by
  have nonzero : a ≠ 0 := by
    have real : 0x80100000 ≤ a := real
    omega
  have before : s.pipeAt a = a := pipeAt_of_flag isOpen
  unfold pipeclose
  refine Sat.step (Act.modify_apply _ s) (Sat.step (Act.get_apply _) ?_)
  have others : ∀ b, b ≠ a → Sys.pipeAt
      { s with pipes := upd s.pipes a ((s.pipes a).shut side) } b = s.pipeAt b := by
    intro b ne
    simp only [Sys.pipeAt, upd_ne _ _ ne]
  have now : Sys.pipeAt { s with pipes := upd s.pipes a ((s.pipes a).shut side) } a =
      if ((s.pipes a).shut side).flag false = true ∨ ((s.pipes a).shut side).flag true = true then a
      else 0 := by
    rw [pipeAt_eq]
    simp only [upd_same]
  simp only [upd_same]
  cases last : !((s.pipes a).shut side).readopen && !((s.pipes a).shut side).writeopen with
  | true =>
    rw [Act.runIf_true]
    simp only [Bool.and_eq_true, Bool.not_eq_true'] at last
    have gone : Sys.pipeAt { s with pipes := upd s.pipes a ((s.pipes a).shut side) } a = 0 := by
      rw [now, if_neg]
      rintro (rd | wr)
      · exact Bool.false_ne_true (last.1.symm.trans rd)
      · exact Bool.false_ne_true (last.2.symm.trans wr)
    have some_ : (s.view kstack dir).address s.mem.words (.pipe a) ≠ 0 := by
      show s.pipeAt a ≠ 0
      rw [before]
      exact nonzero
    have out := (kept.named some_).1
    have tight := (kept.named some_).2
    have dropped := kept.drop (x := .pipe a)
      (Sys.view { s with pipes := upd s.pipes a ((s.pipes a).shut side) } kstack dir)
      some_ gone (fun y other => ?_) rfl
    · have isA : (s.view kstack dir).address s.mem.words (.pipe a) = a := before
      simp only [isA, Place.order] at dropped out tight
      have live : (a, PT_ORDER) ∈ s.mem.heap.live := (kept.live_iff out).2 real
      obtain ⟨h, freed, kept'⟩ := kfree_spec dropped live (Or.inl rfl)
      rw [Set.insert_sdiff_self_of_notMem tight] at kept'
      rw [vm_done (s := { s with pipes := upd s.pipes a ((s.pipes a).shut side) }) freed]
      exact ⟨kept', ⟨rfl, rfl, rfl, rfl⟩, rfl, rfl, rfl⟩
    · cases y with
      | pipe b => exact others b fun same => other (congrArg Place.pipe same)
      | _ => rfl
  | false =>
    rw [Act.runIf_false]
    have still : Sys.pipeAt { s with pipes := upd s.pipes a ((s.pipes a).shut side) } =
        s.pipeAt := by
      funext b
      by_cases same : b = a
      · subst same
        rw [now, before, if_pos]
        by_contra none_
        rw [not_or, Bool.not_eq_true, Bool.not_eq_true] at none_
        have rd : ((s.pipes b).shut side).readopen = false := none_.1
        have wr : ((s.pipes b).shut side).writeopen = false := none_.2
        rw [rd, wr] at last
        cases last
      · exact others b same
    refine ⟨?_, ⟨rfl, rfl, rfl, rfl⟩, rfl, rfl, rfl⟩
    have sameView : Sys.view { s with pipes := upd s.pipes a ((s.pipes a).shut side) } kstack dir =
        s.view kstack dir := by
      simp only [Sys.view, still]
    rw [sameView]
    exact kept

/-- **`fileclose` gives one reference up.** -/
theorem fileclose_spec (inv : FileInv S kstack dir Q X s) (used : 0 < (s.files i).ref) :
    Sat (sysStops short may) (fun _ s' => FileInv S kstack dir Q (plus X i (-1)) s' ∧ FilesOnly s s' ∧
      ∀ j, j ≠ i → s'.files j = s.files j) (fileclose i s) := by
  unfold fileclose
  refine Sat.step (Act.get_apply s) (Sat.failIf (fun none_ => ?_) fun _ => ?_)
  · have none_ := of_decide_eq_true none_
    omega
  by_cases more : 0 < (s.files i).ref - 1
  · rw [if_pos more]
    have count : (((s.files i).ref - 1 : Nat) : Int) = (s.files i).ref + -1 := by omega
    have refs := inv.refs.setFile (f := { s.files i with ref := (s.files i).ref - 1 }) count
    exact ⟨⟨inv.kept, inv.pipes.recount used more, refs⟩, ⟨rfl, rfl, rfl, rfl⟩,
      fun j ne => upd_ne _ _ ne⟩
  · rw [if_neg more]
    have last : (s.files i).ref = 1 := by omega
    refine Sat.step (setFile_apply ..) ?_
    -- whatever the type was, the count is gone
    have refs : ∀ s', s'.files = upd s.files i { s.files i with ref := 0, type := .none } →
        s'.procs = s.procs → Refs s' (plus X i (-1)) := by
      intro s' files procs
      refine inv.refs.recount files procs ?_
      show ((0 : Nat) : Int) = _
      omega
    have noPipe : (s.files i).type ≠ .pipe → ∀ s',
        s'.files = upd s.files i { s.files i with ref := 0, type := .none } →
        s'.pipes = s.pipes → PipesOk s' := by
      intro other s' files pipes
      refine inv.pipes.close used files fun a writable => ?_
      rw [pipes]
      exact ⟨fun isOpen => ⟨isOpen, fun isEnd => other isEnd.type⟩, fun both => both.1⟩
    cases type : (s.files i).type with
    | none | inode =>
      have other : (s.files i).type ≠ .pipe := by
        rw [type]
        decide
      exact ⟨⟨inv.kept, noPipe other _ rfl rfl, refs _ rfl rfl⟩, ⟨rfl, rfl, rfl, rfl⟩,
        fun j ne => upd_ne _ _ ne⟩
    | pipe =>
      have isEnd : (s.files i).IsEnd (s.files i).pipe (s.files i).writable :=
        ⟨used, type, rfl, rfl⟩
      have isOpen := (inv.pipes.open_iff _ _).2 ⟨i, isEnd⟩
      have real := inv.pipes.real _ _ isOpen
      refine (pipeclose_spec (s := { s with
        files := upd s.files i { s.files i with ref := 0, type := .none } }) inv.kept isOpen
        real).mono fun _ s' post => ?_
      obtain ⟨kept, only, files, -, pipes⟩ := post
      refine ⟨⟨kept, ?_, refs s' files only.procs⟩, ⟨only.procs, only.nextpid, only.modeStack,
        only.words⟩, fun j ne => ?_⟩
      swap
      · rw [files]
        exact upd_ne _ _ ne
      refine inv.pipes.close used files fun a writable => ?_
      rw [pipes]
      by_cases here : a = (s.files i).pipe
      · rw [here, upd_same, flag_shut, Bool.and_eq_true, bne_iff_ne]
        refine and_congr_right fun _ => ⟨fun ne mine => ne mine.side.symm, fun notMine same => ?_⟩
        exact notMine ⟨used, type, rfl, same.symm⟩
      · rw [upd_ne _ _ here]
        exact ⟨fun isOpen => ⟨isOpen, fun mine => here mine.pipe.symm⟩, fun both => both.1⟩

theorem freeFile_eq (found : s.freeFile = some i) : (s.files i).ref = 0 := by
  have := List.find?_some found
  simpa using this

/-- `filealloc` takes a reference to a file structure that had none. -/
theorem filealloc_spec (inv : FileInv S kstack dir Q X s) :
    Sat (sysStops short may) (fun r s' => FilesOnly s s' ∧ s'.pipes = s.pipes ∧ s'.irefs = s.irefs ∧
      match r with
      | none => s' = s
      | some i => FileInv S kstack dir Q (plus X i 1) s' ∧ (s.files i).ref = 0 ∧
          (s'.files i).ref = 1 ∧ (s'.files i).type = .none ∧ ∀ j, j ≠ i → s'.files j = s.files j)
      (filealloc s) := by
  unfold filealloc
  refine Sat.step (Act.get_apply s) ?_
  cases found : s.freeFile with
  | none => exact ⟨FilesOnly.refl s, rfl, rfl, rfl⟩
  | some i =>
    have free : (s.files i).ref = 0 := freeFile_eq found
    have type := inv.pipes.idle i free
    have notPipe : (s.files i).type ≠ .pipe := by
      rw [type]
      decide
    refine ⟨⟨rfl, rfl, rfl, rfl⟩, rfl, rfl, ⟨inv.kept, ?_, ?_⟩, free, ?_, ?_, ?_⟩
    · exact inv.pipes.plain (f := { s.files i with ref := 1 }) notPipe notPipe Nat.one_pos
    · have count : ((1 : Nat) : Int) = (s.files i).ref + 1 := by omega
      exact inv.refs.setFile (f := { s.files i with ref := 1 }) count
    · simp only [upd_same]
    · simp only [upd_same]
      exact type
    · exact fun j ne => upd_ne _ _ ne

/-- Both ends of a pipe are given up again. -/
theorem closeBoth_spec {α : Type} {R : α → Sys → Prop} {f : C α} {f0 f1 : FileId}
    (inv : FileInv S kstack dir Q (plus (plus X f0 1) f1 1) s) (ne : f1 ≠ f0)
    (used0 : 0 < (s.files f0).ref) (used1 : 0 < (s.files f1).ref)
    (next : ∀ s', FileInv S kstack dir Q X s' → FilesOnly s s' → Sat (sysStops short may) R (f s')) :
    Sat (sysStops short may) R ((do fileclose f0; fileclose f1; f : C α) s) := by
  refine (fileclose_spec inv used0).seq fun _ s1 post => ?_
  obtain ⟨inv1, only1, others1⟩ := post
  refine (fileclose_spec inv1 (by rw [others1 f1 ne]; exact used1)).seq fun _ s2 post => ?_
  obtain ⟨inv2, only2, -⟩ := post
  rw [plus_comm, plus_minus, plus_minus] at inv2
  exact next s2 inv2 (only1.trans only2)

/-- Two file structures in use become the ends of a new pipe. -/
theorem PipesOk.create (ok : PipesOk s) {f0 f1 : FileId} {a : Nat} (real : BOOT_END ≤ a)
    (shut : ∀ writable, (s.pipes a).flag writable = false) (ne : f1 ≠ f0)
    (used0 : (s.files f0).ref = 1) (used1 : (s.files f1).ref = 1)
    (type0 : (s.files f0).type = .none) (type1 : (s.files f1).type = .none)
    (pipes : s'.pipes = upd s.pipes a ⟨true, true⟩)
    (end0 : ∀ b writable, (s'.files f0).IsEnd b writable ↔ b = a ∧ writable = false)
    (end1 : ∀ b writable, (s'.files f1).IsEnd b writable ↔ b = a ∧ writable = true)
    (inUse0 : (s'.files f0).ref = 1) (inUse1 : (s'.files f1).ref = 1)
    (others : ∀ j, j ≠ f0 → j ≠ f1 → s'.files j = s.files j) : PipesOk s' := by
  -- nobody had an end of the pipe before
  have notYet : ∀ j writable, ¬ (s.files j).IsEnd a writable := by
    intro j writable isEnd
    have isOpen := (ok.open_iff a writable).2 ⟨j, isEnd⟩
    rw [shut] at isOpen
    cases isOpen
  have notEnd0 : ∀ b writable, ¬ (s.files f0).IsEnd b writable := fun b writable isEnd =>
    absurd (type0.symm.trans isEnd.type) (by decide)
  have notEnd1 : ∀ b writable, ¬ (s.files f1).IsEnd b writable := fun b writable isEnd =>
    absurd (type1.symm.trans isEnd.type) (by decide)
  have old : ∀ j b writable, b ≠ a → ((s'.files j).IsEnd b writable ↔ (s.files j).IsEnd b writable) := by
    intro j b writable other
    by_cases is0 : j = f0
    · subst is0
      exact iff_of_false (fun isEnd => other ((end0 b writable).1 isEnd).1) (notEnd0 b writable)
    · by_cases is1 : j = f1
      · subst is1
        exact iff_of_false (fun isEnd => other ((end1 b writable).1 isEnd).1) (notEnd1 b writable)
      · rw [others j is0 is1]
  have new : ∀ j writable, (s'.files j).IsEnd a writable ↔ j = if writable then f1 else f0 := by
    intro j writable
    by_cases is0 : j = f0
    · subst is0
      rw [end0]
      cases writable with
      | false => simp
      | true => simp [Ne.symm ne]
    · by_cases is1 : j = f1
      · subst is1
        rw [end1]
        cases writable with
        | false => simp [ne]
        | true => simp
      · rw [others j is0 is1]
        refine iff_of_false (notYet j writable) ?_
        cases writable with
        | false => simpa using is0
        | true => simpa using is1
  refine ⟨fun j idle => ?_, fun b writable => ?_, fun j k b writable isEnd isEnd' => ?_,
    fun b writable isOpen => ?_⟩
  · by_cases is0 : j = f0
    · rw [is0, inUse0] at idle
      cases idle
    · by_cases is1 : j = f1
      · rw [is1, inUse1] at idle
        cases idle
      · rw [others j is0 is1] at idle ⊢
        exact ok.idle j idle
  · rw [pipes]
    by_cases same : b = a
    · subst same
      simp only [upd_same, new, exists_eq]
      cases writable <;> exact iff_of_true rfl trivial
    · simp only [upd_ne _ _ same, old _ b writable same]
      exact ok.open_iff b writable
  · by_cases same : b = a
    · subst same
      rw [(new j writable).1 isEnd, (new k writable).1 isEnd']
    · exact ok.once j k b writable ((old j b writable same).1 isEnd) ((old k b writable same).1 isEnd')
  · by_cases same : b = a
    · rw [same]
      exact real
    · rw [pipes, upd_ne _ _ same] at isOpen
      exact ok.real b writable isOpen

/-- **`pipealloc` makes a pipe with both ends open**, or nothing. -/
theorem pipealloc_spec (inv : FileInv S kstack dir Q X s) :
    Sat (sysStops short may) (fun r s' => FilesOnly s s' ∧
      match r with
      | none => FileInv S kstack dir Q X s'
      | some (f0, f1) => FileInv S kstack dir Q (plus (plus X f0 1) f1 1) s' ∧ f1 ≠ f0 ∧
          (s'.files f0).ref = 1 ∧ (s'.files f1).ref = 1) (pipealloc s) := by
  unfold pipealloc
  refine (filealloc_spec inv).seq fun r0 s1 post => ?_
  obtain ⟨only1, -, -, post⟩ := post
  cases r0 with
  | none =>
    obtain rfl : s1 = s := post
    exact ⟨only1, inv⟩
  | some f0 =>
    obtain ⟨inv1, -, used0, type0, -⟩ := post
    refine (filealloc_spec inv1).seq fun r1 s2 post => ?_
    obtain ⟨only2, -, -, post⟩ := post
    cases r1 with
    | none =>
      obtain rfl : s2 = s1 := post
      refine (fileclose_spec inv1 (by omega)).seq fun _ s3 post => ?_
      obtain ⟨inv3, only3, -⟩ := post
      rw [plus_minus] at inv3
      exact ⟨only1.trans only3, inv3⟩
    | some f1 =>
      obtain ⟨inv2, free, used1, type1, others2⟩ := post
      have ne : f1 ≠ f0 := by
        rintro rfl
        omega
      have used0' : (s2.files f0).ref = 1 := by rw [others2 f0 ne.symm, used0]
      have type0' : (s2.files f0).type = .none := by rw [others2 f0 ne.symm, type0]
      have only := only1.trans only2
      rcases kmalloc_cases inv2.kept 4 (by decide) with
        ⟨fails, missed, -⟩ | ⟨mem, h, fails, got, nonzero, real, fresh, kept, -⟩
      · refine Sat.step (vm_done missed) ?_
        rw [if_pos rfl]
        have inv3 : FileInv S kstack dir Q (plus (plus X f0 1) f1 1) { s2 with mem :=
            { s2.mem with fails := fails, misses := (4 + 6) :: s2.mem.misses } } :=
          ⟨inv2.kept.congr rfl rfl rfl rfl, ⟨inv2.pipes.idle, inv2.pipes.open_iff,
            inv2.pipes.once, inv2.pipes.real⟩, inv2.refs⟩
        refine closeBoth_spec inv3 ne (by simp only; omega) (by simp only; omega)
          fun s4 inv4 only4 => ?_
        have missedOnly : FilesOnly s2 { s2 with mem :=
            { s2.mem with fails := fails, misses := (4 + 6) :: s2.mem.misses } } :=
          ⟨rfl, rfl, rfl, rfl⟩
        exact ⟨only.trans (missedOnly.trans only4), inv4⟩
      · refine Sat.step (vm_done got) ?_
        rw [if_neg nonzero]
        refine Sat.step (Act.modify_apply ..) (Sat.step (setFile_apply ..)
          (Sat.step (setFile_apply ..) ?_))
        have shut : ∀ writable, (s2.pipes mem).flag writable = false := by
          intro writable
          by_contra isOpen
          have here : (s2.view kstack dir).address s2.mem.words (.pipe mem) = mem :=
            pipeAt_of_flag (Bool.not_eq_false _ ▸ isOpen)
          have out := (inv2.kept.named (x := .pipe mem) (by rw [here]; exact nonzero)).1
          rw [here] at out
          exact fresh out
        have pipeAt : Sys.pipeAt { s2 with pipes := upd s2.pipes mem ⟨true, true⟩ } =
            upd s2.pipeAt mem mem := by
          funext b
          by_cases same : b = mem
          · subst same
            simp [Sys.pipeAt]
          · simp [Sys.pipeAt, same]
        refine ⟨only.trans ⟨rfl, rfl, rfl, rfl⟩, ⟨?_, ?_, ?_⟩, ne, ?_, ?_⟩
        · refine inv2.kept.assignFresh (x := .pipe mem) fresh kept _ ?_
            ((congrFun pipeAt mem).trans (upd_same _ _ _)) (fun y other => ?_) rfl
          · show s2.pipeAt mem = 0
            rw [pipeAt_eq, shut, shut]
            rfl
          · cases y with
            | pipe b =>
              have ne : b ≠ mem := fun same => other (congrArg Place.pipe same)
              exact (congrFun pipeAt b).trans (upd_ne _ _ ne)
            | _ => rfl
        · refine inv2.pipes.create real shut ne used0' used1 type0' type1 rfl ?_ ?_ ?_ ?_ ?_
          · intro b writable
            simp only [upd_ne _ _ ne.symm, upd_same]
            constructor
            · exact fun isEnd => ⟨isEnd.pipe.symm, isEnd.side.symm⟩
            · exact fun both => ⟨by simp only; omega, rfl, both.1.symm, both.2.symm⟩
          · intro b writable
            simp only [upd_same]
            constructor
            · exact fun isEnd => ⟨isEnd.pipe.symm, isEnd.side.symm⟩
            · refine fun both => ⟨?_, rfl, both.1.symm, both.2.symm⟩
              simp only [upd_ne _ _ ne]
              omega
          · simp only [upd_ne _ _ ne.symm, upd_same]
            exact used0'
          · simp only [upd_same, upd_ne _ _ ne]
            exact used1
          · intro j is0 is1
            simp only [upd_ne _ _ is1, upd_ne _ _ is0]
        · intro j
          refine Eq.trans ?_ (inv2.refs j)
          by_cases is1 : j = f1
          · simp only [is1, upd_same, upd_ne _ _ ne]
          · by_cases is0 : j = f0
            · simp only [is0, upd_ne _ _ ne.symm, upd_same]
            · simp only [upd_ne _ _ is1, upd_ne _ _ is0]
        · simp only [upd_ne _ _ ne.symm, upd_same]
          exact used0'
        · simp only [upd_same, upd_ne _ _ ne]
          exact used1

/-! ## Descriptors -/

theorem fds_setFd (p : Pid) (fd : Fin NOFILE) (f : Option FileId) {s' : Sys}
    (procs : s'.procs = upd s.procs p { s.procs p with ofile := upd (s.procs p).ofile fd f }) :
    s'.fds = Function.update s.fds (p, fd) f := by
  funext x
  obtain ⟨q, g⟩ := x
  simp only [Sys.fds, procs]
  by_cases sameProc : q = p
  · subst sameProc
    by_cases sameFd : g = fd
    · subst sameFd
      simp
    · simp [Sys.fds, sameFd]
  · have other : (q, g) ≠ (p, fd) := fun same => sameProc (Prod.mk.inj same).1
    rw [upd_ne _ _ sameProc, Function.update_of_ne other]
    rfl

/-- An empty descriptor is set, which accounts for a reference. -/
theorem Refs.setFd (refs : Refs s X) {p : Pid} {fd : Fin NOFILE} (empty : (s.procs p).ofile fd = none)
    (procs : s'.procs = upd s.procs p { s.procs p with ofile := upd (s.procs p).ofile fd (some i) })
    (files : ∀ j, (s'.files j).ref = (s.files j).ref) : Refs s' (plus X i (-1)) := by
  intro j
  have isEmpty : s.fds (p, fd) = none := empty
  have before := refs j
  rw [files, fds_setFd p fd (some i) procs, refCount_set isEmpty]
  simp only [plus]
  split <;> omega

/-- A descriptor is cleared, which leaves a reference to account for. -/
theorem Refs.clearFd (refs : Refs s X) {p : Pid} {fd : Fin NOFILE}
    (isSet : (s.procs p).ofile fd = some i)
    (procs : s'.procs = upd s.procs p { s.procs p with ofile := upd (s.procs p).ofile fd none })
    (files : ∀ j, (s'.files j).ref = (s.files j).ref) : Refs s' (plus X i 1) := by
  intro j
  have points : s.fds (p, fd) = some i := isSet
  have before := refs j
  have count := refCount_clear points j
  rw [files, fds_setFd p fd none procs]
  by_cases same : j = i
  · simp only [same, if_true, plus] at count before ⊢
    omega
  · simp only [same, if_false, plus] at count ⊢
    omega

/-- Nothing but files, pipes and the descriptors of `p` changes. -/
structure CallOnly (p : Pid) (s s' : Sys) : Prop where
  others : ∀ q, q ≠ p → s'.procs q = s.procs q
  mine : ∃ o, s'.procs p = { s.procs p with ofile := o }
  nextpid : s'.nextpid = s.nextpid
  modeStack : s'.modeStack = s.modeStack
  words : s'.mem.words = s.mem.words

theorem FilesOnly.call (only : FilesOnly s s') (p : Pid) : CallOnly p s s' :=
  ⟨fun q _ => congrFun only.procs q, ⟨(s.procs p).ofile, congrFun only.procs p⟩, only.nextpid,
    only.modeStack, only.words⟩

theorem CallOnly.trans {p : Pid} {s'' : Sys} (first : CallOnly p s s') (second : CallOnly p s' s'') :
    CallOnly p s s'' where
  others q ne := (second.others q ne).trans (first.others q ne)
  mine := by
    obtain ⟨o, mine⟩ := first.mine
    obtain ⟨o', mine'⟩ := second.mine
    exact ⟨o', by rw [mine', mine]⟩
  nextpid := second.nextpid.trans first.nextpid
  modeStack := second.modeStack.trans first.modeStack
  words := second.words.trans first.words

theorem CallOnly.setFd (p : Pid) (fd : Fin NOFILE) (f : Option FileId) (s : Sys) : CallOnly p s
    { s with procs := upd s.procs p { s.procs p with ofile := upd (s.procs p).ofile fd f } } :=
  ⟨fun _ ne => upd_ne _ _ ne, ⟨_, upd_same _ _ _⟩, rfl, rfl, rfl⟩

/-- A new descriptor, for a reference that has been taken. -/
theorem FileInv.setFd (inv : FileInv S kstack dir Q X s) {p : Pid} {fd : Fin NOFILE}
    (empty : (s.procs p).ofile fd = none) (i : FileId) :
    FileInv S kstack dir Q (plus X i (-1))
      { s with procs := upd s.procs p { s.procs p with ofile := upd (s.procs p).ofile fd (some i) } } := by
  refine ⟨inv.kept, ⟨inv.pipes.idle, inv.pipes.open_iff, inv.pipes.once, inv.pipes.real⟩, ?_⟩
  refine inv.refs.setFd empty ?_ ?_
  · rfl
  · exact fun _ => rfl

/-- A descriptor that is cleared leaves its reference. -/
theorem FileInv.clearFd (inv : FileInv S kstack dir Q X s) {p : Pid} {fd : Fin NOFILE}
    (isSet : (s.procs p).ofile fd = some i) :
    FileInv S kstack dir Q (plus X i 1)
      { s with procs := upd s.procs p { s.procs p with ofile := upd (s.procs p).ofile fd none } } := by
  refine ⟨inv.kept, ⟨inv.pipes.idle, inv.pipes.open_iff, inv.pipes.once, inv.pipes.real⟩, ?_⟩
  refine inv.refs.clearFd isSet ?_ ?_
  · rfl
  · exact fun _ => rfl

theorem freeFd_eq {e : VmProc} {fd : Fin NOFILE} (found : e.freeFd = some fd) : e.ofile fd = none := by
  have := List.find?_some found
  simpa using this

/-- `fdalloc` accounts for a reference, or there is no descriptor left. -/
theorem fdalloc_spec (inv : FileInv S kstack dir Q X s) (p : Pid) (i : FileId) :
    Sat (sysStops short may) (fun r s' => CallOnly p s s' ∧ s'.files = s.files ∧
      match r with
      | none => s' = s
      | some fd => FileInv S kstack dir Q (plus X i (-1)) s' ∧ (s'.procs p).ofile fd = some i)
      (fdalloc p i s) := by
  unfold fdalloc
  refine Sat.step (Act.get_apply s) ?_
  cases found : (s.procs p).freeFd with
  | none => exact ⟨(FilesOnly.refl s).call p, rfl, rfl⟩
  | some fd =>
    refine ⟨CallOnly.setFd p fd (some i) s, rfl, inv.setFd (freeFd_eq found) i, ?_⟩
    simp only [upd_same]

/-- **`sys_pipe`** leaves exact counts. -/
theorem sysPipe_spec (inv : FileInv S kstack dir Q X s) (p : Pid) :
    Sat (sysStops short may) (fun _ s' => FileInv S kstack dir Q X s' ∧ CallOnly p s s')
      (sysPipe p s) := by
  unfold sysPipe
  refine (pipealloc_spec inv).seq fun r s1 post => ?_
  obtain ⟨only1, post⟩ := post
  cases r with
  | none => exact ⟨post, only1.call p⟩
  | some ends =>
    obtain ⟨rf, wf⟩ := ends
    obtain ⟨inv1, ne, used0, used1⟩ := post
    -- giving both ends up again
    have undo : ∀ s2, FileInv S kstack dir Q (plus (plus X rf 1) wf 1) s2 →
        s2.files = s1.files → CallOnly p s s2 →
        Sat (sysStops short may) (fun _ s' => FileInv S kstack dir Q X s' ∧ CallOnly p s s')
          ((do fileclose rf; fileclose wf; failed : C Int) s2) := by
      intro s2 inv2 files only2
      exact closeBoth_spec inv2 ne (by rw [files]; omega) (by rw [files]; omega)
        fun s3 inv3 only3 => ⟨inv3, only2.trans (only3.call p)⟩
    refine (fdalloc_spec inv1 p rf).seq fun r0 s2 post => ?_
    obtain ⟨only2, files2, post⟩ := post
    cases r0 with
    | none =>
      obtain rfl : s2 = s1 := post
      exact undo s2 inv1 rfl (only1.call p)
    | some fd0 =>
      obtain ⟨inv2, isSet⟩ := post
      refine (fdalloc_spec inv2 p wf).seq fun r1 s3 post => ?_
      obtain ⟨only3, files3, post⟩ := post
      cases r1 with
      | none =>
        obtain rfl : s3 = s2 := post
        refine Sat.step (setProc_apply ..) ?_
        have inv3 := inv2.clearFd isSet
        rw [minus_plus] at inv3
        exact undo _ inv3 files2 ((only1.call p).trans (only2.trans (CallOnly.setFd p fd0 none s3)))
      | some fd1 =>
        obtain ⟨inv3, -⟩ := post
        rw [plus_comm, plus_minus, plus_minus] at inv3
        exact ⟨inv3, (only1.call p).trans (only2.trans only3)⟩

/-- What a descriptor points to is in use. -/
theorem FileInv.used (inv : FileInv S kstack dir Q (fun _ => 0) s) {p : Pid} {fd : Fin NOFILE}
    (isSet : (s.procs p).ofile fd = some i) : 0 < (s.files i).ref := by
  have points : s.fds (p, fd) = some i := isSet
  have count := inv.refs i
  have := refCount_pos points
  omega

theorem sysClose_spec (inv : FileInv S kstack dir Q (fun _ => 0) s) {p : Pid} {fd : Fin NOFILE}
    (isSet : (s.procs p).ofile fd = some i) :
    Sat (sysStops short may) (fun _ s' => FileInv S kstack dir Q (fun _ => 0) s' ∧ CallOnly p s s')
      (sysClose p fd i s) := by
  unfold sysClose
  refine Sat.step (setProc_apply ..) ?_
  have inv1 := inv.clearFd isSet
  refine (fileclose_spec inv1 (inv.used isSet)).seq fun _ s2 post => ?_
  obtain ⟨inv2, only2, -⟩ := post
  rw [plus_minus] at inv2
  exact ⟨inv2, (CallOnly.setFd p fd none s).trans (only2.call p)⟩

/-- One reference more, to a file structure in use. -/
theorem filedup_spec (inv : FileInv S kstack dir Q X s) (used : 0 < (s.files i).ref) :
    Sat (sysStops short may) (fun _ s' => FileInv S kstack dir Q (plus X i 1) s' ∧ FilesOnly s s' ∧
      s'.mem = s.mem ∧ s'.irefs = s.irefs) (filedup i s) := by
  unfold filedup
  refine Sat.step (Act.get_apply s) (Sat.failIf (fun none_ => ?_) fun _ => ?_)
  · have none_ := of_decide_eq_true none_
    omega
  · refine ⟨⟨inv.kept, inv.pipes.recount used (Nat.succ_pos _), ?_⟩, ⟨rfl, rfl, rfl, rfl⟩, rfl, rfl⟩
    refine inv.refs.setFile (f := { s.files i with ref := (s.files i).ref + 1 }) ?_
    push_cast
    rfl

theorem sysDup_spec (inv : FileInv S kstack dir Q (fun _ => 0) s) {p : Pid}
    (used : 0 < (s.files i).ref) :
    Sat (sysStops short may) (fun _ s' => FileInv S kstack dir Q (fun _ => 0) s' ∧ CallOnly p s s')
      (sysDup p i s) := by
  unfold sysDup
  refine (fdalloc_spec inv p i).seq fun r s1 post => ?_
  obtain ⟨only1, files1, post⟩ := post
  cases r with
  | none =>
    obtain rfl : s1 = s := post
    exact ⟨inv, only1⟩
  | some fd =>
    obtain ⟨inv1, -⟩ := post
    refine (filedup_spec (i := i) inv1 (by rw [files1]; exact used)).seq fun _ s2 post => ?_
    obtain ⟨inv2, only2, -⟩ := post
    rw [minus_plus] at inv2
    exact ⟨inv2, only1.trans (only2.call p)⟩

/-- References to inodes are nothing to files and pipes. -/
theorem FileInv.irefs (inv : FileInv S kstack dir Q X s) (f : Nat → Nat) :
    FileInv S kstack dir Q X { s with irefs := f } :=
  ⟨inv.kept, ⟨inv.pipes.idle, inv.pipes.open_iff, inv.pipes.once, inv.pipes.real⟩, inv.refs⟩

theorem FilesOnly.irefs (s : Sys) (f : Nat → Nat) : FilesOnly s { s with irefs := f } :=
  ⟨rfl, rfl, rfl, rfl⟩

theorem sysOpen_spec (inv : FileInv S kstack dir Q (fun _ => 0) s) (p : Pid) (ip : Nat)
    (writable : Bool) :
    Sat (sysStops short may) (fun _ s' => FileInv S kstack dir Q (fun _ => 0) s' ∧ CallOnly p s s')
      (sysOpen p ip writable s) := by
  unfold sysOpen
  refine Sat.step (Act.modify_apply ..) ?_
  refine (filealloc_spec (inv.irefs _)).seq fun r s1 post => ?_
  obtain ⟨only1, -, -, post⟩ := post
  have only1 := (FilesOnly.irefs s _).trans only1
  cases r with
  | none =>
    subst post
    exact ⟨(inv.irefs _).irefs _, (only1.trans (FilesOnly.irefs _ _)).call p⟩
  | some i =>
    obtain ⟨inv1, -, used, type, -⟩ := post
    refine (fdalloc_spec inv1 p i).seq fun r1 s2 post => ?_
    obtain ⟨only2, files2, post⟩ := post
    cases r1 with
    | none =>
      obtain rfl : s2 = s1 := post
      refine (fileclose_spec inv1 (by omega)).seq fun _ s3 post => ?_
      obtain ⟨inv3, only3, -⟩ := post
      rw [plus_minus] at inv3
      exact ⟨inv3.irefs _, ((only1.trans only3).trans (FilesOnly.irefs _ _)).call p⟩
    | some fd =>
      obtain ⟨inv2, -⟩ := post
      rw [plus_minus] at inv2
      have used2 : (s2.files i).ref = 1 := by rw [files2, used]
      have type2 : (s2.files i).type = .none := by rw [files2, type]
      have notPipe : (s2.files i).type ≠ .pipe := by
        rw [type2]
        decide
      refine Sat.step (setFile_apply ..) ?_
      have only3 := (FilesOnly.setFile s2 i
        { s2.files i with type := .inode, ip := ip, writable := writable }).call p
      refine ⟨⟨inv2.kept, ?_, ?_⟩, (only1.call p).trans (only2.trans only3)⟩
      · have after : FdType.inode ≠ FdType.pipe := by decide
        refine inv2.pipes.plain notPipe after ?_
        show 0 < (s2.files i).ref
        omega
      · have refs := inv2.refs.setFile (i := i) (n := 0)
          (f := { s2.files i with type := .inode, ip := ip, writable := writable })
          (Int.add_zero _).symm
        rw [plus_zero] at refs
        exact refs

end Files

end Xv6Rpi.Proc.Vm
