/-
# Proc.VmProcs -- the memory of processes

`Sys.Inv` is what holds between system calls: the outstanding blocks are those of the
processes, pipes and boot-time stacks, each of one place; every process has an address
space of its size; the counts of open files are exact.  Here are the specifications of
the calls of `proc.c`: what `fork` and `sbrk` can come to (`Forked`, `Sbrked`), whatever
allocations fail in them, and that `exit` and `wait` keep the invariant.
-/
import Xv6Rpi.Proc.VmFiles

namespace Xv6Rpi.Proc.Vm

open Theory
open Kernel (Client Pid FileId NOFILE NPROC upd upd_same upd_ne)

set_option autoImplicit false

variable {short : Prop} {may : VmPanic → Prop}

namespace Sys

/-- The kernel stacks in use. -/
def kstackOf (s : Sys) : Pid → Nat := fun p =>
  if (s.procs p).state = .unused then 0 else (s.procs p).kstack

/-- The directories in use. -/
def dirOf (s : Sys) : Root → Nat
  | none => 0
  | some p => if (s.procs p).state = .unused then 0 else (s.procs p).pgdir

/-- Who has which memory. -/
abbrev owners (s : Sys) : View := s.view s.kstackOf s.dirOf

end Sys

/-- A slot of the process table, with the contents of page tables and the next pid. -/
structure ProcOk (w : Words) (nextpid : Int) (e : VmProc) : Prop where
  kstack : e.state ≠ .unused → e.kstack ≠ 0
  pgdir : e.state ≠ .unused → e.pgdir ≠ 0
  small : e.state ≠ .unused → e.sz < UADDR_SZ
  space : e.state ≠ .unused → Space w e.pgdir e.sz
  closed : e.state ≠ .runnable → ∀ fd, e.ofile fd = none
  cwd : e.state = .runnable → e.cwd ≠ none
  pid : e.pid < nextpid

/-- What holds between system calls. -/
structure Sys.Inv (S : Setup) (s : Sys) : Prop where
  files : FileInv S s.kstackOf s.dirOf ∅ (fun _ => 0) s
  procs : ∀ p, ProcOk s.mem.words s.nextpid (s.procs p)
  positive : 0 < s.nextpid
  booted : ∀ i, s.modeStack i ≠ 0

section Calls

variable {S : Setup} {s s' : Sys} {p : Pid}

theorem dirOf_some (used : (s.procs p).state ≠ .unused) : s.dirOf (some p) = (s.procs p).pgdir :=
  if_neg used

theorem owners_dir (used : (s.procs p).state ≠ .unused) : s.owners.dir (some p) = (s.procs p).pgdir :=
  dirOf_some used

theorem kstackOf_eq (used : (s.procs p).state ≠ .unused) : s.kstackOf p = (s.procs p).kstack :=
  if_neg used

theorem used_of_runnable (running : (s.procs p).state = .runnable) : (s.procs p).state ≠ .unused := by
  rw [running]
  decide

/-- The views follow the one slot that changes. -/
theorem kstackOf_update (others : ∀ q, q ≠ p → s'.procs q = s.procs q) :
    s'.kstackOf = upd s.kstackOf p (s'.kstackOf p) := by
  funext q
  by_cases same : q = p
  · rw [same, upd_same]
  · rw [upd_ne _ _ same]
    simp only [Sys.kstackOf, others q same]

theorem dirOf_update (others : ∀ q, q ≠ p → s'.procs q = s.procs q) :
    s'.dirOf = upd s.dirOf (some p) (s'.dirOf (some p)) := by
  funext r
  by_cases same : r = some p
  · rw [same, upd_same]
  · rw [upd_ne _ _ same]
    cases r with
    | none => rfl
    | some q =>
      have ne : q ≠ p := fun eq => same (congrArg some eq)
      simp only [Sys.dirOf, others q ne]

/-- One slot changes; the others keep their address spaces. -/
theorem Sys.Inv.update (inv : s.Inv S) (others : ∀ q, q ≠ p → s'.procs q = s.procs q)
    (files : FileInv S s'.kstackOf s'.dirOf ∅ (fun _ => 0) s')
    (apart : Apart s.owners (some p) s.mem.words s'.mem.words)
    (nextpid : s.nextpid ≤ s'.nextpid) (modeStack : s'.modeStack = s.modeStack)
    (slot : ProcOk s'.mem.words s'.nextpid (s'.procs p)) : s'.Inv S := by
  refine ⟨files, fun q => ?_, lt_of_lt_of_le inv.positive nextpid, modeStack ▸ inv.booted⟩
  by_cases same : q = p
  · rw [same]
    exact slot
  · have ok := inv.procs q
    rw [others q same]
    refine ⟨ok.kstack, ok.pgdir, ok.small, fun used => ?_, ok.closed, ok.cwd,
      lt_of_lt_of_le ok.pid nextpid⟩
    have old := ok.space used
    rw [← dirOf_some used] at old ⊢
    have ne : (some q : Root) ≠ some p := fun eq => same (Option.some.inj eq)
    exact Space.apart (G := s.owners) old apart ne

/-- The slot that changes keeps its kernel stack and its directory. -/
theorem Sys.Inv.retain (inv : s.Inv S) {e : VmProc} (others : ∀ q, q ≠ p → s'.procs q = s.procs q)
    (slot : s'.procs p = e) (used : (s.procs p).state ≠ .unused) (used' : e.state ≠ .unused)
    (kstack : e.kstack = (s.procs p).kstack) (pgdir : e.pgdir = (s.procs p).pgdir)
    (files : FileInv S s.kstackOf s.dirOf ∅ (fun _ => 0) s')
    (apart : Apart s.owners (some p) s.mem.words s'.mem.words)
    (nextpid : s.nextpid ≤ s'.nextpid) (modeStack : s'.modeStack = s.modeStack)
    (ok : ProcOk s'.mem.words s'.nextpid e) : s'.Inv S := by
  subst slot
  have sameStacks : s'.kstackOf = s.kstackOf := by
    rw [kstackOf_update others, kstackOf_eq used', kstack, ← kstackOf_eq used, Kernel.upd_eq_self]
  have sameDirs : s'.dirOf = s.dirOf := by
    rw [dirOf_update others, dirOf_some used', pgdir, ← dirOf_some used, Kernel.upd_eq_self]
  exact inv.update others (sameStacks ▸ sameDirs ▸ files) apart nextpid modeStack ok

/-- Calls that only touch files, pipes and descriptors. -/
theorem Sys.Inv.callOnly (inv : s.Inv S) (running : (s.procs p).state = .runnable)
    (only : CallOnly p s s') (files : FileInv S s.kstackOf s.dirOf ∅ (fun _ => 0) s') : s'.Inv S := by
  obtain ⟨o, mine⟩ := only.mine
  have used := used_of_runnable running
  have ok := inv.procs p
  refine inv.retain only.others mine used used rfl rfl files (only.words ▸ Apart.refl ..)
    only.nextpid.ge only.modeStack ?_
  rw [only.words, only.nextpid]
  exact ⟨ok.kstack, ok.pgdir, ok.small, ok.space, fun idle => absurd running idle, ok.cwd, ok.pid⟩

/-! ## Leaving everything as it was -/

/-- As before a call of `p` that failed: page tables may have been linked in its directory. -/
structure Sys.Same (p : Pid) (s s' : Sys) : Prop where
  procs : s'.procs = s.procs
  files : s'.files = s.files
  irefs : s'.irefs = s.irefs
  pages : ∀ k, entry s'.mem.words (s.procs p).pgdir k = entry s.mem.words (s.procs p).pgdir k
  bytes : Undisturbed s.owners s.mem s'.mem
  memory : ∀ b, b ∈ s'.mem.outstanding ↔ b ∈ s.mem.outstanding ∨
    ∃ i, b = (tableAt s'.mem.words (s.procs p).pgdir i, PT_ORDER) ∧
      tableAt s'.mem.words (s.procs p).pgdir i ≠ 0 ∧ tableAt s.mem.words (s.procs p).pgdir i = 0

/-- An edit that keeps the entries keeps all blocks, but for new page tables. -/
theorem Edit.block {G : View} {r : Root} {w w' : Words}
    (edit : Edit G r (entry w (G.dir r)) w w') (x : Place) :
    G.block w' x = G.block w x ∨ ∃ i, x = .table r i ∧ tableAt w (G.dir r) i = 0 := by
  cases x with
  | table r' i =>
    by_cases same : r' = r
    · subst same
      by_cases none_ : tableAt w (G.dir r') i = 0
      · exact Or.inr ⟨i, rfl, none_⟩
      · exact Or.inl (View.block_congr (edit.tables i none_))
    · exact Or.inl (View.block_congr (edit.apart.tables r' same i))
  | page r' k =>
    have entries : entry w' (G.dir r') k = entry w (G.dir r') k := by
      by_cases same : r' = r
      · subst same
        exact edit.mine k
      · exact edit.apart.entries r' same k
    refine Or.inl (View.block_congr ?_)
    simp only [View.address, pageAt, entries]
  | _ => exact Or.inl rfl

/-- What is outstanding follows from what is in use. -/
theorem Kept.outstanding_edit {G : View} {r : Root} {m m' : VMem} (kept : Kept S G ∅ m)
    (kept' : Kept S G ∅ m') (edit : Edit G r (entry m.words (G.dir r)) m.words m'.words)
    (b : Nat × Nat) :
    b ∈ m'.outstanding ↔ b ∈ m.outstanding ∨ ∃ i, b = (tableAt m'.words (G.dir r) i, PT_ORDER) ∧
      tableAt m'.words (G.dir r) i ≠ 0 ∧ tableAt m.words (G.dir r) i = 0 := by
  constructor
  · intro out
    obtain ⟨x, rfl⟩ := (kept'.owns.onto b out).resolve_left id
    have nonzero := kept'.owns.nonzero _ out
    rcases edit.block x with same | ⟨i, rfl, none_⟩
    · rw [same] at nonzero ⊢
      exact Or.inl (kept.owns.named x nonzero).1
    · have there : G.address m'.words (.table r i) ≠ 0 := fun isZero =>
        nonzero (View.block_eq_zero_iff.2 isZero)
      exact Or.inr ⟨i, View.block_of_ne there, there, none_⟩
  · rintro (out | ⟨i, rfl, there, -⟩)
    · obtain ⟨x, rfl⟩ := (kept.owns.onto b out).resolve_left id
      have nonzero := kept.owns.nonzero _ out
      rcases edit.block x with same | ⟨i, rfl, none_⟩
      · rw [← same] at nonzero ⊢
        exact (kept'.owns.named x nonzero).1
      · have isZero : G.address m.words (.table r i) = 0 := none_
        exact absurd (View.block_eq_zero_iff.2 isZero) nonzero
    · exact (kept'.named (x := .table r i) there).1

/-- Nothing but memory has changed, and the address space of `p` has kept its entries. -/
theorem Sys.Inv.same (inv : s.Inv S) (used : (s.procs p).state ≠ .unused) {m : VMem}
    (kept : Kept S s.owners ∅ m)
    (edit : Edit s.owners (some p) (entry s.mem.words (s.procs p).pgdir)
      s.mem.words m.words) (bytes : Undisturbed s.owners s.mem m) :
    s.Same p { s with mem := m } := by
  have isDir := owners_dir used
  have memory := inv.files.kept.outstanding_edit kept (isDir ▸ edit)
  rw [isDir] at memory
  exact ⟨rfl, rfl, rfl, fun k => isDir ▸ edit.mine k, bytes, memory⟩

/-! ## Processes -/

/-- A change of processes and memory that leaves the descriptors. -/
theorem FileInv.reproc {kstack kstack' : Pid → Nat} {dir dir' : Root → Nat}
    {Q Q' : Set (Nat × Nat)} {X : FileId → Int} (inv : FileInv S kstack dir Q X s) {m : VMem}
    (kept : Kept S ⟨s.modeStack, kstack', s.pipeAt, dir'⟩ Q' m) (procs : Pid → VmProc)
    (ofile : ∀ q, (procs q).ofile = (s.procs q).ofile) (n : Int) (f : Nat → Nat) :
    FileInv S kstack' dir' Q' X { s with mem := m, procs := procs, nextpid := n, irefs := f } := by
  refine ⟨kept, ⟨inv.pipes.idle, inv.pipes.open_iff, inv.pipes.once, inv.pipes.real⟩, ?_⟩
  have fds : Sys.fds { s with mem := m, procs := procs, nextpid := n, irefs := f } = s.fds := by
    funext x
    exact congrFun (ofile x.1) x.2
  intro i
  rw [fds]
  exact inv.refs i

theorem ofile_upd {np : Pid} {e : VmProc} (same : e.ofile = (s.procs np).ofile) (q : Pid) :
    (upd s.procs np e q).ofile = (s.procs q).ofile := by
  by_cases here : q = np
  · rw [here, upd_same, same]
  · rw [upd_ne _ _ here]

theorem FileInv.reslot {kstack kstack' : Pid → Nat} {dir dir' : Root → Nat}
    {Q Q' : Set (Nat × Nat)} {X : FileId → Int} (inv : FileInv S kstack dir Q X s) {m : VMem}
    (kept : Kept S ⟨s.modeStack, kstack', s.pipeAt, dir'⟩ Q' m) {np : Pid} {e : VmProc}
    (same : e.ofile = (s.procs np).ofile) (n : Int) (f : Nat → Nat) :
    FileInv S kstack' dir' Q' X { s with mem := m, procs := upd s.procs np e, nextpid := n, irefs := f } :=
  inv.reproc kept _ (ofile_upd same) n f

theorem unusedSlot_eq (found : s.unusedSlot = some p) : (s.procs p).state = .unused := by
  have := List.find?_some found
  simpa using this

/-- What is left in a slot for which there was no memory. -/
def Sys.abandoned (s : Sys) (np : Pid) (d : Nat) (m : VMem) : Sys :=
  { s with
    procs := upd s.procs np
      { s.procs np with state := .unused, pid := s.nextpid, kstack := 0, pgdir := d }
    nextpid := s.nextpid + 1
    mem := m }

/-- A slot with a pid and a kernel stack. -/
def Sys.embryonic (s : Sys) (np : Pid) (k : Nat) (m : VMem) : Sys :=
  { s with
    procs := upd s.procs np { s.procs np with state := .embryo, pid := s.nextpid, kstack := k }
    nextpid := s.nextpid + 1
    mem := m }

/-- **`allocproc` gives a slot a kernel stack**, or leaves it unused. -/
theorem allocproc_spec {kstack : Pid → Nat} {dir : Root → Nat} {Q : Set (Nat × Nat)}
    {X : FileId → Int} (inv : FileInv S kstack dir Q X s)
    (idle : ∀ q, (s.procs q).state = .unused → kstack q = 0) :
    Sat (sysStops short may) (fun r s' =>
      match r with
      | none => s.unusedSlot = none ∧ s' = s ∨
          ∃ np m, (s.procs np).state = .unused ∧ s' = s.abandoned np (s.procs np).pgdir m ∧
            s.mem.supply.give .page = none ∧ m.words = s.mem.words ∧
            FileInv S kstack dir Q X s'
      | some np => ∃ k m, (s.procs np).state = .unused ∧ k ≠ 0 ∧ s' = s.embryonic np k m ∧
            s.mem.supply.give .page = some m.supply ∧ m.words = s.mem.words ∧
            FileInv S (upd kstack np k) dir Q X s') (allocproc s) := by
  unfold allocproc
  refine Sat.step (Act.get_apply s) ?_
  cases found : s.unusedSlot with
  | none => exact Or.inl ⟨rfl, rfl⟩
  | some np =>
    have unused := unusedSlot_eq found
    refine Sat.step (setProc_apply ..) (Sat.step (Act.modify_apply ..) ?_)
    rcases kmalloc_cases inv.kept 6 le_rfl with
      ⟨fails, missed, refused⟩ | ⟨k, h, fails, got, nonzero, -, fresh, kept, served⟩
    · have missed : allocPage s.mem = _ := missed
      refine Sat.step (vm_done missed) (Sat.step (setProc_apply ..) ?_)
      rw [if_pos rfl]
      refine Sat.step (setProc_apply ..) (Or.inr ⟨np,
        { s.mem with fails := fails, misses := (6 + 6) :: s.mem.misses }, unused, ?_, refused, rfl, ?_⟩)
      · simp [Sys.abandoned, Kernel.upd_idem]
      · have kept : Kept S (s.view kstack dir) Q
            { s.mem with fails := fails, misses := (6 + 6) :: s.mem.misses } :=
          inv.kept.congr rfl rfl rfl rfl
        simp only [Kernel.upd_idem]
        exact inv.reslot kept (by simp) _ _
    · have got : allocPage s.mem = _ := got
      refine Sat.step (vm_done got) (Sat.step (setProc_apply ..) ?_)
      rw [if_neg nonzero]
      refine ⟨k, { s.mem with heap := h, fails := fails }, unused, nonzero, ?_, served, rfl, ?_⟩
      · simp [Sys.embryonic, Kernel.upd_idem]
      · have assigned := inv.kept.assignFresh (x := .kstack np) fresh kept
          ⟨s.modeStack, upd kstack np k, s.pipeAt, dir⟩ (idle np unused) (upd_same _ _ _)
          (fun y other => ?_) rfl
        · simp only [Kernel.upd_idem]
          exact inv.reslot assigned (by simp) _ _
        · cases y with
          | kstack q => exact upd_ne _ _ fun same => other (congrArg Place.kstack same)
          | _ => rfl

/-- Freeing a kernel stack. -/
theorem freeKstack_spec {modeStack : Fin 4 → Nat} {kstack : Pid → Nat} {pipe : Nat → Nat}
    {dir : Root → Nat} {Q : Set (Nat × Nat)} {m : VMem} {k : Nat}
    (kept : Kept S ⟨modeStack, kstack, pipe, dir⟩ Q m) (isKstack : kstack p = k) (nonzero : k ≠ 0) :
    Sat (vmStops short may) (fun _ m' => Kept S ⟨modeStack, upd kstack p 0, pipe, dir⟩ Q m' ∧
      m'.words = m.words ∧ m'.misses = m.misses) (freePage k m) := by
  subst isKstack
  obtain ⟨out, tight⟩ := kept.named (x := .kstack p) nonzero
  have dropped := kept.drop (x := .kstack p) ⟨modeStack, upd kstack p 0, pipe, dir⟩ nonzero
    (upd_same _ _ _) (fun y other => ?_) rfl
  · obtain ⟨h, freed, kept'⟩ := kfree_spec dropped (Kept.live_of_page out rfl) (Or.inl rfl)
    rw [Set.insert_sdiff_self_of_notMem tight] at kept'
    have freed : freePage (kstack p) m = .done () { m with heap := h } := freed
    rw [freed]
    exact ⟨kept', rfl, rfl⟩
  · cases y with
    | kstack q => exact upd_ne _ _ fun same => other (congrArg Place.kstack same)
    | _ => rfl

/-- The child gets the parent's open files. -/
theorem dupFiles_spec {kstack : Pid → Nat} {dir : Root → Nat} {Q : Set (Nat × Nat)} {np : Pid}
    (inv : FileInv S kstack dir Q (fun _ => 0) s)
    (empty : ∀ fd, (s.procs np).ofile fd = none) :
    Sat (sysStops short may) (fun _ s' => FileInv S kstack dir Q (fun _ => 0) s' ∧ CallOnly np s s' ∧
      s'.mem = s.mem ∧ s'.irefs = s.irefs) (dupFiles p np s) := by
  unfold dupFiles
  refine (Sat.forEach (C := sysStops short may)
    (I := fun l s' => l.Nodup ∧ (∀ fd ∈ l, (s'.procs np).ofile fd = none) ∧
      FileInv S kstack dir Q (fun _ => 0) s' ∧ CallOnly np s s' ∧ s'.mem = s.mem ∧
      s'.irefs = s.irefs)
    (fun fd l s1 holds => ?_) (List.finRange NOFILE) s
    ⟨List.nodup_finRange NOFILE, fun fd _ => empty fd, inv, (FilesOnly.refl s).call np, rfl,
      rfl⟩).mono fun _ s' post => post.2.2
  · obtain ⟨nodup, empty1, inv1, only1, mem1, irefs1⟩ := holds
    obtain ⟨notIn, nodup'⟩ := List.nodup_cons.1 nodup
    refine Sat.step (Act.get_apply s1) ?_
    cases isSet : (s1.procs p).ofile fd with
    | none =>
      exact ⟨nodup', fun g inside => empty1 g (List.mem_cons_of_mem _ inside), inv1, only1, mem1,
        irefs1⟩
    | some i =>
      refine (filedup_spec inv1 (inv1.used isSet)).seq fun _ s2 post => ?_
      obtain ⟨inv2, only2, mem2, irefs2⟩ := post
      have emptyFd : (s2.procs np).ofile fd = none := by
        rw [only2.procs]
        exact empty1 fd List.mem_cons_self
      have inv3 := inv2.setFd emptyFd i
      rw [plus_plus, Int.add_right_neg, plus_zero] at inv3
      refine ⟨nodup', fun g inside => ?_, inv3,
        only1.trans ((only2.call np).trans (CallOnly.setFd np fd (some i) s2)), mem2.trans mem1,
        irefs2.trans irefs1⟩
      have other : g ≠ fd := by
        rintro rfl
        exact notIn inside
      simp only [upd_same, upd_ne _ _ other, only2.procs]
      exact empty1 g (List.mem_cons_of_mem _ inside)

/-- All pages of the address space of `p` are there. -/
def Sys.Whole (s : Sys) (p : Pid) : Prop :=
  ∀ j < pages (s.procs p).sz, entry s.mem.words (s.procs p).pgdir j ≠ 0

/-- A slot that holds nothing any more. -/
theorem Sys.Inv.vacate (inv : s.Inv S) {e : VmProc} (others : ∀ q, q ≠ p → s'.procs q = s.procs q)
    (slot : s'.procs p = e) (unused : e.state = .unused)
    (files : FileInv S (upd s.kstackOf p 0) (upd s.dirOf (some p) 0) ∅ (fun _ => 0) s')
    (apart : Apart s.owners (some p) s.mem.words s'.mem.words)
    (closed : ∀ fd, e.ofile fd = none) (nextpid : s.nextpid ≤ s'.nextpid)
    (pid : e.pid < s'.nextpid) (modeStack : s'.modeStack = s.modeStack) : s'.Inv S := by
  subst slot
  have kstack : s'.kstackOf = upd s.kstackOf p 0 := by
    have none_ : s'.kstackOf p = 0 := if_pos unused
    rw [kstackOf_update others, none_]
  have dir : s'.dirOf = upd s.dirOf (some p) 0 := by
    have none_ : s'.dirOf (some p) = 0 := if_pos unused
    rw [dirOf_update others, none_]
  refine inv.update others (kstack ▸ dir ▸ files) apart nextpid modeStack
    ⟨fun used => absurd unused used, fun used => absurd unused used, fun used => absurd unused used,
      fun used => absurd unused used, fun _ => closed, fun running => ?_, pid⟩
  rw [unused] at running
  cases running

theorem kstackOf_clear (unused : (s.procs p).state = .unused) : upd s.kstackOf p 0 = s.kstackOf := by
  have none_ : s.kstackOf p = 0 := if_pos unused
  rw [← none_, Kernel.upd_eq_self]

/-- A slot that is given up before it was used. -/
theorem Sys.Inv.abandon (inv : s.Inv S) {np : Pid} (unused : (s.procs np).state = .unused)
    {d : Nat} {m : VMem} (kept : Kept S s.owners ∅ m)
    (same : SameSpaces s.owners s.mem.words m.words) :
    (s.abandoned np d m).Inv S := by
  have dir : upd s.dirOf (some np) 0 = s.dirOf := by
    have none_ : s.dirOf (some np) = 0 := if_pos unused
    rw [← none_, Kernel.upd_eq_self]
  have idle : (s.procs np).state ≠ .runnable := by
    rw [unused]
    decide
  refine inv.vacate (p := np) (fun q other => upd_ne _ _ other) (upd_same _ _ _) rfl ?_ same.apart
    ((inv.procs np).closed idle) (Int.le_add_one le_rfl) (Int.lt_succ s.nextpid) rfl
  rw [kstackOf_clear unused, dir]
  exact inv.files.reslot kept (by rfl) _ _

/-- A slot with a kernel stack and an address space of its own. -/
theorem Sys.Inv.enroll (inv : s.Inv S) {e : VmProc}
    (others : ∀ q, q ≠ p → s'.procs q = s.procs q) (slot : s'.procs p = e)
    (state : e.state = .runnable) (kNonzero : e.kstack ≠ 0) (dNonzero : e.pgdir ≠ 0)
    (files : FileInv S (upd s.kstackOf p e.kstack) (upd s.dirOf (some p) e.pgdir) ∅ (fun _ => 0) s')
    (apart : Apart s.owners (some p) s.mem.words s'.mem.words)
    (small : e.sz < UADDR_SZ) (space : Space s'.mem.words e.pgdir e.sz) (cwd : e.cwd ≠ none)
    (nextpid : s.nextpid ≤ s'.nextpid) (pid : e.pid < s'.nextpid)
    (modeStack : s'.modeStack = s.modeStack) : s'.Inv S := by
  subst slot
  have used := used_of_runnable state
  rw [← kstackOf_eq used, ← dirOf_some used, ← kstackOf_update others, ← dirOf_update others] at files
  exact inv.update others files apart nextpid modeStack ⟨fun _ => kNonzero, fun _ => dNonzero,
    fun _ => small, fun _ => space, fun idle => absurd state idle, fun _ => cwd, pid⟩

/-- What it takes to fork a process of `sz` bytes: its kernel stack, and a copy of its memory. -/
def forkNeeds (sz : Nat) : List Need := .page :: copyNeeds sz

/-- What a fork from `s` can come to. -/
inductive Forked (S : Setup) (p : Pid) (s : Sys) : Int → Sys → Prop where
  /-- no slot -/
  | full (none_ : s.unusedSlot = none) : Forked S p s (-1) s
  /-- no memory: the slot keeps its pid -/
  | starved (np : Pid) (d : Nat) (m : VMem) (unused : (s.procs np).state = .unused)
      (kept : Kept S s.owners ∅ m)
      (same : SameSpaces s.owners s.mem.words m.words)
      (refused : s.mem.supply.serve (forkNeeds (s.procs p).sz) = .error .page) :
      Forked S p s (-1) (s.abandoned np d m)
  | born (s' : Sys) (inv : s'.Inv S) (whole : s.Whole p)
      (served : s.mem.supply.serve (forkNeeds (s.procs p).sz) = .ok s'.mem.supply) :
      Forked S p s s.nextpid s'

theorem Forked.inv {r : Int} (done : Forked S p s r s') (inv : s.Inv S) : s'.Inv S := by
  cases done with
  | full => exact inv
  | starved np d m unused kept same => exact inv.abandon unused kept same
  | born _ inv' => exact inv'

/-- **`fork`** makes a process with an address space as large, or gives its slot up. -/
theorem fork_spec (inv : s.Inv S) (running : (s.procs p).state = .runnable)
    (gap : ¬ s.Whole p → may .copyuvmPte ∧ may .copyuvmPage)
    (why : s.mem.supply.serve (forkNeeds (s.procs p).sz) = .error .table → short) :
    Sat (sysStops short may) (Forked S p s) (Vm.fork p s) := by
  have used := used_of_runnable running
  have parent := inv.procs p
  have isDir := dirOf_some used
  unfold Vm.fork
  have idle : ∀ q, (s.procs q).state = .unused → s.kstackOf q = 0 := fun q unused => if_pos unused
  refine (allocproc_spec inv.files idle).seq fun r s1 post => ?_
  cases r with
  | none =>
    rcases post with ⟨none_, rfl⟩ | ⟨np, m, unused, rfl, refused, words, files⟩
    · exact Forked.full none_
    · refine Forked.starved np _ m unused files.kept ?_ (Supply.serve_none refused)
      rw [words]
      exact ⟨fun _ _ => rfl, fun _ _ => rfl⟩
  | some np =>
    obtain ⟨k, m, unused, kNonzero, rfl, served, words, files⟩ := post
    have rest : s.mem.supply.serve (forkNeeds (s.procs p).sz) =
        m.supply.serve (copyNeeds (s.procs p).sz) := Supply.serve_some served
    have ne : p ≠ np := by
      rintro rfl
      exact used unused
    have sameParent : (s.embryonic np k m).procs p = s.procs p := upd_ne _ _ ne
    have none_ : s.dirOf (some np) = 0 := if_pos unused
    have otherRoot : (some p : Root) ≠ some np := fun same => ne (Option.some.inj same)
    refine Sat.step (Act.get_apply _) ?_
    rw [sameParent]
    have isSource : ((s.embryonic np k m).view (upd s.kstackOf np k) s.dirOf).dir (some p) =
        (s.procs p).pgdir := isDir
    have gap1 : ¬ (∀ j < pages (s.procs p).sz,
        entry (s.embryonic np k m).mem.words (s.procs p).pgdir j ≠ 0) →
        may .copyuvmPte ∧ may .copyuvmPage := by
      intro missing
      refine gap fun whole => missing fun j below => ?_
      show entry m.words _ _ ≠ 0
      rw [words]
      exact whole j below
    have copied := copyuvm_spec (r := some np) files.kept isSource (parent.pgdir used) none_
      (parent.small used).le gap1 fun refused => why (rest.trans refused)
    refine (vm_spec copied).seq fun d s2 post => ?_
    obtain ⟨m2, rfl, apart, ⟨rfl, kept2, -, refused⟩ |
      ⟨dNonzero, kept2, -, filled, reaches, whole, given_⟩⟩ := post
    · -- no memory for the copy
      refine Sat.step (setProc_apply ..) ?_
      rw [if_pos rfl]
      have isK : ((s.embryonic np k m).procs np).kstack = k := by
        simp [Sys.embryonic]
      rw [isK]
      have freed : Sat (vmStops short may) _ (freePage k m2) :=
        freeKstack_spec (p := np) kept2 (upd_same _ _ _) kNonzero
      refine Sat.seq (vm_spec freed) fun _ s3 post => ?_
      obtain ⟨m3, rfl, kept3, words3, -⟩ := post
      refine Sat.step (setProc_apply ..) ?_
      rw [Kernel.upd_idem, kstackOf_clear unused] at kept3
      have final : Forked S p s (-1) (s.abandoned np 0 m3) := by
        refine Forked.starved np 0 m3 unused kept3 ?_ (rest.trans refused)
        rw [words3, ← words]
        have same := apart.sameSpaces none_
        exact ⟨same.tables, same.entries⟩
      refine (congrArg (Forked S p s (-1)) ?_).mpr final
      simp [Sys.abandoned, Sys.embryonic, Kernel.upd_idem]
    · refine Sat.step (setProc_apply ..) ?_
      rw [if_neg dNonzero]
      refine Sat.step (setProc_apply ..) ?_
      simp only [Sys.embryonic, Kernel.upd_idem, upd_same]
      have files2 := files.reproc (s := s.embryonic np k m) (m := m2) kept2
        (upd s.procs np { s.procs np with
          state := .embryo, pid := s.nextpid, kstack := k, pgdir := d, sz := (s.procs p).sz })
        (fun q => ?_) (s.nextpid + 1) s.irefs
      · refine (dupFiles_spec (p := p) files2 fun fd => ?_).seq fun _ s3 post => ?_
        · simp only [upd_same]
          exact (inv.procs np).closed (by rw [unused]; decide) fd
        · obtain ⟨files3, only3, mem3, irefs3⟩ := post
          obtain ⟨o, mine⟩ := only3.mine
          simp only [upd_same] at mine
          obtain ⟨ip, isCwd⟩ := Option.ne_none_iff_exists'.1 (parent.cwd running)
          rw [isCwd]
          refine Sat.step (Act.modify_apply ..) (Sat.step (setProc_apply ..) ?_)
          have open_ : ({ s3.procs np with cwd := some ip, state := .runnable } : VmProc).ofile =
            (s3.procs np).ofile := rfl
          have files4 := files3.reslot files3.kept open_ s3.nextpid
            (upd s3.irefs ip (s3.irefs ip + 1))
          refine Forked.born _ (inv.enroll (p := np) (fun q other => ?_) (upd_same _ _ _) rfl ?_ ?_ ?_
            ?_ ?_ ?_ (Option.some_ne_none ip) ?_ ?_ only3.modeStack) ?_ ?_
          · simp only [upd_ne _ _ other]
            exact (only3.others q other).trans (upd_ne _ _ other)
          · rw [mine]
            exact kNonzero
          · rw [mine]
            exact dNonzero
          · rw [mine] at files4 ⊢
            exact files4
          · simp only [mem3]
            rw [← words]
            exact ⟨apart.tables, apart.entries⟩
          · rw [mine]
            exact parent.small used
          · simp only [mine, mem3]
            exact ⟨reaches, fun j past => not_not.1 fun there =>
              absurd ((filled.new j (Nat.zero_le j)).1 there) (Nat.not_lt.2 past)⟩
          · rw [only3.nextpid]
            exact Int.le_add_one le_rfl
          · rw [only3.nextpid, mine]
            exact Int.lt_succ s.nextpid
          · intro j below
            have there := whole j below
            rwa [← words]
          · simp only [mem3]
            exact rest.trans given_
      · simp only [Sys.embryonic]
        by_cases same : q = np
        · simp [same]
        · simp [same]

/-- The address space of `p` has been worked on, and has the size `sz`. -/
theorem Sys.Inv.resize (inv : s.Inv S) (running : (s.procs p).state = .runnable) {m : VMem} {sz : Nat}
    (kept : Kept S s.owners ∅ m)
    (apart : Apart s.owners (some p) s.mem.words m.words) (small : sz < UADDR_SZ)
    (space : Space m.words (s.procs p).pgdir sz) :
    Sys.Inv S { s with mem := m, procs := upd s.procs p { s.procs p with sz := sz } } := by
  have used := used_of_runnable running
  have ok := inv.procs p
  exact inv.retain (p := p) (fun q other => upd_ne _ _ other) (upd_same _ _ _) used used rfl rfl
    (inv.files.reslot kept (by rfl) _ _) apart le_rfl rfl
    ⟨ok.kstack, ok.pgdir, fun _ => small, fun _ => space, ok.closed, ok.cwd, ok.pid⟩

/-- Memory and references to inodes change, and all address spaces keep their pages. -/
theorem Sys.Inv.remem (inv : s.Inv S) {m : VMem} (kept : Kept S s.owners ∅ m)
    (spaces : ∀ q, (s.procs q).state ≠ .unused → Space m.words (s.procs q).pgdir (s.procs q).sz)
    (f : Nat → Nat) : Sys.Inv S { s with mem := m, irefs := f } where
  files := inv.files.reproc kept s.procs (fun _ => rfl) s.nextpid f
  procs q :=
    { inv.procs q with space := spaces q }
  positive := inv.positive
  booted := inv.booted

/-- The caller's pages as they were, and more page tables perhaps. -/
theorem Sys.Inv.untouched (inv : s.Inv S) (running : (s.procs p).state = .runnable) {m : VMem}
    (kept : Kept S s.owners ∅ m)
    (edit : Edit s.owners (some p) (entry s.mem.words (s.procs p).pgdir)
      s.mem.words m.words) : Sys.Inv S { s with mem := m } := by
  refine inv.remem kept (fun q used => ?_) s.irefs
  have old := (inv.procs q).space used
  rw [← dirOf_some (used_of_runnable running)] at edit
  rw [← dirOf_some used] at old ⊢
  by_cases same : q = p
  · subst same
    exact Space.edit (G := s.owners) old edit
  · have ne : (some q : Root) ≠ some p := fun eq => same (Option.some.inj eq)
    exact Space.apart (G := s.owners) old edit.apart ne

/-- When `p` asks for `n` bytes more, the first thing that cannot be had is a page table. -/
def Sys.Starves (s : Sys) (p : Pid) (n : Int) : Prop :=
  0 < n ∧ grown (s.procs p).sz n < UADDR_SZ ∧
    s.mem.supply.serve (growth s.mem.words (s.procs p).pgdir (s.procs p).sz
      (grown (s.procs p).sz n)) = .error .table

instance (s : Sys) (p : Pid) (n : Int) : Decidable (s.Starves p n) :=
  inferInstanceAs (Decidable (_ ∧ _ ∧ _))

/-- What `sbrk` by `n` bytes from `s` can come to. -/
inductive Sbrked (S : Setup) (p : Pid) (n : Int) (s : Sys) : Int → Sys → Prop where
  | moved (s' : Sys) (inv : s'.Inv S) (fed : ¬ s.Starves p n)
      (other : n = -(s.procs p).sz → n = 0) : Sbrked S p n s (s.procs p).sz s'
  /-- too much, or no memory -/
  | refused (m : VMem) (kept : Kept S s.owners ∅ m)
      (edit : Edit s.owners (some p) (entry s.mem.words (s.procs p).pgdir)
        s.mem.words m.words)
      (bytes : Undisturbed s.owners s.mem m) (fed : ¬ s.Starves p n)
      (other : n ≠ -(s.procs p).sz) : Sbrked S p n s (-1) { s with mem := m }
  /-- nothing is left, which the code takes for a failure -/
  | emptied (m : VMem) (kept : Kept S s.owners ∅ m)
      (edit : Edit s.owners (some p) (fun _ => 0) s.mem.words m.words)
      (bytes : Undisturbed s.owners s.mem m) (fed : ¬ s.Starves p n) (all : n = -(s.procs p).sz) :
      Sbrked S p n s (-1) { s with mem := m }

/-- Giving memory back takes none. -/
theorem not_starves {n : Int} (le : n ≤ 0) : ¬ s.Starves p n := fun starves => by
  have positive := starves.1
  omega

theorem grown_nonneg {sz : Nat} {n : Int} (low : 0 ≤ sz + n) (high : sz + n < UINTS) :
    (grown sz n : Int) = sz + n := by
  unfold grown
  rw [Int.emod_eq_of_lt low high, Int.toNat_of_nonneg low]

/-- What the address space is when `growproc` sets the size. -/
structure Resized (S : Setup) (p : Pid) (n : Int) (s : Sys) (sz : Nat) (m : VMem) : Prop where
  failure : n ≠ 0 → sz = 0 → Sbrked S p n s (-1) { s with mem := m }
  success : n = 0 ∨ sz ≠ 0 → Sbrked S p n s (s.procs p).sz
    { s with mem := m, procs := upd s.procs p { s.procs p with sz := sz } }

/-- **`growproc`**, by the size that `allocuvm` or `deallocuvm` returns. -/
theorem growproc_sat {n : Int} {Q : Nat → VMem → Prop} {post : Int → Sys → Prop}
    (up : 0 < n → Sat (vmStops short may) Q
      (allocuvm (s.procs p).pgdir (s.procs p).sz (grown (s.procs p).sz n) s.mem))
    (down : n < 0 → Sat (vmStops short may) Q
      (deallocuvm (s.procs p).pgdir (s.procs p).sz (grown (s.procs p).sz n) s.mem))
    (same : n = 0 → Q (s.procs p).sz s.mem)
    (failure : ∀ m, n ≠ 0 → Q 0 m → post (-1) { s with mem := m })
    (success : ∀ sz m, n = 0 ∨ sz ≠ 0 → Q sz m →
      post 0 { s with mem := m, procs := upd s.procs p { s.procs p with sz := sz } }) :
    Sat (sysStops short may) post (growproc p n s) := by
  -- with the new size in hand
  have finish : ∀ sz' s1, (∃ m, s1 = { s with mem := m } ∧ Q sz' m) → Sat (sysStops short may) post
      ((if n ≠ 0 ∧ sz' = 0 then failed
        else do
          setProc p fun e => { e with sz := sz' }
          return 0 : C Int) s1) := by
    rintro sz' s1 ⟨m, rfl, holds⟩
    by_cases bad : n ≠ 0 ∧ sz' = 0
    · obtain ⟨moves, rfl⟩ := bad
      rw [if_pos ⟨moves, rfl⟩]
      exact failure m moves holds
    · rw [if_neg bad]
      exact success sz' m (by omega) holds
  unfold growproc
  refine Sat.step (Act.get_apply s) ?_
  rcases lt_trichotomy n 0 with neg | zero | pos
  · simp only [if_neg (Int.lt_asymm neg), if_pos neg]
    exact (vm_spec (down neg)).seq finish
  · simp only [zero, Int.lt_irrefl, if_false]
    subst zero
    exact finish (s.procs p).sz s ⟨s.mem, rfl, same rfl⟩
  · simp only [if_pos pos]
    exact (vm_spec (up pos)).seq finish

section Sbrk

variable (inv : s.Inv S) (running : (s.procs p).state = .runnable) {n : Int}

include inv running

/-- What `allocuvm` does for `growproc`: page tables do not run out, and there are new pages up to
the new size or none at all. -/
theorem growUp_alloc (pos : 0 < n) (high : n < 2147483648) (why : s.Starves p n → short) :
    Sat (vmStops short may) (fun (res : Nat) m => Kept S s.owners ∅ m ∧
      Undisturbed s.owners s.mem m ∧ ¬ s.Starves p n ∧
      (res = 0 ∧ Edit s.owners (some p) (entry s.mem.words (s.procs p).pgdir)
          s.mem.words m.words ∨
        (res : Int) = (s.procs p).sz + n ∧ (s.procs p).sz ≤ res ∧ res < UADDR_SZ ∧
          Grew s.owners (some p) (pages (s.procs p).sz) (pages res) s.mem m))
      (allocuvm (s.procs p).pgdir (s.procs p).sz (grown (s.procs p).sz n) s.mem) := by
  have used := used_of_runnable running
  have ok := inv.procs p
  have isDir := owners_dir used
  have small : (s.procs p).sz < 268435456 := ok.small used
  have isSum : (grown (s.procs p).sz n : Int) = (s.procs p).sz + n :=
    grown_nonneg (by omega) (by show _ < (4294967296 : Int); omega)
  refine (allocuvm_spec inv.files.kept isDir (ok.pgdir used) (ok.space used)
    fun _ below refused => why ⟨pos, below, refused⟩).mono fun res m post => ?_
  obtain ⟨kept, calm, ⟨rfl, edit, reason⟩ | ⟨-, smaller, -⟩ | ⟨rfl, le, below, grew, served⟩⟩ := post
  · refine ⟨kept, calm, ?_, Or.inl ⟨rfl, edit⟩⟩
    rintro ⟨-, below, starves⟩
    rcases reason with ⟨huge, -⟩ | ⟨-, refused⟩
    · exact absurd huge (Nat.not_le.2 below)
    · rw [refused] at starves
      cases starves
  · omega
  · refine ⟨kept, calm, ?_, Or.inr ⟨isSum, le, below, grew⟩⟩
    rintro ⟨-, -, starves⟩
    rw [served] at starves
    cases starves

/-- Growing. -/
theorem growUp_spec (pos : 0 < n) (high : n < 2147483648) (why : s.Starves p n → short) :
    Sat (vmStops short may) (Resized S p n s)
      (allocuvm (s.procs p).pgdir (s.procs p).sz (grown (s.procs p).sz n) s.mem) := by
  have isDir := owners_dir (used_of_runnable running)
  refine (growUp_alloc inv running pos high why).mono fun res m post => ?_
  obtain ⟨kept, calm, fed, ⟨rfl, edit⟩ | ⟨isSum, le, below, grew⟩⟩ := post
  · refine ⟨fun _ _ => Sbrked.refused m kept edit calm fed (by omega), fun moved => ?_⟩
    exact absurd moved (by omega)
  · refine ⟨fun _ none_ => absurd none_ (by omega), fun _ => ?_⟩
    have space' := grew.space (pages_le le)
    rw [isDir] at space'
    obtain ⟨-, -, -, e, -, edit⟩ := grew
    exact Sbrked.moved _ (inv.resize running kept edit.apart below space') fed (by omega)

/-- What `deallocuvm` does for `growproc`: it frees pages, but where the new size is below 0 the sum
wraps around and nothing is done. -/
theorem growDown_dealloc (neg : n < 0) (low : -2147483648 ≤ n) :
    Sat (vmStops short may) (fun (res : Nat) m => m.bytes = s.mem.bytes ∧
      ((s.procs p).sz + n < 0 ∧ res = (s.procs p).sz ∧ m = s.mem ∨
        (res : Int) = (s.procs p).sz + n ∧ Kept S s.owners ∅ m ∧ Edit s.owners (some p)
          (cut (entry s.mem.words (s.procs p).pgdir) (pages res) (pages (s.procs p).sz))
          s.mem.words m.words))
      (deallocuvm (s.procs p).pgdir (s.procs p).sz (grown (s.procs p).sz n) s.mem) := by
  have used := used_of_runnable running
  have ok := inv.procs p
  have small : (s.procs p).sz < 268435456 := ok.small used
  by_cases under : (s.procs p).sz + n < 0
  · have wraps : (s.procs p).sz ≤ grown (s.procs p).sz n := by
      show _ ≤ (((s.procs p).sz + n) % (4294967296 : Int)).toNat
      omega
    rw [deallocuvm, if_pos wraps]
    exact ⟨rfl, Or.inl ⟨under, rfl, rfl⟩⟩
  · have isSum : (grown (s.procs p).sz n : Int) = (s.procs p).sz + n :=
      grown_nonneg (by omega) (by show _ < (4294967296 : Int); omega)
    refine (Fixes.also (f := VMem.bytes) (deallocuvm_spec inv.files.kept (owners_dir used)
      (ok.pgdir used) (ok.small used).le (by omega))).mono fun res m post => ?_
    obtain ⟨⟨rfl, kept, edit, -⟩, bytes⟩ := post
    exact ⟨bytes, Or.inr ⟨isSum, kept, edit⟩⟩

/-- Shrinking. -/
theorem growDown_spec (neg : n < 0) (low : -2147483648 ≤ n) :
    Sat (vmStops short may) (Resized S p n s)
      (deallocuvm (s.procs p).pgdir (s.procs p).sz (grown (s.procs p).sz n) s.mem) := by
  have used := used_of_runnable running
  have ok := inv.procs p
  have isDir := owners_dir used
  refine (growDown_dealloc inv running neg low).mono fun res m post => ?_
  obtain ⟨bytes, ⟨under, rfl, rfl⟩ | ⟨isSum, kept, edit⟩⟩ := post
  · refine ⟨fun _ _ => Sbrked.refused s.mem inv.files.kept ?_ (.of_bytes rfl) (not_starves neg.le)
      (by omega), fun _ => ?_⟩
    · rw [← isDir]
      exact Edit.refl ..
    · exact Sbrked.moved _ (inv.resize running inv.files.kept (Apart.refl ..) (ok.small used)
        (ok.space used)) (not_starves neg.le) (by omega)
  · have shrinks : res < (s.procs p).sz := by omega
    refine ⟨fun _ none_ => Sbrked.emptied m kept (edit.congr fun j => ?_) (.of_bytes bytes)
      (not_starves neg.le) (by omega), fun some_ => ?_⟩
    · rw [none_]
      exact cut_of_past (ok.space used).past (Nat.zero_le j)
    · refine Sbrked.moved _ (inv.resize running kept edit.apart (lt_trans shrinks (ok.small used))
        ⟨?_, fun j past => ?_⟩) (not_starves neg.le) (by omega)
      · rw [← isDir]
        intro j below
        have there := (ok.space used).reaches j (lt_of_lt_of_le below (pages_le shrinks.le))
        rw [← isDir] at there
        rw [edit.tables _ there]
        exact there
      · rw [← isDir, edit.mine]
        exact cut_of_past (ok.space used).past past

theorem growproc_spec (low : -2147483648 ≤ n) (high : n < 2147483648) (why : s.Starves p n → short) :
    Sat (sysStops short may) (fun r s' => r = 0 ∧ Sbrked S p n s (s.procs p).sz s' ∨
      r = -1 ∧ Sbrked S p n s (-1) s') (growproc p n s) := by
  have ok := inv.procs p
  have used := used_of_runnable running
  refine growproc_sat (fun pos => growUp_spec inv running pos high why)
    (fun neg => growDown_spec inv running neg low) (fun zero => ?_)
    (fun m moves resized => Or.inr ⟨rfl, resized.failure moves rfl⟩)
    fun sz m fine resized => Or.inl ⟨rfl, resized.success fine⟩
  refine ⟨fun moves => absurd zero moves, fun _ => ?_⟩
  exact Sbrked.moved _ (inv.resize running inv.files.kept (Apart.refl ..) (ok.small used)
    (ok.space used)) (not_starves zero.le) fun _ => zero

/-- **`sbrk`** moves the end of the address space, or leaves its pages; but taking all of
them reports a failure. -/
theorem sysSbrk_spec (low : -2147483648 ≤ n) (high : n < 2147483648) (why : s.Starves p n → short) :
    Sat (sysStops short may) (Sbrked S p n s) (sysSbrk p n s) := by
  unfold sysSbrk
  refine Sat.step (Act.get_apply s) ((growproc_spec inv running low high why).seq
    fun r s' post => ?_)
  rcases post with ⟨rfl, moved⟩ | ⟨rfl, failure⟩
  · exact moved
  · exact failure

end Sbrk

theorem Sbrked.inv {n r : Int} (done : Sbrked S p n s r s') (inv : s.Inv S)
    (running : (s.procs p).state = .runnable) : s'.Inv S := by
  have used := used_of_runnable running
  have ok := inv.procs p
  cases done with
  | moved _ inv' => exact inv'
  | refused m kept edit => exact inv.untouched running kept edit
  | emptied m kept edit =>
    have isDir := owners_dir used
    have space : Space m.words (s.procs p).pgdir (s.procs p).sz := by
      have old := ok.space used
      rw [← isDir] at old ⊢
      exact ⟨old.reaches.edit edit, fun j _ => edit.mine j⟩
    have resized := inv.resize running kept edit.apart (ok.small used) space
    rwa [Kernel.upd_eq_self] at resized

/-! ## Exiting and waiting -/

/-- All descriptors of `p` are closed. -/
theorem closeFiles_spec {kstack : Pid → Nat} {dir : Root → Nat} {Q : Set (Nat × Nat)}
    (inv : FileInv S kstack dir Q (fun _ => 0) s) :
    Sat (sysStops short may) (fun _ s' => FileInv S kstack dir Q (fun _ => 0) s' ∧ CallOnly p s s' ∧
      ∀ fd, (s'.procs p).ofile fd = none) (closeFiles p s) := by
  unfold closeFiles
  refine (Sat.forEach (C := sysStops short may)
    (I := fun l s' => FileInv S kstack dir Q (fun _ => 0) s' ∧ CallOnly p s s' ∧
      ∀ fd, fd ∉ l → (s'.procs p).ofile fd = none)
    (fun fd l s1 holds => ?_) (List.finRange NOFILE) s
    ⟨inv, (FilesOnly.refl s).call p, fun fd out => absurd (List.mem_finRange fd) out⟩).mono
      fun _ s' post => ⟨post.1, post.2.1, fun fd => post.2.2 fd List.not_mem_nil⟩
  · obtain ⟨inv1, only1, closed⟩ := holds
    refine Sat.step (Act.get_apply s1) ?_
    cases isSet : (s1.procs p).ofile fd with
    | none =>
      refine ⟨inv1, only1, fun g out => ?_⟩
      by_cases same : g = fd
      · rw [same]
        exact isSet
      · exact closed g fun inside => (List.mem_cons.1 inside).elim same out
    | some i =>
      refine (fileclose_spec inv1 (inv1.used isSet)).seq fun _ s2 post => ?_
      obtain ⟨inv2, only2, -⟩ := post
      have stillSet : (s2.procs p).ofile fd = some i := by
        rw [only2.procs]
        exact isSet
      have inv3 := inv2.clearFd stillSet
      rw [plus_plus, Int.add_left_neg, plus_zero] at inv3
      refine ⟨inv3, only1.trans ((only2.call p).trans (CallOnly.setFd p fd none s2)), fun g out => ?_⟩
      by_cases same : g = fd
      · simp only [same, upd_same]
      · simp only [upd_same, upd_ne _ _ same, only2.procs]
        exact closed g fun inside => (List.mem_cons.1 inside).elim same out

/-- **`exit`** leaves a zombie with its memory, and no open files. -/
theorem exit_spec (inv : s.Inv S) (running : (s.procs p).state = .runnable) (stops : may .initExiting) :
    Sat (sysStops short may) (fun _ s' => s'.Inv S) (Vm.exit p s) := by
  have used := used_of_runnable running
  have ok := inv.procs p
  unfold Vm.exit
  refine Sat.failIf (fun _ => Or.inr stops) fun _ => ?_
  refine (closeFiles_spec (p := p) inv.files).seq fun _ s1 post => ?_
  obtain ⟨files1, only1, closed⟩ := post
  obtain ⟨o, mine⟩ := only1.mine
  obtain ⟨ip, isCwd⟩ := Option.ne_none_iff_exists'.1 (ok.cwd running)
  have isCwd1 : (s1.procs p).cwd = some ip := by
    rw [mine]
    exact isCwd
  refine Sat.step (Act.get_apply s1) ?_
  rw [isCwd1]
  refine Sat.step (Act.modify_apply ..) (Sat.step (setProc_apply ..) ?_)
  have others : ∀ q, q ≠ p →
      upd s1.procs p { s1.procs p with cwd := none, state := .zombie } q = s.procs q := by
    intro q other
    rw [upd_ne _ _ other]
    exact only1.others q other
  refine inv.retain (p := p) others (upd_same _ _ _) used (by simp) ?_ ?_
    (files1.reslot files1.kept (by rfl) _ _) (only1.words ▸ Apart.refl ..) only1.nextpid.ge
    only1.modeStack ?_
  · rw [mine]
  · rw [mine]
  · rw [mine] at closed ⊢
    rw [only1.words, only1.nextpid]
    refine ⟨fun _ => ok.kstack used, fun _ => ok.pgdir used, fun _ => ok.small used,
      fun _ => ok.space used, fun _ => closed, fun never => ?_, ok.pid⟩
    cases never

/-- **`wait`** gives back the memory of the zombie it has found. -/
theorem reap_spec (inv : s.Inv S) (zombie : (s.procs p).state = .zombie) :
    Sat (sysStops short may) (fun _ s' => s'.Inv S) (reap p s) := by
  have used : (s.procs p).state ≠ .unused := by
    rw [zombie]
    decide
  have ok := inv.procs p
  unfold reap
  refine Sat.step (Act.get_apply s) ?_
  have freed : Sat (vmStops short may) _ (freePage (s.procs p).kstack s.mem) :=
    freeKstack_spec inv.files.kept (kstackOf_eq used) (ok.kstack used)
  refine (vm_spec freed).seq fun _ s1 post => ?_
  obtain ⟨m1, rfl, kept1, words1, -⟩ := post
  refine Sat.step (setProc_apply ..) ?_
  have isDir : (⟨s.modeStack, upd s.kstackOf p 0, s.pipeAt, s.dirOf⟩ : View).dir (some p) =
      (s.procs p).pgdir := dirOf_some used
  have gone : Sat (vmStops short may) _ (freevm (s.procs p).pgdir m1) :=
    freevm_spec kept1 isDir (ok.pgdir used)
  refine (vm_spec gone).seq fun _ s2 post => ?_
  obtain ⟨m2, rfl, kept2, apart, -⟩ := post
  refine Sat.step (setProc_apply ..) ?_
  simp only [upd_same, Kernel.upd_idem]
  have idle : (s.procs p).state ≠ .runnable := by
    rw [zombie]
    decide
  refine inv.vacate (p := p) (fun q other => upd_ne _ _ other) (upd_same _ _ _) rfl
    (inv.files.reslot kept2 (by rfl) _ _) ?_ (ok.closed idle) le_rfl inv.positive rfl
  rw [← words1]
  exact ⟨apart.tables, apart.entries⟩

/-- `sys_chdir` keeps all memory. -/
theorem sysChdir_spec (inv : s.Inv S) (running : (s.procs p).state = .runnable) (ip : Nat) :
    Sat (sysStops short may) (fun _ s' => s'.Inv S) (sysChdir p ip s) := by
  have used := used_of_runnable running
  have ok := inv.procs p
  obtain ⟨old, isCwd⟩ := Option.ne_none_iff_exists'.1 (ok.cwd running)
  unfold sysChdir
  refine Sat.step (Act.modify_apply ..) (Sat.step (Act.get_apply _) ?_)
  simp only [isCwd]
  refine Sat.step (Act.modify_apply ..) (Sat.step (setProc_apply ..) ?_)
  exact inv.retain (p := p) (fun q other => upd_ne _ _ other) (upd_same _ _ _) used used rfl rfl
    (inv.files.reslot inv.files.kept (by rfl) _ _) (Apart.refl ..) le_rfl rfl
    ⟨ok.kstack, ok.pgdir, ok.small, ok.space, ok.closed, fun _ => Option.some_ne_none ip, ok.pid⟩

end Calls

end Xv6Rpi.Proc.Vm
