/-
# Proc.VmRun -- kernel memory is conserved in every run

Booting establishes the invariant of `Proc.VmProcs`, every system call keeps it, and so
it holds in every state of every run.  Read off it is what the kernel's memory is used
for: each outstanding block of the buddy allocator is held in exactly one place.
-/
import Xv6Rpi.Proc.VmExec
import Xv6Rpi.Theory.Machine

namespace Xv6Rpi.Proc.Vm

open Theory
open Kernel (Client Kmem Pid FileId Region Covers upd upd_same upd_ne KERNBASE noHeap)

set_option autoImplicit false

variable {may : VmPanic → Prop} {S : Setup} {s s' : Sys} {p : Pid}

/-! ## Booting -/

/-- The addresses of page tables from `low` up to `hi`, in front of a list of them. -/
def kptFreerange (low hi : Nat) (freelist : List Nat) : List Nat :=
  ((List.range ((hi - low + 1023) / 1024)).map (low + 1024 * ·)).reverse ++ freelist

/-- `P2V_WO(VEC_TBL & PDE_MASK)`. -/
abbrev VECTBL : Nat := KERNBASE + 0xF0000

/-- The page tables left over when `paging_init` has taken `taken` of them, where `end_`
is the end of the kernel. -/
def bootTables (end_ taken : Nat) : List Nat :=
  (kptFreerange (VECTBL + 1024) BOOT_END (kptFreerange (alignUp end_ 1024) VECTBL [])).drop taken

theorem mem_kptFreerange {low hi a : Nat} {l : List Nat} (member : a ∈ kptFreerange low hi l) :
    (∃ k, a = low + 1024 * k ∧ a < hi) ∨ a ∈ l := by
  simp only [kptFreerange, List.mem_append, List.mem_reverse, List.mem_map, List.mem_range] at member
  rcases member with ⟨k, below, rfl⟩ | old
  · exact Or.inl ⟨k, rfl, by omega⟩
  · exact Or.inr old

theorem nodup_kptFreerange {low hi : Nat} {l : List Nat} (nodup : l.Nodup) (before : ∀ a ∈ l, a < low) :
    (kptFreerange low hi l).Nodup := by
  refine List.nodup_append.2 ⟨?_, nodup, fun a new b old same => ?_⟩
  · refine List.nodup_reverse.2 (List.nodup_range.map fun i j same => ?_)
    have same : low + 1024 * i = low + 1024 * j := same
    omega
  · simp only [List.mem_reverse, List.mem_map, List.mem_range] at new
    obtain ⟨k, -, rfl⟩ := new
    have := before b old
    omega

/-- The page tables `main` leaves for processes. -/
theorem bootPool_main {end_ : Nat} (after : KERNBASE < end_) (before : end_ ≤ VECTBL) (taken : Nat) :
    BootPool (bootTables end_ taken) := by
  have after : 0x80000000 < end_ := after
  have before : end_ ≤ 0x800F0000 := before
  have up : end_ ≤ alignUp end_ 1024 ∧ alignUp end_ 1024 % 1024 = 0 := by
    show end_ ≤ (end_ + 1024 - 1) % 4294967296 / 1024 * 1024 ∧ _ / 1024 * 1024 % 1024 = 0
    omega
  have low : ∀ a ∈ kptFreerange (alignUp end_ 1024) VECTBL [],
      0x80000000 < a ∧ a < 0x800F0000 ∧ a % 1024 = 0 := by
    intro a member
    rcases mem_kptFreerange member with ⟨k, rfl, below⟩ | none_
    · have below : alignUp end_ 1024 + 1024 * k < 0x800F0000 := below
      omega
    · cases none_
  have all : ∀ a ∈ bootTables end_ taken, 0x80000000 < a ∧ a < 0x80100000 ∧ a % 1024 = 0 := by
    intro a member
    rcases mem_kptFreerange (List.mem_of_mem_drop member) with ⟨k, rfl, below⟩ | old
    · have below : 0x800F0000 + 1024 + 1024 * k < 0x80100000 := below
      show _ < 0x800F0000 + 1024 + 1024 * k ∧ 0x800F0000 + 1024 + 1024 * k < _ ∧
        (0x800F0000 + 1024 + 1024 * k) % 1024 = 0
      omega
    · have := low a old
      omega
  refine ⟨fun a member => (all a member).1, fun a member => (all a member).2.1,
    fun a member => (all a member).2.2, ?_⟩
  refine (nodup_kptFreerange (nodup_kptFreerange List.nodup_nil ?_) ?_).sublist (List.drop_sublist ..)
  · exact fun a none_ => absurd none_ List.not_mem_nil
  · intro a member
    show a < 0x800F0000 + 1024
    have := low a member
    omega

/-- The kernel's data is zero: nobody holds anything. -/
theorem zeroed_files {km : Kmem} {N P : Nat} (heap : Kernel.HeapInv N P ∅ km)
    (above : BOOT_END ≤ km.startHeap) {boot : List Nat} (pool : BootPool boot) (fails : List Bool) :
    FileInv ⟨N, P, km, boot⟩ (fun _ => 0) (fun _ => 0) ∅ (fun _ => 0) (Sys.zeroed km boot fails) := by
  have address : ∀ x, ((Sys.zeroed km boot fails).view (fun _ => 0) (fun _ => 0)).address
      (fun _ _ => 0) x = 0 := by
    intro x
    cases x with
    | page r k => exact pageAt_eq_zero_iff.2 (entry_zero ..)
    | _ => rfl
  have closed : ∀ i a writable, ¬ ((Sys.zeroed km boot fails).files i).IsEnd a writable :=
    fun i a writable isEnd => absurd isEnd.inUse (Nat.lt_irrefl 0)
  have shut : ∀ a writable, ¬ ((Sys.zeroed km boot fails).pipes a).flag writable = true := by
    intro a writable isOpen
    cases writable <;> cases isOpen
  refine ⟨⟨Client.Inv.start heap, above, rfl, pool, pool.nodup, fun _ => id, ?_, ?_, ?_⟩, ?_, ?_⟩
  · have none_ : (Sys.zeroed km boot fails).mem.outstanding = ∅ := by
      ext b
      simp [VMem.outstanding, Sys.zeroed]
    rw [none_]
    refine ⟨fun x some_ => ?_, fun x y some_ => ?_, fun b out => out.elim, fun b out => out.elim,
      fun b out => out.elim⟩
    · exact absurd (View.block_eq_zero_iff.2 (address x)) some_
    · exact absurd (View.block_eq_zero_iff.2 (address x)) some_
  · exact fun r i j _ some_ => absurd rfl some_
  · exact fun r i some_ => absurd rfl some_
  · refine ⟨fun _ _ => rfl, fun a writable => iff_of_false (shut a writable) ?_,
      fun i j a writable isEnd => absurd isEnd (closed i a writable),
      fun a writable isOpen => absurd isOpen (shut a writable)⟩
    rintro ⟨i, isEnd⟩
    exact closed i a writable isEnd
  · intro i
    have none_ : refCount (Sys.zeroed km boot fails).fds i = 0 := by
      simp [refCount, Sys.fds, Sys.zeroed]
    rw [none_]
    rfl

/-- Each mode of the processor gets a stack. -/
theorem trapInit_spec {kstack : Pid → Nat} {dir : Root → Nat} {X : FileId → Int}
    (inv : FileInv S kstack dir ∅ X s) (none_ : ∀ i, s.modeStack i = 0) (stops : may .trapInit) :
    Sat (sysContract may) (fun _ s' => FileInv S kstack dir ∅ X s' ∧ (∀ i, s'.modeStack i ≠ 0) ∧
      s'.procs = s.procs ∧ s'.nextpid = s.nextpid ∧ s'.mem.words = s.mem.words) (trapInit s) := by
  unfold trapInit
  have loop := Sat.forEach (C := sysContract may)
    (f := fun i : Fin 4 => (do
      let stk ← vm allocPage
      Act.failIf (stk == 0) .trapInit
      Act.modify fun s => { s with modeStack := upd s.modeStack i stk } : C Unit))
    (I := fun l s' => l.Nodup ∧ (∀ i, i ∈ l ↔ s'.modeStack i = 0) ∧ FileInv S kstack dir ∅ X s' ∧
      s'.procs = s.procs ∧ s'.nextpid = s.nextpid ∧ s'.mem.words = s.mem.words)
    (fun i l s1 holds => ?_) (List.finRange 4) s
    ⟨List.nodup_finRange 4, fun i => iff_of_true (List.mem_finRange i) (none_ i), inv, rfl, rfl, rfl⟩
  · refine loop.mono fun _ s' post => ⟨post.2.2.1, fun i isZero => ?_, post.2.2.2⟩
    exact List.not_mem_nil ((post.2.1 i).2 isZero)
  · obtain ⟨nodup, empty, inv1, procs, nextpid, words⟩ := holds
    obtain ⟨notIn, nodup'⟩ := List.nodup_cons.1 nodup
    refine (vm_spec (allocPage_spec inv1.kept)).seq fun stk s2 post => ?_
    obtain ⟨m, rfl, given_⟩ := post
    cases given_ with
    | null fails => exact Or.inr stops
    | block _ h fails nonzero _ fresh kept =>
      refine Sat.failIf (fun isZero => absurd (beq_iff_eq.1 isZero) nonzero) fun _ => ?_
      refine ⟨nodup', fun j => ?_, ⟨?_, ?_, inv1.refs⟩, procs, nextpid, words⟩
      · by_cases same : j = i
        · subst same
          simp [notIn, nonzero]
        · simp only [upd_ne _ _ same]
          rw [← empty j]
          simp [same]
      · refine inv1.kept.assignFresh (x := .modeStack i) fresh kept
          ⟨upd s1.modeStack i stk, kstack, s1.pipeAt, dir⟩ ((empty i).1 List.mem_cons_self)
          (upd_same _ _ _) (fun y other => ?_) rfl
        cases y with
        | modeStack j => exact upd_ne _ _ fun same => other (congrArg Place.modeStack same)
        | _ => rfl
      · exact ⟨inv1.pipes.idle, inv1.pipes.open_iff, inv1.pipes.once, inv1.pipes.real⟩

/-- The first page of the first process. -/
theorem inituvm_spec {G : View} {Q : Set (Nat × Nat)} {m : VMem} {r : Root} {d : Nat}
    (kept : Kept S G Q m) (isDir : G.dir r = d) (nonzero : d ≠ 0)
    (empty : ∀ i, tableAt m.words d i = 0) (stops : may .null) :
    Sat (vmContract may) (fun _ m' => Kept S G Q m' ∧ Apart G r m.words m'.words ∧
      Space m'.words d PTE_SZ) (inituvm d m) := by
  unfold inituvm
  refine (allocPage_spec kept).seq fun mem m1 given_ => ?_
  cases given_ with
  | null fails => exact Or.inr stops
  | block _ h fails memNonzero _ fresh kept1 =>
    refine Sat.failIf (fun isZero => absurd (beq_iff_eq.1 isZero) memNonzero) fun _ => ?_
    have first : mappages d 0 PTE_SZ (v2p mem) AP_KU =
        (do mapPage d (PTE_SZ * 0) (v2p mem) AP_KU; pure ()) := by
      rw [← mappages_page (k := 0) (by decide), Nat.mul_zero]
    rw [first]
    have none_ : entry m.words d 0 = 0 := entry_of_tableAt_eq_zero (empty _)
    have kept1 : Kept S G (insert (mem, PTE_SHIFT) Q)
        { m with heap := h, fails := fails, bytes := filled m.bytes mem fun _ => 0 } :=
      kept1.congr rfl rfl rfl rfl
    refine Sat.step rfl ?_
    refine (mapPage_spec kept1 isDir nonzero (by decide) (fun i below => absurd below (by omega))
      none_ AP_KU (Or.inl rfl)).seq fun _ m2 post => ?_
    obtain ⟨kept2, edit⟩ := post
    have notLoose : (mem, PTE_SHIFT) ∉ Q := fun inQ => fresh (kept.owns.loose_used _ inQ)
    rw [Set.insert_sdiff_self_of_notMem notLoose] at kept2
    have one : pages PTE_SZ = 1 := by decide
    refine ⟨kept2, edit.apart, fun j below => ?_, fun j past => ?_⟩
    · rw [one] at below
      obtain rfl : j = 0 := by omega
      refine tableAt_ne_zero_of_entry (k := 0) ?_
      rw [← isDir, edit.mine, upd_same]
      exact mkPte_ne_zero _ _
    · rw [one] at past
      have other : j ≠ 0 := by omega
      rw [← isDir, edit.mine, upd_ne _ _ other]
      exact entry_of_tableAt_eq_zero (empty _)

/-- **`userinit`** makes the first process. -/
theorem userinit_spec (inv : s.Inv S) (root : Nat) (stops : may .null) :
    Sat (sysContract may) (fun _ s' => s'.Inv S) (userinit root s) := by
  have idle : ∀ q, (s.procs q).state = .unused → s.kstackOf q = 0 := fun q unused => if_pos unused
  unfold userinit
  refine (allocproc_spec inv.files idle).seq fun r s1 post => ?_
  cases r with
  | none => exact Or.inr stops
  | some np =>
    obtain ⟨k, m, unused, kNonzero, rfl, -, words, files⟩ := post
    have none_ : s.dirOf (some np) = 0 := if_pos unused
    refine (vm_spec (kptAlloc_spec files.kept fun _ => trivial)).seq fun d s2 post => ?_
    obtain ⟨m1, rfl, nonzero, fresh, kept1, same1, cleared, -⟩ := post
    have kept1 := kept1.adopt (r := some np) fresh none_ cleared
    have empty : ∀ i, tableAt m1.words d i = 0 := fun i => by simp [tableAt, cleared]
    refine Sat.step (setProc_apply ..) ?_
    have filled : Sat (vmContract may) _ (inituvm d m1) :=
      inituvm_spec kept1 (setDir_same ..) nonzero empty stops
    refine (vm_spec filled).seq fun _ s3 post => ?_
    obtain ⟨m2, rfl, kept2, apart, space⟩ := post
    refine Sat.step (Act.modify_apply ..) ?_
    simp only [setProc_apply, Sys.embryonic, upd_same, Kernel.upd_idem]
    refine inv.enroll (p := np) (fun q other => upd_ne _ _ other) (upd_same _ _ _) rfl kNonzero
      nonzero (inv.files.reslot kept2 (by rfl) _ _) ?_ ?_ space (Option.some_ne_none root)
      (Int.le_add_one le_rfl) (Int.lt_succ s.nextpid) rfl
    · rw [← words]
      have apart := Apart.setDir.1 apart
      have first : Apart _ (some np) m.words m1.words := same1.apart
      exact ⟨(first.trans apart).tables, (first.trans apart).entries⟩
    · show PTE_SZ < UADDR_SZ
      decide

/-- **Booting** ends in the invariant. -/
theorem boot_spec {km : Kmem} {N P : Nat} (heap : Kernel.HeapInv N P ∅ km)
    (above : BOOT_END ≤ km.startHeap) {boot : List Nat} (pool : BootPool boot) (fails : List Bool)
    (root : Nat) (all : ∀ e, may e) :
    Sat (sysContract may) (fun _ s => s.Inv ⟨N, P, km, boot⟩)
      (Vm.boot root (Sys.zeroed km boot fails)) := by
  unfold Vm.boot
  refine (trapInit_spec (zeroed_files heap above pool fails) (fun _ => rfl) (all _)).seq
    fun _ s1 post => userinit_spec ?_ root (all _)
  obtain ⟨files, booted, procs, nextpid, -⟩ := post
  have unused : ∀ q, (s1.procs q).state = .unused := fun q => by rw [procs]; rfl
  have kstack : s1.kstackOf = fun _ => 0 := funext fun q => if_pos (unused q)
  have dir : s1.dirOf = fun _ => 0 := by
    funext r
    cases r with
    | none => rfl
    | some q => exact if_pos (unused q)
  refine ⟨kstack ▸ dir ▸ files, fun q => ?_, ?_, booted⟩
  · have free : ∀ {P : Prop}, (s1.procs q).state ≠ .unused → P := fun used => absurd (unused q) used
    refine ⟨free, free, free, free, fun _ fd => ?_, fun running => ?_, ?_⟩
    · rw [procs]
      rfl
    · rw [unused] at running
      cases running
    · rw [procs, nextpid]
      exact Int.one_pos
  · rw [nextpid]
    exact Int.one_pos

/-! ## Runs -/

theorem Sys.Inv.entered (inv : s.Inv S) : s.entered.Inv S := by
  have kept : Kept S s.owners ∅ { s.mem with misses := [] } :=
    inv.files.kept.congr rfl rfl rfl rfl
  exact inv.remem kept (fun q used => (inv.procs q).space used) s.irefs

theorem stored_spec {x : C Int} {Q : Int → Sys → Prop} {C : Contract Sys VmPanic VmEvent}
    (sat : Sat C Q (x s)) : Sat C (fun e s' => e.r0 = e.ret ∧ Q e.ret s') (stored x s) :=
  sat.seq fun _ _ post => ⟨rfl, post⟩

/-- **Every call keeps the invariant**, and page tables go back where they came from. -/
theorem Sys.Inv.outcome (inv : s.Inv S) {c : VmCall} {o : Outcome Sys VmPanic VmEvent Execed}
    (made : s.outcome p c = some o) :
    Sat (sysContract fun _ => True) (fun _ s' => s'.Inv S) o := by
  have inv := inv.entered
  unfold Sys.outcome at made
  split at made
  case isFalse => cases made
  case isTrue running =>
    obtain ⟨x, isX, rfl⟩ := Option.map_eq_some_iff.1 made
    have running : (s.entered.procs p).state = .runnable := running
    -- most calls return what they store
    have plain : ∀ {y : C Int}, Sat (sysContract fun _ => True) (fun _ s' => s'.Inv S) (y s.entered) →
        Sat (sysContract fun _ => True) (fun _ s' => s'.Inv S) (stored y s.entered) :=
      fun sat => (stored_spec sat).mono fun _ _ post => post.2
    cases c with
    | fork =>
      obtain rfl := Option.some.inj isX
      exact plain ((fork_spec inv running (fun _ => ⟨trivial, trivial⟩) fun _ => trivial).mono
        fun _ _ done => done.inv inv)
    | sbrk n =>
      obtain rfl := Option.some.inj isX
      have low : -2147483648 ≤ n.toInt := BitVec.le_toInt n
      have high : n.toInt < 2147483648 := BitVec.toInt_lt
      exact plain ((sysSbrk_spec inv running low high fun _ => trivial).mono
        fun _ _ done => done.inv inv running)
    | exec img =>
      obtain rfl := Option.some.inj isX
      exact (exec_spec inv running img (fun _ => trivial) fun _ _ => trivial).mono
        fun _ _ done => done.inv
    | exit =>
      obtain rfl := Option.some.inj isX
      exact plain (exit_spec inv running trivial)
    | wait q =>
      simp only [VmCall.code] at isX
      split at isX
      case isFalse => cases isX
      case isTrue zombie =>
        obtain rfl := Option.some.inj isX
        exact plain (reap_spec inv zombie)
    | pipe =>
      obtain rfl := Option.some.inj isX
      exact plain ((sysPipe_spec inv.files p).mono fun _ _ post =>
        inv.callOnly running post.2 post.1)
    | close fd =>
      obtain ⟨i, isSet, rfl⟩ := Option.map_eq_some_iff.1 isX
      exact plain ((sysClose_spec inv.files isSet).mono fun _ _ post =>
        inv.callOnly running post.2 post.1)
    | dup fd =>
      obtain ⟨i, isSet, rfl⟩ := Option.map_eq_some_iff.1 isX
      exact plain ((sysDup_spec inv.files (inv.files.used isSet)).mono fun _ _ post =>
        inv.callOnly running post.2 post.1)
    | open_ ip writable =>
      obtain rfl := Option.some.inj isX
      exact plain ((sysOpen_spec inv.files p ip writable).mono fun _ _ post =>
        inv.callOnly running post.2 post.1)
    | chdir ip =>
      obtain rfl := Option.some.inj isX
      exact plain (sysChdir_spec inv running ip)

theorem Sys.Inv.step (inv : s.Inv S) {op : Pid × VmCall} {seen : List VmEvent}
    (stepped : s.step op = some (s', seen)) : s'.Inv S := by
  unfold Sys.step at stepped
  cases made : s.outcome op.1 op.2 with
  | none =>
    rw [made] at stepped
    cases stepped
  | some o =>
    rw [made] at stepped
    obtain ⟨x, returned, same⟩ := Option.map_eq_some_iff.1 stepped
    obtain ⟨rfl, -⟩ := Prod.mk.injEq .. ▸ same
    have leaf := (inv.outcome made).leaf fun _ _ => trivial
    rw [Outcome.leaf_of_value? returned] at leaf
    exact leaf

/-- **Every run keeps the invariant.** -/
theorem Sys.Inv.run (inv : s.Inv S) {ops : List (Pid × VmCall)} {z : Sys} {seen : List VmEvent}
    (ran : Machine.run Sys.step s ops = some (z, seen)) : z.Inv S :=
  Machine.run_keeps (I := fun _ s => s.Inv S) (fun _ _ _ _ _ inv stepped => inv.step stepped)
    ops [] s z seen inv ran

/-- **In every state of every run after booting the invariant holds.** -/
theorem reachable_inv {km : Kmem} {N P : Nat} (heap : Kernel.HeapInv N P ∅ km)
    (above : BOOT_END ≤ km.startHeap) {boot : List Nat} (pool : BootPool boot) {fails : List Bool}
    {root : Nat} (booted : (Vm.boot root (Sys.zeroed km boot fails)).leaf = .done () s)
    {ops : List (Pid × VmCall)} {z : Sys} {seen : List VmEvent}
    (ran : Machine.run Sys.step s ops = some (z, seen)) : z.Inv ⟨N, P, km, boot⟩ := by
  have leaf := (boot_spec heap above pool fails root fun _ => trivial).leaf fun _ _ => trivial
  rw [booted] at leaf
  exact Sys.Inv.run leaf ran

/-! ## Who holds what -/

/-- What the kernel's memory is used for: block `b` is held at `x`. -/
inductive Sys.Holds (s : Sys) : Place → Nat × Nat → Prop where
  | modeStack (i : Fin 4) : Holds s (.modeStack i) (s.modeStack i, PTE_SHIFT)
  | kstack (p : Pid) (used : (s.procs p).state ≠ .unused) :
      Holds s (.kstack p) ((s.procs p).kstack, PTE_SHIFT)
  | pipe (a : Nat) (isOpen : (s.pipes a).readopen = true ∨ (s.pipes a).writeopen = true) :
      Holds s (.pipe a) (a, PIPE_ORDER)
  | dir (p : Pid) (used : (s.procs p).state ≠ .unused) :
      Holds s (.dir (some p)) ((s.procs p).pgdir, PT_ORDER)
  | table (p : Pid) (i : Nat) (used : (s.procs p).state ≠ .unused)
      (there : tableAt s.mem.words (s.procs p).pgdir i ≠ 0) :
      Holds s (.table (some p) i) (tableAt s.mem.words (s.procs p).pgdir i, PT_ORDER)
  | page (p : Pid) (k : Nat) (used : (s.procs p).state ≠ .unused)
      (there : entry s.mem.words (s.procs p).pgdir k ≠ 0) :
      Holds s (.page (some p) k) (pageAt s.mem.words (s.procs p).pgdir k, PTE_SHIFT)

theorem used_of_dirOf {r : Root} (some_ : s.dirOf r ≠ 0) :
    ∃ p, r = some p ∧ (s.procs p).state ≠ .unused ∧ s.dirOf (some p) = (s.procs p).pgdir := by
  cases r with
  | none => exact absurd rfl some_
  | some p =>
    have used : (s.procs p).state ≠ .unused := fun unused => some_ (if_pos unused)
    exact ⟨p, rfl, used, dirOf_some used⟩

/-- What is held is what the view of the invariant names. -/
theorem Sys.Inv.holds_iff (inv : s.Inv S) {x : Place} {b : Nat × Nat} :
    s.Holds x b ↔ s.owners.block s.mem.words x = b ∧ b ≠ 0 := by
  constructor
  · intro holds
    have some_ : s.owners.address s.mem.words x = b.1 ∧ b.1 ≠ 0 ∧ x.order = b.2 := by
      cases holds with
      | modeStack i => exact ⟨rfl, inv.booted i, rfl⟩
      | kstack p used => exact ⟨kstackOf_eq used, (inv.procs p).kstack used, rfl⟩
      | pipe a isOpen =>
        have real : 0x80100000 ≤ a := isOpen.elim (inv.files.pipes.real a false)
          (inv.files.pipes.real a true)
        refine ⟨if_pos isOpen, ?_, rfl⟩
        show a ≠ 0
        omega
      | dir p used => exact ⟨dirOf_some used, (inv.procs p).pgdir used, rfl⟩
      | table p i used there => exact ⟨congrArg (tableAt s.mem.words · i) (dirOf_some used), there, rfl⟩
      | page p k used there =>
        exact ⟨congrArg (pageAt s.mem.words · k) (dirOf_some used),
          fun none_ => there (pageAt_eq_zero_iff.1 none_), rfl⟩
    obtain ⟨address, nonzero, order⟩ := some_
    have named : s.owners.address s.mem.words x ≠ 0 := address ▸ nonzero
    refine ⟨?_, fun isZero => nonzero (congrArg Prod.fst isZero)⟩
    rw [View.block_of_ne named, address, order]
  · rintro ⟨rfl, some_⟩
    have address := fun none_ => some_ (View.block_eq_zero_iff.2 none_)
    rw [View.block_of_ne address]
    cases x with
    | modeStack i => exact Holds.modeStack i
    | kstack p =>
      have used : (s.procs p).state ≠ .unused := fun unused => address (if_pos unused)
      have isK : s.owners.address s.mem.words (.kstack p) = (s.procs p).kstack :=
        kstackOf_eq used
      rw [isK]
      exact Holds.kstack p used
    | pipe a =>
      have isOpen : (s.pipes a).readopen = true ∨ (s.pipes a).writeopen = true :=
        not_not.1 fun shut => address (if_neg shut)
      have isA : s.owners.address s.mem.words (.pipe a) = a := if_pos isOpen
      rw [isA]
      exact Holds.pipe a isOpen
    | dir r =>
      obtain ⟨p, rfl, used, isDir⟩ := used_of_dirOf address
      have isD : s.owners.address s.mem.words (.dir (some p)) =
          (s.procs p).pgdir := isDir
      rw [isD]
      exact Holds.dir p used
    | table r i =>
      have some_ : s.dirOf r ≠ 0 := fun none_ => address (by
        show tableAt s.mem.words (s.dirOf r) i = 0
        rw [none_, tableAt_zero])
      obtain ⟨p, rfl, used, isDir⟩ := used_of_dirOf some_
      have there : tableAt s.mem.words (s.dirOf (some p)) i ≠ 0 := address
      show s.Holds _ (tableAt s.mem.words (s.dirOf (some p)) i, PT_ORDER)
      rw [isDir] at there ⊢
      exact Holds.table p i used there
    | page r k =>
      have some_ : s.dirOf r ≠ 0 := fun none_ => address (by
        show pageAt s.mem.words (s.dirOf r) k = 0
        rw [none_]
        exact pageAt_eq_zero_iff.2 (entry_zero ..))
      obtain ⟨p, rfl, used, isDir⟩ := used_of_dirOf some_
      have there : pageAt s.mem.words (s.dirOf (some p)) k ≠ 0 := address
      show s.Holds _ (pageAt s.mem.words (s.dirOf (some p)) k, PTE_SHIFT)
      rw [isDir] at there ⊢
      exact Holds.page p k used fun none_ => there (pageAt_eq_zero_iff.2 none_)

/-- A boot-time page table covers its own kilobyte below the heap. -/
theorem BootPool.covers {boot : List Nat} (pool : BootPool boot) {a v : Nat} (inBoot : v ∈ boot)
    (covers : Covers (v, PT_ORDER) a) : a < BOOT_END ∧ v = a / 1024 * 1024 := by
  have aligned := pool.aligned v inBoot
  have high : v < 0x80100000 := pool.high v inBoot
  have low : v ≤ a := covers.1
  have within : a < v + 1024 := covers.2
  show a < 0x80100000 ∧ _
  omega

/-- **Kernel memory is conserved**: the blocks outstanding from the buddy allocator are
those held, apart from boot-time page tables; a block is held in one place, and blocks
held in different places do not overlap. -/
structure Sys.Conserved (boot : List Nat) (s : Sys) : Prop where
  held : ∀ b, b ∈ s.mem.heap.live ↔ b.1 ∉ boot ∧ ∃ x, s.Holds x b
  once : ∀ x y b, s.Holds x b → s.Holds y b → x = y
  apart : ∀ x y b c a, s.Holds x b → s.Holds y c → Covers b a → Covers c a → x = y

theorem Sys.Inv.conserved (inv : s.Inv S) : s.Conserved S.boot := by
  have kept := inv.files.kept
  have out : ∀ {x b}, s.Holds x b → b ∈ s.mem.outstanding := by
    intro x b holds
    obtain ⟨rfl, nonzero⟩ := inv.holds_iff.1 holds
    exact (kept.owns.named x nonzero).1
  have once : ∀ x y b, s.Holds x b → s.Holds y b → x = y := by
    intro x y b atX atY
    obtain ⟨isX, nonzero⟩ := inv.holds_iff.1 atX
    obtain ⟨isY, -⟩ := inv.holds_iff.1 atY
    exact kept.owns.once x y (isX ▸ nonzero) (isX.trans isY.symm)
  refine ⟨fun b => ⟨fun live => ⟨fun inBoot => ?_, ?_⟩, ?_⟩, once, ?_⟩
  · exact absurd (kept.live_inside live).2 (Nat.not_le.2 (kept.pool.high _ inBoot))
  · have isOut : b ∈ s.mem.outstanding := Or.inl live
    obtain ⟨x, isX⟩ := (kept.owns.onto b isOut).resolve_left id
    exact ⟨x, inv.holds_iff.2 ⟨isX, kept.owns.nonzero b isOut⟩⟩
  · rintro ⟨notBoot, x, holds⟩
    rcases out holds with live | ⟨-, inBoot, -⟩
    · exact live
    · exact absurd (kept.boot ▸ inBoot) notBoot
  · intro x y b c a atX atY coversB coversC
    suffices same : b = c from once x y b atX (same ▸ atY)
    -- a block of the heap covers only heap, a boot-time page table only what is below
    have high : ∀ {d}, d ∈ s.mem.heap.live → Covers d a → BOOT_END ≤ a :=
      fun live covers => (kept.live_inside live).2.trans covers.1
    have low : ∀ {d : Nat × Nat}, d.2 = PT_ORDER → d.1 ∈ s.mem.boot → Covers d a →
        a < BOOT_END ∧ d = (a / 1024 * 1024, PT_ORDER) := by
      rintro ⟨v, order⟩ rfl inBoot covers
      obtain ⟨below, isV⟩ := kept.pool.covers (kept.boot ▸ inBoot) covers
      exact ⟨below, congrArg (·, PT_ORDER) isV⟩
    rcases out atX with liveB | ⟨tableB, bootB, -⟩
    · rcases out atY with liveC | ⟨tableC, bootC, -⟩
      · exact kept.heap.tiled.disjoint b c a (Or.inl liveB) (Or.inl liveC) coversB coversC
      · exact absurd (high liveB coversB) (Nat.not_le.2 (low tableC bootC coversC).1)
    · rcases out atY with liveC | ⟨tableC, bootC, -⟩
      · exact absurd (high liveC coversC) (Nat.not_le.2 (low tableB bootB coversB).1)
      · rw [(low tableB bootB coversB).2, (low tableC bootC coversC).2]

/-- A page table goes back to the pool it was taken from. -/
def VmEvent.Returned : VmEvent → Prop
  | .kptFree taken back => taken = some back

/-- **Kernel memory is conserved and process pages are exclusive.**  After booting, in
every state of every run of calls, whichever allocations fail, the blocks outstanding
from the buddy allocator are exactly those held, each in one place; and every page table
that a further call frees goes back to the pool it was taken from. -/
theorem memory_conserved {vend : Nat} (region : Region BOOT_END vend) (km : Kmem) {boot : List Nat}
    (pool : BootPool boot) (fails : List Bool) (root : Nat) :
    ∃ km0, Kmem.kmemInit2 BOOT_END vend km = .ok km0 ∧
      ∀ s, (Vm.boot root (Sys.zeroed km0 boot fails)).leaf = .done () s →
      ∀ ops z seen, Machine.run Sys.step s ops = some (z, seen) →
        z.Conserved boot ∧
        ∀ p c o, z.outcome p c = some o → ∀ e ∈ o.trace, e.1.Returned := by
  obtain ⟨N, P, km0, ready, heap, above, -⟩ := Kernel.kmemInit2_spec region km
  refine ⟨km0, ready, fun s booted ops z seen ran => ?_⟩
  have inv := reachable_inv heap above pool booted ran
  refine ⟨inv.conserved, fun p c o made e member => ?_⟩
  obtain ⟨before, after, split⟩ := List.append_of_mem member
  exact (inv.outcome made).shows split fun _ _ => trivial

/-- The state after booting with forty pages, if it passes a check. -/
theorem booted_checked (boot : List Nat) (fails : List Bool) (check : Sys → Bool)
    (works : (match Kmem.kmemInit2 BOOT_END (BOOT_END + 163840) noHeap with
      | .error _ => false
      | .ok km => (Vm.boot 1 (Sys.zeroed km boot fails)).passes fun _ => check) = true) :
    ∃ km0 s, Kmem.kmemInit2 BOOT_END (BOOT_END + 163840) noHeap = .ok km0 ∧
      (Vm.boot 1 (Sys.zeroed km0 boot fails)).leaf = .done () s ∧ check s = true := by
  split at works
  case h_1 => cases works
  case h_2 km ready =>
    obtain ⟨_, s, booted, checked⟩ := Outcome.exists_of_passes works
    exact ⟨km, s, ready, booted, checked⟩

/-- A heap of forty pages, three boot-time page tables, and calls of which the first finds
no memory for a kernel stack. -/
theorem memory_conserved_session :
    ∃ km0 s z seen,
      Kmem.kmemInit2 BOOT_END (BOOT_END + 163840) noHeap = .ok km0 ∧
      (Vm.boot 1 (Sys.zeroed km0 (bootTables VECTBL 60)
        [false, false, false, false, false, false, true])).leaf = .done () s ∧
      Machine.run Sys.step s [(0, .fork), (0, .fork), (0, .pipe), (0, .sbrk 5000#32), (1, .exit),
        (0, .wait 1), (0, .close 0)] = some (z, seen) ∧ z.Conserved (bootTables VECTBL 60) := by
  obtain ⟨km0, s, ready, booted, works⟩ := booted_checked (bootTables VECTBL 60)
    [false, false, false, false, false, false, true] (fun s => (Machine.run Sys.step s [(0, .fork),
      (0, .fork), (0, .pipe), (0, .sbrk 5000#32), (1, .exit), (0, .wait 1), (0, .close 0)]).isSome)
    (by decide +kernel)
  obtain ⟨km', ready', runs⟩ := memory_conserved region_small noHeap
    (bootPool_main (by decide) le_rfl 60) [false, false, false, false, false, false, true] 1
  obtain rfl : km0 = km' := Except.ok.inj (ready.symm.trans ready')
  obtain ⟨⟨z, seen⟩, ran⟩ := Option.isSome_iff_exists.1 works
  exact ⟨km0, s, z, seen, ready, booted, ran, (runs s booted _ z seen ran).1⟩

/-! ## Who has which file open -/

/-- A descriptor of some process is for file structure `i`. -/
def Sys.Open (s : Sys) (i : FileId) : Prop := ∃ p fd, (s.procs p).ofile fd = some i

/-- A file structure counts its descriptors and is in use as long as there is one; an end of a pipe is
open as long as someone has it open. -/
structure Sys.FilesExact (s : Sys) : Prop where
  refs : ∀ i, (s.files i).ref = refCount s.fds i
  inUse : ∀ i, s.Open i ↔ 0 < (s.files i).ref
  idle : ∀ i, ¬ s.Open i → (s.files i).type = .none
  ends : ∀ a writable, (s.pipes a).flag writable = true ↔ ∃ i, s.Open i ∧ (s.files i).IsEnd a writable

theorem Sys.Inv.filesExact {S : Setup} {s : Sys} (inv : s.Inv S) : s.FilesExact := by
  have refs : ∀ i, (s.files i).ref = refCount s.fds i := fun i => by
    have exact_ := inv.files.refs i
    omega
  have inUse : ∀ i, s.Open i ↔ 0 < (s.files i).ref := by
    intro i
    rw [refs i]
    constructor
    · rintro ⟨p, fd, points⟩
      exact refCount_pos (i := (p, fd)) points
    · intro some_
      obtain ⟨⟨p, fd⟩, points⟩ := exists_of_refCount_pos some_
      exact ⟨p, fd, points⟩
  refine ⟨refs, inUse, fun i closed => ?_, fun a writable => ?_⟩
  · rw [inUse i] at closed
    exact inv.files.pipes.idle i (Nat.eq_zero_of_not_pos closed)
  · rw [inv.files.pipes.open_iff]
    constructor
    · rintro ⟨i, isEnd⟩
      exact ⟨i, (inUse i).2 isEnd.inUse, isEnd⟩
    · rintro ⟨i, -, isEnd⟩
      exact ⟨i, isEnd⟩

/-- **File structures count their descriptors.**  After booting, in every state of every run of calls,
whichever allocations fail. -/
theorem fileTable_exact {vend : Nat} (region : Region BOOT_END vend) (km : Kmem) {boot : List Nat}
    (pool : BootPool boot) (fails : List Bool) (root : Nat) :
    ∃ km0, Kmem.kmemInit2 BOOT_END vend km = .ok km0 ∧
      ∀ s, (Vm.boot root (Sys.zeroed km0 boot fails)).leaf = .done () s →
      ∀ ops z seen, Machine.run Sys.step s ops = some (z, seen) → z.FilesExact := by
  obtain ⟨N, P, km0, ready, heap, above, -⟩ := Kernel.kmemInit2_spec region km
  exact ⟨km0, ready, fun s booted ops z seen ran => (reachable_inv heap above pool booted ran).filesExact⟩

/-- A pipe is made, inherited and closed at one end by the child. -/
theorem fileTable_exact_session :
    ∃ km0 s z seen, Kmem.kmemInit2 BOOT_END (BOOT_END + 163840) noHeap = .ok km0 ∧
      (Vm.boot 1 (Sys.zeroed km0 (bootTables VECTBL 60) [])).leaf = .done () s ∧
      Machine.run Sys.step s [(0, .pipe), (0, .fork), (1, .close 0), (0, .dup 1)] = some (z, seen) ∧
      z.FilesExact := by
  obtain ⟨km0, s, ready, booted, works⟩ := booted_checked (bootTables VECTBL 60) [] (fun s =>
    (Machine.run Sys.step s [(0, .pipe), (0, .fork), (1, .close 0), (0, .dup 1)]).isSome) (by decide +kernel)
  obtain ⟨km', ready', runs⟩ := fileTable_exact region_small noHeap (bootPool_main (by decide) le_rfl 60) [] 1
  obtain rfl : km0 = km' := Except.ok.inj (ready.symm.trans ready')
  obtain ⟨⟨z, seen⟩, ran⟩ := Option.isSome_iff_exists.1 works
  exact ⟨km0, s, z, seen, ready, booted, ran, runs s booted _ z seen ran⟩

end Xv6Rpi.Proc.Vm
