/-
# Proc.ExecRun -- the whole of `exec`

`exec` either enters the new image or gives up.  To give up it frees the image that it has built
so far, and that is all there is to undo (`Restored`), but for two slips: a file without a proper
header makes it free a directory before it has one, and the registers that will hold the
arguments are set before the vector of arguments is known to fit (`Spills`).
-/
import Xv6Rpi.Proc.ExecArgs

namespace Xv6Rpi.Proc.Exec

open Theory
open Proc.Vm
open Kernel (upd upd_same upd_ne upd_idem)

set_option autoImplicit false

/-! ## Contracts -/

/-- What a call of `exec` owes: it does not sleep, it stops only as its verdict says, and page tables
go back where they came from. -/
def execStops (v : Verdict) : XContract where
  rest := fun _ => False
  fails := fun e t => e = .oom ∧ PT_ORDER ∈ t.mem.misses ∧ v = .starves ∨ v.panics e
  shows := fun | .kptFree taken back, _ => taken = some back
  given := fun _ => True

/-- A contract under which page tables may go back where they came from. -/
def GivesBack (D : XContract) : Prop :=
  ∀ pool t, D.shows (.kptFree (some pool) pool) t

section Vm

variable {short : Prop} {may : VmPanic → Prop} {D : XContract} {α : Type} {x : V α}
  {Q : α → VMem → Prop} {t : Task} {v : Verdict}

theorem execStops_givesBack : GivesBack (execStops v) := fun _ _ => rfl

/-- Code of `vm.c` as part of `exec`. -/
theorem vm_sat (back : GivesBack D) (sat : Sat (vmStops short may) Q (x t.mem))
    (fails : ∀ e m, (vmStops short may).fails e m → D.fails e { t with mem := m }) :
    Sat D (fun a t' => ∃ m', t' = { t with mem := m' } ∧ Q a m') (vm x t) := by
  refine sat.zoom (fun m (t : Task) => { t with mem := m }) (fun _ => id) fails (fun v m shown => ?_)
    fun _ _ => trivial
  obtain ⟨taken, pool⟩ := v
  obtain rfl : taken = some pool := shown
  exact back pool _

theorem vm_stops (sat : Sat (vmStops (v = .starves) v.panics) Q (x t.mem)) :
    Sat (execStops v) (fun a t' => ∃ m', t' = { t with mem := m' } ∧ Q a m') (vm x t) :=
  vm_sat execStops_givesBack sat fun _ _ => id

theorem vm_done {a : α} {m' : VMem} (eq : x t.mem = .done a m') :
    vm x t = .done a { t with mem := m' } := by
  rw [vm, Act.zoom, eq]
  rfl

theorem vm_fail {e : VmPanic} {m' : VMem} (eq : x t.mem = .fail e m') :
    vm x t = .fail e { t with mem := m' } := by
  rw [vm, Act.zoom, eq]
  rfl

end Vm

/-! ## Giving up -/

/-- What was outstanding at first is there as it was, and nothing else. -/
structure Restored (S : Setup) (m0 m : VMem) : Prop where
  memory : Kept S nowhere m0.outstanding m
  tables : KeepsTables m0 m
  bytes : KeepsBytes m0 m

section GiveUp

variable {S : Setup} {m0 m : VMem} {d n : Nat} {t : Task}

/-- **`freevm` of an image without a gap** frees all of it. -/
theorem Built.freevm {C : VContract} (back : ReturnsTables C)
    (built : Built S m0 d n m) : Sat C (fun _ m' => Restored S m0 m') (Vm.freevm d m) := by
  have nothing : leaked m.words d = ∅ := by
    refine Set.eq_empty_of_forall_notMem ?_
    rintro b ⟨k, some_, ⟨later, start, gap⟩, -⟩
    have below := (built.only k).1 some_
    have before : (k - 1) / 256 = k / 256 - 1 := by omega
    exact built.reaches (k - 1) (by omega) (before ▸ gap)
  refine (Fixes.also (f := VMem.bytes) (built.held.freevm back)).mono fun _ m' post => ?_
  obtain ⟨⟨memory, others, -⟩, bytes⟩ := post
  rw [nothing, Set.union_empty] at memory
  refine ⟨memory, fun u out => (others u out).trans (built.tables u out), fun a out i small => ?_⟩
  rw [bytes]
  exact built.bytes a out i small

/-- The image is given up, under any contract. -/
theorem Built.giveUp {D : XContract} (back : GivesBack D)
    (built : Built S m0 d n t.mem) :
    Sat D (fun _ t' => ∃ m', t' = { t with mem := m' } ∧ Restored S m0 m') (vm (Vm.freevm d) t) := by
  have freed : Sat (vmStops False fun _ => False) _ (Vm.freevm d t.mem) :=
    built.freevm vmStops_returnsTables
  exact vm_sat back freed fun e m never => never.elim (fun both => both.2.2.elim) fun never => never.elim

/-- `bad:` puts everything back. -/
theorem Built.bad {D : XContract} (back : GivesBack D)
    (built : Built S m0 d n t.mem) :
    Sat D (fun r t' => r = -1 ∧ ∃ m', t' = { t with mem := m' } ∧ Restored S m0 m') (bad d t) :=
  (built.giveUp back).seq fun _ _ post => ⟨rfl, post⟩

end GiveUp

/-! ## Making the image -/

/-- `iunlockput` has been called. -/
def released (ip : Nat) (t : Task) : Task :=
  { t with locked := upd t.locked ip false, irefs := upd t.irefs ip (t.irefs ip - 1) }

section Image

variable {S : Setup} {t : Task} {f : FileBytes} {v : Verdict}

/-- What loading comes to. -/
def ImageLoaded (S : Setup) (m0 : VMem) (f : FileBytes) : Option (Nat × Nat) → VMem → Prop
  | none, m' => Restored S m0 m' ∧ program f m0.supply = .error .refuses
  | some (d, sz), m' => sz < UADDR_SZ ∧ Built S m0 d (pages sz) m' ∧ Tidy m'.words d (pages sz) ∧
      program f m0.supply = .ok (sz, m'.supply) ∧
      (∀ ph ∈ loadable (proghdrs f),
        ph.filesz ≤ ph.memsz ∧ (0 < ph.filesz → ph.off + ph.filesz ≤ f.size)) ∧
      ((∀ ph ∈ loadable (proghdrs f), ph.vaddr + ph.memsz < UINTS) →
        (∀ ph ∈ loadable (proghdrs f), ph.vaddr + ph.memsz ≤ sz) ∧
        Shows m' d (pages sz) (imageOf f (loadable (proghdrs f)) fun _ => 0))

theorem proghdrs_off {ph : Proghdr} (member : some ph ∈ proghdrs f) : ph.off < UINTS := by
  obtain ⟨i, -, eq⟩ := List.mem_map.1 member
  unfold proghdr at eq
  split at eq
  · cases eq
  · obtain rfl := Option.some.inj eq
    exact Bytes.u32_lt _ _

theorem execLoad_sat (memory : Kept S nowhere t.mem.outstanding t.mem) (ip : Nat)
    (starves : program f t.mem.supply = .error .starves → v = .starves)
    (breaks : program f t.mem.supply = .error .breaks → v = .breaks) :
    Sat (execStops v) (fun res t' => ∃ m', t' = released ip { t with mem := m' } ∧
      ImageLoaded S t.mem f res m') (execLoad ip f t) := by
  have why : t.mem.supply.give .table = none → v = .starves := by
    intro none_
    refine starves ?_
    rw [program, none_]
  refine (vm_stops (Built.start memory why)).seq fun d t1 post => ?_
  obtain ⟨m1, rfl, built, tidy, shows, served⟩ := post
  have isPlan : program f t.mem.supply = loads f (proghdrs f) 0 m1.supply := by
    rw [program, served]
  rw [isPlan] at starves breaks
  have loaded : Sat (vmStops (v = .starves) v.panics)
      (Loaded S t.mem d f (loadable (proghdrs f)) 0 (loads f (proghdrs f) 0 m1.supply) m1)
      (Exec.loadProgram d f (proghdrs f) 0 m1) :=
    Built.loadProgram f (proghdrs f) 0 m1 built tidy (by decide)
      (fun k never => absurd never (Nat.not_lt_zero k)) (fun ph member => proghdrs_off member) starves
      fun outside e => breaks outside ▸ id
  refine (vm_stops loaded).seq fun res t2 post => ?_
  obtain ⟨m2, rfl, loaded⟩ := post
  match res, loaded with
  | none, ⟨⟨n, built2⟩, plan⟩ =>
    refine (Built.giveUp execStops_givesBack (t := { t with mem := m2 }) built2).seq
      fun _ t3 post => ?_
    obtain ⟨m3, rfl, restored⟩ := post
    exact ⟨m3, rfl, restored, isPlan.trans plan⟩
  | some sz, ⟨small, built2, tidy2, plan, _, inFile, sound⟩ =>
    refine ⟨m2, rfl, small, built2, tidy2, isPlan.trans plan, inFile, fun noWrap => ?_⟩
    obtain ⟨-, ends, image⟩ := sound noWrap
    exact ⟨ends, image _ shows⟩

/-- The image of a file, with `n` pages and a stack. -/
structure ImageAt (S : Setup) (m0 : VMem) (f : FileBytes) (d n : Nat) (m : VMem) : Prop where
  stacked : Stacked S m0 d n m
  inFile : ∀ ph ∈ loadable (proghdrs f),
    ph.filesz ≤ ph.memsz ∧ (0 < ph.filesz → ph.off + ph.filesz ≤ f.size)
  image : (∀ ph ∈ loadable (proghdrs f), ph.vaddr + ph.memsz < UINTS) →
    (∀ ph ∈ loadable (proghdrs f), ph.vaddr + ph.memsz ≤ PTE_SZ * n) ∧
    Shows m d (n + 2) (imageOf f (loadable (proghdrs f)) fun _ => 0)

/-- What making the image comes to. -/
def ImageMade (S : Setup) (m0 : VMem) (f : FileBytes) : Option (Nat × Nat) → VMem → Prop
  | none, m' => Restored S m0 m' ∧ makes f m0.supply = .error .refuses
  | some (d, top), m' => makes f m0.supply = .ok (top, m'.supply) ∧
      ∃ n, top = topOf n ∧ ImageAt S m0 f d n m'

-- a goal about it must not make Lean compute sizes
attribute [local irreducible] Exec.stackPages grow

/-- **The image is made**, or nothing is left of it, as `makes` says. -/
theorem execImage_sat (memory : Kept S nowhere t.mem.outstanding t.mem) (ip : Nat)
    (starves : makes f t.mem.supply = .error .starves → v = .starves)
    (breaks : makes f t.mem.supply = .error .breaks → v = .breaks) :
    Sat (execStops v) (fun res t' => ∃ m', t' = released ip { t with mem := m' } ∧
      ImageMade S t.mem f res m') (execImage ip f t) := by
  have fails : ∀ w, program f t.mem.supply = .error w → makes f t.mem.supply = .error w := by
    intro w failed
    rw [makes, failed]
    rfl
  refine (execLoad_sat memory ip (fun h => starves (fails _ h)) fun h => breaks (fails _ h)).seq
    fun res t1 post => ?_
  obtain ⟨m1, rfl, loaded⟩ := post
  match res, loaded with
  | none, ⟨restored, plan⟩ => exact ⟨m1, rfl, restored, fails _ plan⟩
  | some (d, sz), ⟨small, built, tidy, plan, inFile, sound⟩ =>
    have isPlan : makes f t.mem.supply =
        grow (PTE_SZ * pages sz) (PTE_SZ * (pages sz + 2)) m1.supply := by
      rw [makes, plan]
      rfl
    rw [isPlan] at starves
    have stacked : Sat (vmStops (v = .starves) v.panics)
        (StackMade S t.mem d (pages sz) (grow (PTE_SZ * pages sz) (PTE_SZ * (pages sz + 2)) m1.supply) m1)
        (Exec.stackPages d sz m1) := built.stackPages tidy small rfl starves
    refine (vm_stops stacked).seq fun res2 t2 post => ?_
    obtain ⟨m2, rfl, made⟩ := post
    match res2, made with
    | none, ⟨⟨n, built2⟩, plan2⟩ =>
      refine (Built.giveUp execStops_givesBack
        (t := { released ip { t with mem := m1 } with mem := m2 }) built2).seq fun _ t3 post => ?_
      obtain ⟨m3, rfl, restored⟩ := post
      exact ⟨m3, rfl, restored, isPlan.trans plan2⟩
    | some top, ⟨isTop, stacked, plan2, shows⟩ =>
      refine ⟨m2, rfl, isPlan.trans plan2, pages sz, isTop, stacked, inFile, fun noWrap => ?_⟩
      obtain ⟨ends, image⟩ := sound noWrap
      exact ⟨fun ph member => (ends ph member).trans (le_pages sz), shows _ image⟩

end Image

/-! ## Entering it -/

/-- Where the vector goes in an image that ends at `top`. -/
def vectorIn (argv : Argv) (top : Nat) : Nat :=
  top - stringBytes argv - 4 * (argv.length + 1)

/-- The registers for the arguments. -/
def withArgs (argv : Argv) (top : Nat) (tf : Trapframe) : Trapframe :=
  { tf with r0 := argv.length, r1 := vectorIn argv top }

/-- The process with its new image. -/
def committed (path : List Byte) (f : FileBytes) (pgdir sz sp : Nat) (t : Task) : Task :=
  { t with
    name := safestrcpy t.name (lastPart path path) 16
    pgdir := pgdir
    sz := sz
    tf := { t.tf with pc := f.entry, spUsr := sp } }

/-- The process has entered an image with `n` pages and a stack. -/
structure Entered (S : Setup) (R : Set (Nat × Nat)) (m0 : VMem) (d n : Nat) (path : List Byte)
    (f : FileBytes) (argv : Argv) (t t' : Task) : Prop where
  room : stringBytes argv + 4 * (argv.length + 1) ≤ PTE_SZ
  few : argv.length ≤ MAXARG
  task : t' = { committed path f d (topOf n) (vectorIn argv (topOf n))
    { t with tf := withArgs argv (topOf n) t.tf } with mem := t'.mem }
  held : Held S d (R ∪ leaked m0.words t.pgdir) t'.mem
  others : ∀ u, (u, PT_ORDER) ∈ R → t'.mem.words u = m0.words u
  only : ∀ k, entry t'.mem.words d k ≠ 0 ↔ k < n + 2
  tidy : Tidy t'.mem.words d (n + 2)
  guard : pteAp (entry t'.mem.words d n) = AP_KO
  fresh : ∀ k, entry t'.mem.words d k ≠ 0 → (pageAt t'.mem.words d k, PTE_SHIFT) ∉ m0.outstanding
  shows : ∀ g, Shows t.mem d (n + 2) g → Shows t'.mem d (n + 2)
    (placed (withStrings argv (topOf n) g) (vectorIn argv (topOf n))
      (vectorBytes (stringAddrs argv (topOf n))))

/-- What the arguments come to: the registers have been set too early, if the vector is what does
not fit. -/
def ArgsDone (S : Setup) (R : Set (Nat × Nat)) (m0 : VMem) (d n : Nat) (path : List Byte)
    (f : FileBytes) (argv : Argv) (t : Task) (r : Int) (t' : Task) : Prop :=
  (r = -1 ∧ argsVerdict argv (topOf n) = .refuses ∧ ∃ m', Restored S m0 m' ∧ t' = { t with
    mem := m'
    tf := if Spills argv then withArgs argv (topOf n) t.tf else t.tf }) ∨
  (r = 0 ∧ argsVerdict argv (topOf n) = .succeeds ∧ Entered S R m0 d n path f argv t t')

section Enter

variable {S : Setup} {R : Set (Nat × Nat)} {m0 m : VMem} {d n : Nat} {t : Task}
  {path : List Byte} {f : FileBytes} {argv : Argv}
  {D : XContract}

/-- The old image goes; the new one stays as it is. -/
theorem Stacked.leave {q : Nat} {C : VContract} (back : ReturnsTables C)
    (stacked : Stacked S m0 d n m) (old : Held S q R m0) :
    Sat C (fun _ m' => Held S d (R ∪ leaked m0.words q) m' ∧
      (∀ u, (u, PT_ORDER) ∈ R → m'.words u = m0.words u) ∧
      (∀ i, tableAt m'.words d i = tableAt m.words d i) ∧
      (∀ k, entry m'.words d k = entry m.words d k) ∧ m'.bytes = m.bytes) (Vm.freevm q m) := by
  have new := stacked.built.held
  have beside := old.beside new stacked.built.tables
  obtain ⟨tables, entries⟩ := old.same_spaces stacked.built.tables
  have same : leaked m.words q = leaked m0.words q := by
    simp only [leaked, skips, pageAt, entries, tables]
  have before : R ∪ leaked m0.words q ⊆ m0.outstanding := by
    rintro b (rest | ⟨k, some_, -, rfl⟩)
    · exact old.owns.loose_used b rest
    · exact (old.named (x := .page k) (mt pageAt_eq_zero_iff.1 some_)).1
  refine (Fixes.also (f := VMem.bytes) (beside.freevm back)).mono fun _ m' post => ?_
  obtain ⟨⟨memory, others, -⟩, bytes⟩ := post
  rw [same, Set.union_right_comm] at memory
  obtain ⟨held', tables', entries'⟩ := new.shrink before memory fun u mine => others u (Or.inr mine)
  refine ⟨held', fun u other => ?_, tables', entries', bytes⟩
  rw [others u (Or.inl other)]
  exact stacked.built.tables u (before (Or.inl other))

/-- What the process finds in the new image is what has been put there. -/
theorem Stacked.entered {t' : Task} (stacked : Stacked S m0 d n m)
    (room : stringBytes argv + 4 * (argv.length + 1) ≤ PTE_SZ) (few : argv.length ≤ MAXARG)
    (task : t' = { committed path f d (topOf n) (vectorIn argv (topOf n))
      { t with tf := withArgs argv (topOf n) t.tf } with mem := t'.mem })
    (held : Held S d (R ∪ leaked m0.words t.pgdir) t'.mem)
    (others : ∀ u, (u, PT_ORDER) ∈ R → t'.mem.words u = m0.words u)
    (tables : ∀ i, tableAt t'.mem.words d i = tableAt m.words d i)
    (entries : ∀ k, entry t'.mem.words d k = entry m.words d k) (bytes : t'.mem.bytes = m.bytes)
    (shows : ∀ g, Shows t.mem d (n + 2) g → Shows m d (n + 2)
      (placed (withStrings argv (topOf n) g) (vectorIn argv (topOf n))
        (vectorBytes (stringAddrs argv (topOf n))))) :
    Entered S R m0 d n path f argv t t' := by
  have samePage : ∀ k, pageAt t'.mem.words d k = pageAt m.words d k := by
    intro k
    simp only [pageAt, entries]
  refine ⟨room, few, task, held, others, fun k => entries k ▸ stacked.built.only k, ?_, ?_,
    fun k some_ => ?_, fun g start => ⟨fun va below => ?_, (shows g start).past⟩⟩
  · rw [Tidy, ← stacked.tidy]
    funext i
    simp only [tabled, tables]
  · rw [entries]
    exact stacked.guard
  · rw [samePage]
    rw [entries] at some_
    exact (stacked.built.held.named (x := .page k) (mt pageAt_eq_zero_iff.1 some_)).2
  · rw [← (shows g start).inside va below, VMem.user, samePage, bytes]
    rfl

/-- The process takes the new image. -/
theorem Stacked.commit (back : GivesBack D) (stacked : Stacked S m0 d n t.mem)
    (old : Held S t.pgdir R m0) (sz sp : Nat) :
    Sat D (fun r t' => r = 0 ∧ t' = { committed path f d sz sp t with mem := t'.mem } ∧
      Held S d (R ∪ leaked m0.words t.pgdir) t'.mem ∧
      (∀ u, (u, PT_ORDER) ∈ R → t'.mem.words u = m0.words u) ∧
      (∀ i, tableAt t'.mem.words d i = tableAt t.mem.words d i) ∧
      (∀ k, entry t'.mem.words d k = entry t.mem.words d k) ∧
      t'.mem.bytes = t.mem.bytes) (commit path f d sz sp t) := by
  have left : Sat (vmStops False fun _ => False) _
      (Vm.freevm t.pgdir (committed path f d sz sp t).mem) :=
    stacked.leave vmStops_returnsTables old
  refine Sat.step rfl (Sat.step rfl ?_)
  refine (vm_sat back left fun e m never => never.elim (fun both => both.2.2.elim)
    fun never => never.elim).seq fun _ t' post => ?_
  obtain ⟨m', rfl, same⟩ := post
  exact ⟨rfl, rfl, same⟩

/-- The strings fit in the stack page if they take no more than a page. -/
theorem fits_stack_iff (small : topOf n < UADDR_SZ) :
    Fits (PTE_SZ * (n + 1)) argv (topOf n) ↔ stringBytes argv ≤ PTE_SZ := by
  have small : 4096 * (n + 2) < 268435456 := small
  have top : topOf n < UINTS := by
    show 4096 * (n + 2) < 4294967296
    omega
  rw [fits_iff (by show 0 < 4096 * (n + 1); omega) top (by show 4096 * (n + 2) % 4 = 0; omega)
    (by show 4096 * (n + 1) ≤ 4096 * (n + 2); omega)]
  show 4096 * (n + 1) + stringBytes argv ≤ 4096 * (n + 2) ↔ stringBytes argv ≤ 4096
  omega

theorem Entered.fits {t' : Task} (entered : Entered S R m0 d n path f argv t t')
    (small : topOf n < UADDR_SZ) : Fits (PTE_SZ * (n + 1)) argv (topOf n) :=
  (fits_stack_iff small).2 ((Nat.le_add_right _ _).trans entered.room)

/-- The verdict on the arguments, by how the strings fit. -/
theorem argsVerdict_eq (argv : Argv) (n : Nat) :
    argsVerdict argv (topOf n) =
      if Wraps (PTE_SZ * (n + 1)) (argv.take MAXARG) (topOf n) then .wraps
      else if Roomy argv then .succeeds
      else .refuses := by
  have base : topOf n - PTE_SZ = PTE_SZ * (n + 1) := by
    show 4096 * (n + 2) - 4096 = 4096 * (n + 1)
    omega
  rw [argsVerdict, base]

/-- Strings that fit do not wrap around. -/
theorem argsVerdict_fits (small : topOf n < UADDR_SZ) (most : argv.length ≤ MAXARG)
    (fits : stringBytes argv ≤ PTE_SZ) :
    argsVerdict argv (topOf n) = if Roomy argv then .succeeds else .refuses := by
  have noWrap := ((fits_stack_iff small).2 fits).not_wraps
  rw [argsVerdict_eq, List.take_of_length_le most, if_neg noWrap]

/-- **The arguments**: the new image is entered, or everything is put back but for the registers of
the arguments. -/
theorem Stacked.execArgs (path : List Byte) (f : FileBytes) (back : GivesBack D)
    (stacked : Stacked S m0 d n t.mem) (old : Held S t.pgdir R m0)
    (short_ : ∀ s ∈ argv, s.length < UADDR_SZ)
    (wraps : argsVerdict argv (topOf n) = .wraps → ∀ t', D.fails .overrun t') :
    Sat D (ArgsDone S R m0 d n path f argv t) (Exec.execArgs path f argv d (topOf n) t) := by
  obtain ⟨small, aligned, low⟩ := stacked.top_bounds
  have fitsIff : Fits (PTE_SZ * (n + 1)) argv (topOf n) ↔ stringBytes argv ≤ PTE_SZ :=
    fits_stack_iff stacked.small
  have strings := Stacked.pushStrings argv 0 _ t.mem stacked low le_rfl aligned (by decide) short_
  unfold Exec.execArgs
  match isRun : Exec.pushStrings d argv 0 (topOf n) t.mem, strings with
  | .fail e m', ⟨isOverrun, isWraps⟩ =>
    rw [Act.bind_apply, vm_fail isRun, isOverrun]
    refine wraps ?_ _
    rw [argsVerdict_eq, if_pos (Nat.sub_zero MAXARG ▸ isWraps)]
  | .done none m', ⟨noRoom, noWrap, stacked'⟩ =>
    refine Sat.step (vm_done isRun) ?_
    refine (Built.bad back (t := { t with mem := m' }) stacked'.built).mono fun r t' post => ?_
    obtain ⟨isBad, m2, rfl, restored⟩ := post
    have tooMuch : argv.length ≤ MAXARG → stringBytes argv ≤ PTE_SZ → False := fun most fits =>
      noRoom ⟨(Nat.zero_add argv.length).symm ▸ most, fitsIff.2 fits⟩
    have refuses : argsVerdict argv (topOf n) = .refuses := by
      rw [argsVerdict_eq, if_neg (Nat.sub_zero MAXARG ▸ noWrap), if_neg]
      exact fun roomy => tooMuch roomy.1 (le_of_add_le_left roomy.2)
    have noSpill : ¬ Spills argv := fun spills => tooMuch spills.1 spills.2.1
    exact Or.inl ⟨isBad, refuses, m2, restored, by rw [if_neg noSpill]⟩
  | .done (some (sp, ustack)) m1, ⟨most, fits, isSp, isUstack, stacked1, shows1⟩ =>
    rw [Nat.zero_add] at most
    subst isSp isUstack
    have after : spAfter argv (topOf n) + stringBytes argv = 4096 * (n + 2) :=
      spAfter_of_fits small aligned fits
    have room : stringBytes argv ≤ 4096 := fitsIff.1 fits
    have plan := argsVerdict_fits stacked.small most room
    have low' : PTE_SZ * (n + 1) ≤ spAfter argv (topOf n) := by
      show 4096 * (n + 1) ≤ _
      omega
    have high' : spAfter argv (topOf n) ≤ topOf n := by
      show _ ≤ 4096 * (n + 2)
      omega
    obtain ⟨place, ok, m2, run, copied⟩ := stacked1.vector low' high' most
      (length_stringAddrs argv _)
    have isPlace : vectorAt (spAfter argv (topOf n)) argv.length =
        vectorIn argv (topOf n) := by
      show _ = 4096 * (n + 2) - stringBytes argv - 4 * (argv.length + 1)
      omega
    have done : ok = true ↔ stringBytes argv + 4 * (argv.length + 1) ≤ PTE_SZ := by
      rw [copied.done]
      show 4096 * (n + 1) ≤ _ ↔ _ ≤ 4096
      omega
    rw [isPlace] at run copied
    refine Sat.step (vm_done isRun) ?_
    dsimp only
    rw [isPlace]
    refine Sat.step rfl (Sat.step (vm_done
      (t := { t with mem := m1, tf := withArgs argv (topOf n) t.tf }) run) ?_)
    cases ok with
    | false =>
      refine (Built.bad back (t := { t with
        mem := m2
        tf := withArgs argv (topOf n) t.tf }) copied.stacked.built).mono
          fun r t' post => ?_
      obtain ⟨isBad, m3, rfl, restored⟩ := post
      have noRoom := mt done.2 Bool.false_ne_true
      have spills : Spills argv := ⟨most, room, Nat.not_le.1 noRoom⟩
      rw [if_neg fun roomy => noRoom roomy.2] at plan
      exact Or.inl ⟨isBad, plan, m3, restored, by rw [if_pos spills]⟩
    | true =>
      refine (Stacked.commit back (t := { t with
        mem := m2
        tf := withArgs argv (topOf n) t.tf }) copied.stacked old _ _).mono
          fun r t' post => ?_
      obtain ⟨isZero, isTask, held, others, tables, entries, bytes⟩ := post
      rw [if_pos ⟨most, done.1 rfl⟩] at plan
      exact Or.inr ⟨isZero, plan, copied.stacked.entered (done.1 rfl) most isTask held others tables
        entries bytes fun g shows => copied.shows rfl _ (shows1 g shows)⟩

end Enter

/-! ## The whole call -/

/-- The inode has been found and locked. -/
def begun (ip : Nat) (t : Task) : Task :=
  { t with irefs := upd t.irefs ip (t.irefs ip + 1), locked := upd t.locked ip true }

/-- The process is as before the call, and so is everything that was in use; what has been in use
only for the call is not, and the inode is not locked. -/
structure Unchanged (node : Option (Nat × FileBytes)) (t t' : Task) : Prop where
  pgdir : t'.pgdir = t.pgdir
  sz : t'.sz = t.sz
  name : t'.name = t.name
  cwd : t'.cwd = t.cwd
  tf : t'.tf = t.tf
  outstanding : t'.mem.outstanding = t.mem.outstanding
  tables : KeepsTables t.mem t'.mem
  bytes : KeepsBytes t.mem t'.mem
  irefs : t'.irefs = t.irefs
  unlocked : ∀ ip f, node = some (ip, f) → t'.locked ip = false

section Whole

variable {S : Setup} {R : Set (Nat × Nat)} {t t' : Task} {junk ip : Nat} {path : List Byte}
  {node : Option (Nat × FileBytes)} {f : FileBytes} {argv : Argv}

theorem released_begun (ip : Nat) (m : VMem) : released ip { begun ip t with mem := m } =
    { t with mem := m, locked := upd t.locked ip false } := by
  have irefs : upd (upd t.irefs ip (t.irefs ip + 1)) ip
      (upd t.irefs ip (t.irefs ip + 1) ip - 1) = t.irefs := by
    rw [upd_same, upd_idem]
    funext i
    by_cases here : i = ip
    · rw [here, upd_same]
      omega
    · rw [upd_ne _ _ here]
  have locked : upd (upd t.locked ip true) ip false = upd t.locked ip false := upd_idem ..
  simp only [released, begun, irefs, locked]

/-- With the file at hand. -/
theorem exec_found : exec junk path (some (ip, f)) argv t = (if f.header then (do
      match ← execImage ip f with
      | none => return -1
      | some (pgdir, sz) => execArgs path f argv pgdir sz : X Int)
    else (do
      Act.failIf (junk != 0) .wild
      iunlockput ip
      return -1)) (begun ip t) := rfl

/-- An `exec` that succeeds has made an image. -/
theorem exec_leaf_zero (returned : (exec junk path (some (ip, f)) argv t).leaf = .done 0 t') :
    ∃ d top t1, (execImage ip f (begun ip t)).leaf = .done (some (d, top)) t1 ∧
      (execArgs path f argv d top t1).leaf = .done 0 t' := by
  rw [exec_found] at returned
  split at returned
  · obtain ⟨res, t1, image, rest⟩ := Outcome.leaf_bind_done_iff.1 returned
    rcases res with _ | ⟨d, top⟩
    · cases rest
    · exact ⟨d, top, t1, image, rest⟩
  · obtain ⟨_, t1, -, rest⟩ := Outcome.leaf_bind_done_iff.1 returned
    cases rest

/-- The image that `exec` makes. -/
theorem execImage_leaf {res : Option (Nat × Nat)} {t1 : Task} (own : Held S t.pgdir R t.mem)
    (image : (execImage ip f (begun ip t)).leaf = .done res t1) :
    ∃ m', t1 = { t with mem := m', locked := upd t.locked ip false } ∧ ImageMade S t.mem f res m' := by
  -- the contract does not matter for a call that returns
  obtain ⟨v, starves, breaks⟩ : ∃ v : Verdict, (makes f t.mem.supply = .error .starves → v = .starves) ∧
      (makes f t.mem.supply = .error .breaks → v = .breaks) := by
    cases makes f t.mem.supply with
    | error v => exact ⟨v, fun same => Except.error.inj same, fun same => Except.error.inj same⟩
    | ok a => exact ⟨.succeeds, fun never => (nomatch never), fun never => (nomatch never)⟩
  have sat := (execImage_sat (t := begun ip t) own.memory ip starves breaks).leaf fun _ _ => trivial
  rw [image] at sat
  obtain ⟨m', same, made⟩ := sat
  exact ⟨m', same.trans (released_begun ip m'), made⟩

/-- The registers that `exec` leaves when it gives up: those for the arguments have been set too
early, if the vector is what does not fit. -/
def leftover (node : Option (Nat × FileBytes)) (argv : Argv) (t : Task) : Trapframe :=
  match node with
  | none => t.tf
  | some (_, f) =>
    if f.header then
      match makes f t.mem.supply with
      | .error _ => t.tf
      | .ok (top, _) => if Spills argv then withArgs argv top t.tf else t.tf
    else t.tf

/-- The locks when `exec` returns. -/
def locksAfter (node : Option (Nat × FileBytes)) (t : Task) : Nat → Bool :=
  match node with
  | none => t.locked
  | some (ip, _) => upd t.locked ip false

/-- What `exec` has come to when it returns. -/
def Ended (S : Setup) (R : Set (Nat × Nat)) (junk : Nat) (path : List Byte)
    (node : Option (Nat × FileBytes)) (argv : Argv) (t : Task) (r : Int) (t' : Task) : Prop :=
  (r = -1 ∧ verdict junk node argv t.mem.supply = .refuses ∧ ∃ m', Restored S t.mem m' ∧
    t' = { t with mem := m', locked := locksAfter node t, tf := leftover node argv t }) ∨
  (r = 0 ∧ verdict junk node argv t.mem.supply = .succeeds ∧ ∃ ip f d n m1, node = some (ip, f) ∧
    ImageAt S t.mem f d n m1 ∧
    Entered S R t.mem d n path f argv { t with mem := m1, locked := locksAfter node t } t')

theorem Restored.refl {m : VMem} (memory : Kept S nowhere m.outstanding m) : Restored S m m :=
  ⟨memory, fun _ _ => rfl, fun _ _ _ _ => rfl⟩

/-- **`exec` ends as its verdict says.** -/
theorem exec_sat (junk : Nat) (path : List Byte) (node : Option (Nat × FileBytes))
    (own : Held S t.pgdir R t.mem) (short_ : ∀ s ∈ argv, s.length < UADDR_SZ) :
    Sat (execStops (verdict junk node argv t.mem.supply)) (Ended S R junk path node argv t)
      (exec junk path node argv t) := by
  match node with
  | none => exact Or.inl ⟨rfl, rfl, t.mem, .refl own.memory, rfl⟩
  | some (ip, f) =>
    rw [exec_found]
    unfold Ended
    simp only [verdict, leftover, locksAfter]
    cases header : f.header with
    | false =>
      simp only [Bool.false_eq_true, if_false]
      by_cases clear_ : junk = 0
      · rw [if_pos clear_, clear_, bne_self_eq_false]
        refine Sat.step rfl (Sat.step rfl (Or.inl ⟨rfl, rfl, t.mem, .refl own.memory, ?_⟩))
        exact released_begun ip t.mem
      · rw [if_neg clear_, bne_iff_ne.2 clear_]
        exact Or.inr rfl
    | true =>
      simp only [if_true]
      unfold fileVerdict
      have starves : makes f t.mem.supply = .error .starves → fileVerdict f argv t.mem.supply = .starves := by
        intro failed
        rw [fileVerdict, failed]
      have breaks : makes f t.mem.supply = .error .breaks → fileVerdict f argv t.mem.supply = .breaks := by
        intro failed
        rw [fileVerdict, failed]
      refine (execImage_sat (t := begun ip t) own.memory ip starves breaks).seq fun res t1 post => ?_
      obtain ⟨m1, isTask, made⟩ := post
      rw [released_begun] at isTask
      subst isTask
      cases res with
      | none =>
        obtain ⟨restored, plan⟩ := made
        have plan : makes f t.mem.supply = .error .refuses := plan
        rw [plan]
        exact Or.inl ⟨rfl, rfl, m1, restored, rfl⟩
      | some space =>
        obtain ⟨d, top⟩ := space
        obtain ⟨plan, n, isTop, image⟩ := made
        have plan : makes f t.mem.supply = .ok (top, m1.supply) := plan
        subst isTop
        rw [plan]
        dsimp only
        refine (Stacked.execArgs path f (t := { t with mem := m1, locked := upd t.locked ip false })
          execStops_givesBack image.stacked own short_ fun wraps t' => ?_).mono fun r t' done => ?_
        · have same : fileVerdict f argv t.mem.supply = .wraps := by
            rw [fileVerdict, plan]
            exact wraps
          rw [same]
          exact Or.inr rfl
        · rcases done with ⟨isBad, refuses, m', restored, isEnd⟩ | ⟨isZero, succeeds, entered⟩
          · exact Or.inl ⟨isBad, refuses, m', restored, isEnd⟩
          · exact Or.inr ⟨isZero, succeeds, ip, f, d, n, m1, rfl, image, entered⟩

end Whole

end Xv6Rpi.Proc.Exec
