/-
# Proc.VmMap -- mappages as an update of a finite map

`walkpgdir` and `mappages` of `vm.c`, over any directory whose page tables are distinct.
What an address maps to is what the two-level walk finds (`lookup`): the page and the
permissions of its entry.

`kpt_alloc` is assumed to give page tables out that are not in use (`TableSource`), and
may stop as some contract allows; `tableSource_kept` says that the allocator of `vm.c` is
such a source.  `Mapping` is the invariant of the loop: pages `lo` to `hi` are mapped, all
other entries are what they were, and the page tables made on the way are new ones.

* `mappages_updates`: `mappages` ends, maps the pages its range touches and no others,
  and the page tables it makes are distinct and otherwise empty.
-/
import Xv6Rpi.Proc.VmRange

namespace Xv6Rpi.Proc.Vm

open Theory
open Kernel (upd upd_same upd_ne KERNBASE noHeap)

set_option autoImplicit false

/-! ## Looking up an address -/

/-- The page table that entry `i` of a directory points to. -/
def tableOf (w : Words) (d i : Nat) : Option Nat :=
  if present (w d i) then some (p2v (ptAddr (w d i))) else none

/-- The word for page `k`, 0 where there is no page table. -/
def pteOf (w : Words) (d k : Nat) : Nat :=
  match tableOf w d (k / 256) with
  | none => 0
  | some t => w t (k % 256)

/-- The page an entry points to, and its permissions. -/
def mapsTo (pte : Nat) : Option (Nat × Nat) :=
  if present pte then some (pteAddr pte, pteAp pte) else none

/-- What an address maps to: the two-level walk, `PTE_ADDR` and `PTE_AP`. -/
def lookup (pgdir va : Nat) : V (Option (Nat × Nat)) := do
  match ← walkpgdir pgdir va false with
  | none => return none
  | some (t, j) => do
      let pte ← word t j
      return mapsTo pte

/-- The page tables of a directory are distinct, also from the directory. -/
structure Distinct (w : Words) (d : Nat) : Prop where
  notDir : ∀ i < NUM_UPDE, tableOf w d i ≠ some d
  once : ∀ i < NUM_UPDE, ∀ j < NUM_UPDE, ∀ t, tableOf w d i = some t → tableOf w d j = some t → i = j

section Words

variable {w w' : Words} {d i k t : Nat}

theorem tableOf_congr (same : w' d i = w d i) : tableOf w' d i = tableOf w d i := by
  unfold tableOf
  rw [same]

theorem pteOf_of_some (there : tableOf w d (k / 256) = some t) : pteOf w d k = w t (k % 256) := by
  simp only [pteOf, there]

theorem pteOf_of_none (none_ : tableOf w d (k / 256) = none) : pteOf w d k = 0 := by
  simp only [pteOf, none_]

theorem index_lt (small : k < 65536) : k / 256 < NUM_UPDE := by
  show k / 256 < 256
  omega

theorem lookup_apply {va : Nat} (small : va < UADDR_SZ) (m : VMem) :
    lookup d va m = .done (mapsTo (pteOf m.words d (va / PTE_SZ))) m := by
  have small : va < 268435456 := small
  have upper : PDE_IDX va = va / PTE_SZ / 256 := by
    show va / 1048576 = va / 4096 / 256
    omega
  have inside : ¬ NUM_UPDE ≤ va / PTE_SZ / 256 := by
    show ¬ 256 ≤ va / 4096 / 256
    omega
  unfold lookup walkpgdir
  simp only [upper, PTE_IDX, decide_eq_false inside, Act.bind_apply, Act.failIf_false,
    Outcome.done_bind, word_apply]
  by_cases there : present (m.words d (va / PTE_SZ / 256)) = true
  · have table : tableOf m.words d (va / PTE_SZ / 256) = some (p2v (ptAddr (m.words d (va / PTE_SZ / 256)))) :=
      if_pos there
    rw [if_pos there, pteOf_of_some table]
    rfl
  · have table : tableOf m.words d (va / PTE_SZ / 256) = none := if_neg there
    rw [if_neg there, pteOf_of_none table]
    rfl

/-- A store into a page table of the directory changes one entry. -/
theorem Distinct.putWord (dir : Distinct w d) (small : k < 65536)
    (there : tableOf w d (k / 256) = some t) (e : Nat) :
    (∀ i, tableOf (Vm.putWord w t (k % 256) e) d i = tableOf w d i) ∧
      ∀ j < 65536, pteOf (Vm.putWord w t (k % 256) e) d j = if j = k then e else pteOf w d j := by
  have notDir : d ≠ t := by
    rintro rfl
    exact dir.notDir _ (index_lt small) there
  have tables : ∀ i, tableOf (Vm.putWord w t (k % 256) e) d i = tableOf w d i := by
    intro i
    apply tableOf_congr
    rw [Vm.putWord, upd_ne _ _ notDir]
  refine ⟨tables, fun j hj => ?_⟩
  cases here : tableOf w d (j / 256) with
  | none =>
    have ne : j ≠ k := by
      rintro rfl
      rw [there] at here
      cases here
    rw [if_neg ne, pteOf_of_none ((tables _).trans here), pteOf_of_none here]
  | some u =>
    rw [pteOf_of_some ((tables _).trans here), pteOf_of_some here]
    by_cases same : u = t
    · subst same
      have index := dir.once _ (index_lt hj) _ (index_lt small) u here there
      by_cases page : j = k
      · subst page
        simp [Vm.putWord]
      · have other : j % 256 ≠ k % 256 := by omega
        simp [Vm.putWord, page, other]
    · have ne : j ≠ k := by
        rintro rfl
        rw [there] at here
        exact same (Option.some.inj here).symm
      rw [if_neg ne, Vm.putWord, upd_ne _ _ same]

/-- The words after a new page table is cleared and put into the directory. -/
def linkTable (w : Words) (d i t : Nat) : Words :=
  Vm.putWord (upd w t fun _ => 0) d i (v2p t ||| 1)

theorem tableOf_linkTable (notDir : d ≠ t) (kernel : KERNBASE ≤ t) (aligned : t % 1024 = 0) (j : Nat) :
    tableOf (linkTable w d i t) d j = if j = i then some t else tableOf w d j := by
  by_cases same : j = i
  · subst same
    have physical : v2p t % 1024 = 0 := by
      have kernel : 0x80000000 ≤ t := kernel
      show (t - 0x80000000) % 1024 = 0
      omega
    obtain ⟨points, there⟩ := ptAddr_pde physical
    simp [tableOf, linkTable, Vm.putWord, points, there, p2v_v2p kernel]
  · rw [if_neg same]
    apply tableOf_congr
    rw [linkTable, Vm.putWord, upd_same, upd_ne _ _ same, upd_ne _ _ notDir]

/-- A new page table maps nothing, and the others are left. -/
theorem pteOf_linkTable (notDir : d ≠ t) (kernel : KERNBASE ≤ t) (aligned : t % 1024 = 0)
    (dir : Distinct w d) (unused : ∀ j < NUM_UPDE, tableOf w d j ≠ some t)
    (none_ : tableOf w d i = none) (small : k < 65536) :
    pteOf (linkTable w d i t) d k = pteOf w d k := by
  have table := tableOf_linkTable (w := w) (i := i) notDir kernel aligned (k / 256)
  by_cases here : k / 256 = i
  · rw [if_pos here] at table
    rw [pteOf_of_some table, pteOf_of_none (here ▸ none_), linkTable, Vm.putWord,
      upd_ne _ _ notDir.symm, upd_same]
  · rw [if_neg here] at table
    cases old : tableOf w d (k / 256) with
    | none => rw [pteOf_of_none (table.trans old), pteOf_of_none old]
    | some u =>
      have notNew : u ≠ t := by
        rintro rfl
        exact unused _ (index_lt small) old
      have notD : u ≠ d := by
        rintro rfl
        exact dir.notDir _ (index_lt small) old
      rw [pteOf_of_some (table.trans old), pteOf_of_some old, linkTable, Vm.putWord,
        upd_ne _ _ notD, upd_ne _ _ notNew]

end Words

/-! ## The source of page tables -/

/-- `kpt_alloc` gives out page tables that are not in use: `Fresh T` says that of the
page tables in `T`, it survives stores into page tables, and every call adds the page
table given out, which is cleared, to those in use.  `C` says when a call may stop. -/
structure TableSource (C : VContract) (Fresh : Set Nat → VMem → Prop) : Prop where
  store : ∀ {T m} (w : Words), Fresh T m → Fresh T { m with words := w }
  alloc : ∀ {T m}, Fresh T m → Sat C (fun t m' => t ∉ T ∧ KERNBASE ≤ t ∧ t % 1024 = 0 ∧
    m'.words = upd m.words t (fun _ => 0) ∧ Fresh (insert t T) m') (kptAlloc m)

/-- The allocator of `vm.c` is such a source, where the page tables in use are
outstanding. -/
theorem tableSource_kept (S : Setup) (may : VmPanic → Prop) : TableSource (vmContract may)
    fun T m => Kept S nowhere m.outstanding m ∧ ∀ t ∈ T, (t, PT_ORDER) ∈ m.outstanding := by
  constructor
  · exact fun w fresh => ⟨fresh.1.rewrite w, fresh.2⟩
  · intro T m fresh
    obtain ⟨kept, out⟩ := fresh
    refine ((kptAlloc_spec kept fun _ => trivial).and (kptAlloc_words m)).mono fun t m' post => ?_
    obtain ⟨⟨-, notOut, kept', -, -, -⟩, words⟩ := post
    have outIs := kept'.outstanding_eq
    have given_ : (t, PT_ORDER) ∈ m'.outstanding := outIs ▸ Set.mem_insert _ _
    have high : 0x80000000 < t := kept'.kernel given_
    refine ⟨fun used => notOut (out t used), high.le, kept'.table_aligned given_ rfl, words,
      outIs ▸ kept', fun u used => ?_⟩
    rw [outIs]
    rcases used with rfl | old
    · exact Or.inl rfl
    · exact Or.inr (out u old)

/-! ## The loop -/

/-- Pages `lo` to `hi` are mapped to pages from `pa` on; nothing else has changed since
the words were `w0` and the page tables `T0` in use, except that page tables were made. -/
structure Mapping (w0 : Words) (T0 : Set Nat) (d lo hi pa ap : Nat) (T : Set Nat)
    (w : Words) : Prop where
  dir : Distinct w d
  dirUsed : d ∈ T
  used : ∀ i < NUM_UPDE, ∀ t, tableOf w d i = some t → t ∈ T
  grown : T0 ⊆ T
  kept : ∀ i < NUM_UPDE, ∀ t, tableOf w0 d i = some t → tableOf w d i = some t
  made : ∀ i < NUM_UPDE, tableOf w0 d i = none → ∀ t, tableOf w d i = some t → t ∉ T0
  ptes : ∀ k < 65536, pteOf w d k =
    if lo ≤ k ∧ k < hi then mkPte ((pa + PTE_SZ * (k - lo)) % UINTS) ap else pteOf w0 d k

section Loop

variable {C : VContract} {Fresh : Set Nat → VMem → Prop}
variable {w0 w : Words} {T0 T : Set Nat} {d lo hi pa ap k t : Nat} {m : VMem}

/-- A page table that is made. -/
theorem Mapping.link (mapping : Mapping w0 T0 d lo hi pa ap T w)
    (none_ : tableOf w d (k / 256) = none) (unused : t ∉ T) (kernel : KERNBASE ≤ t)
    (aligned : t % 1024 = 0) :
    Mapping w0 T0 d lo hi pa ap (insert t T) (linkTable w d (k / 256) t) := by
  have notDir : d ≠ t := by
    rintro rfl
    exact unused mapping.dirUsed
  have notTable : ∀ i < NUM_UPDE, tableOf w d i ≠ some t :=
    fun i hi there => unused (mapping.used i hi t there)
  have tables := fun i => tableOf_linkTable (w := w) (i := k / 256) notDir kernel aligned i
  refine ⟨⟨fun i hi same => ?_, fun i hi j hj u first second => ?_⟩, Or.inr mapping.dirUsed,
    fun i hi u there => ?_, mapping.grown.trans (Set.subset_insert t T), fun i hi u there => ?_,
    fun i hi none0 u there => ?_, fun j hj => ?_⟩
  · rw [tables] at same
    split at same
    · exact notDir (Option.some.inj same).symm
    · exact mapping.dir.notDir i hi same
  · rw [tables] at first second
    split at first
    case isTrue isI =>
      obtain rfl := Option.some.inj first
      split at second
      case isTrue isJ => rw [isI, isJ]
      case isFalse => exact absurd second (notTable j hj)
    case isFalse =>
      split at second
      case isTrue =>
        obtain rfl := Option.some.inj second
        exact absurd first (notTable i hi)
      case isFalse => exact mapping.dir.once i hi j hj u first second
  · rw [tables] at there
    split at there
    · exact Or.inl (Option.some.inj there).symm
    · exact Or.inr (mapping.used i hi u there)
  · have old := mapping.kept i hi u there
    have ne : i ≠ k / 256 := by
      rintro rfl
      rw [none_] at old
      cases old
    rw [tables, if_neg ne]
    exact old
  · rw [tables] at there
    split at there
    · obtain rfl := Option.some.inj there
      exact fun old => unused (mapping.grown old)
    · exact mapping.made i hi none0 u there
  · rw [pteOf_linkTable notDir kernel aligned mapping.dir notTable none_ hj]
    exact mapping.ptes j hj

/-- The next page is mapped. -/
theorem Mapping.store (mapping : Mapping w0 T0 d lo k pa ap T w) (small : k < 65536) (above : lo ≤ k)
    (there : tableOf w d (k / 256) = some t) : Mapping w0 T0 d lo (k + 1) pa ap T
      (putWord w t (k % 256) (mkPte ((pa + PTE_SZ * (k - lo)) % UINTS) ap)) := by
  obtain ⟨tables, ptes⟩ := mapping.dir.putWord small there
    (mkPte ((pa + PTE_SZ * (k - lo)) % UINTS) ap)
  refine ⟨⟨fun i hi => ?_, fun i hi j hj u => ?_⟩, mapping.dirUsed, fun i hi u => ?_,
    mapping.grown, fun i hi u old => ?_, fun i hi none0 u => ?_, fun j hj => ?_⟩
  · rw [tables]
    exact mapping.dir.notDir i hi
  · rw [tables, tables]
    exact mapping.dir.once i hi j hj u
  · rw [tables]
    exact mapping.used i hi u
  · rw [tables]
    exact mapping.kept i hi u old
  · rw [tables]
    exact mapping.made i hi none0 u
  · rw [ptes j hj]
    by_cases same : j = k
    · subst same
      rw [if_pos rfl, if_pos ⟨above, Nat.lt_succ_self j⟩]
    · have sameRange : (lo ≤ j ∧ j < k + 1) ↔ lo ≤ j ∧ j < k := by omega
      rw [if_neg same, mapping.ptes j hj]
      simp only [sameRange]

/-- **`walkpgdir` finds the page table or makes one.** -/
theorem Mapping.walkpgdir (source : TableSource C Fresh)
    (mapping : Mapping w0 T0 d lo hi pa ap T m.words) (fresh : Fresh T m) (small : k < 65536) :
    Sat C (fun a m' => ∃ t T', a = some (t, k % 256) ∧ tableOf m'.words d (k / 256) = some t ∧
      Mapping w0 T0 d lo hi pa ap T' m'.words ∧ Fresh T' m')
      (Vm.walkpgdir d (PTE_SZ * k) true m) := by
  unfold Vm.walkpgdir
  simp only [PDE_IDX_page, PTE_IDX_page]
  refine Sat.failIf (fun past => ?_) fun _ => ?_
  · exact absurd (of_decide_eq_true past) (Nat.not_le.2 (index_lt small))
  refine Sat.step (word_apply ..) ?_
  by_cases there : present (m.words d (k / 256)) = true
  · rw [if_pos there]
    exact ⟨_, T, rfl, if_pos there, mapping, fresh⟩
  · rw [if_neg there, if_pos trivial]
    have none_ : tableOf m.words d (k / 256) = none := if_neg there
    refine (source.alloc fresh).seq fun t m1 post => ?_
    obtain ⟨unused, kernel, aligned, words, fresh1⟩ := post
    have notDir : d ≠ t := by
      rintro rfl
      exact unused mapping.dirUsed
    refine Sat.step (clearTable_apply t m1) (Sat.step (setWord_apply ..) ?_)
    have linkedIs : putWord (upd m1.words t fun _ => 0) d (k / 256) (v2p t ||| 1) =
        linkTable m.words d (k / 256) t := by
      rw [words, Kernel.upd_idem]
      rfl
    refine ⟨t, insert t T, rfl, ?_, ?_, ?_⟩
    · show tableOf (putWord _ _ _ _) d (k / 256) = some t
      rw [linkedIs, tableOf_linkTable notDir kernel aligned, if_pos rfl]
    · show Mapping w0 T0 d lo hi pa ap (insert t T) (putWord _ _ _ _)
      rw [linkedIs]
      exact mapping.link none_ unused kernel aligned
    · exact source.store _ (source.store _ fresh1)

/-- **One round** maps one more page. -/
theorem Mapping.mapPage (source : TableSource C Fresh)
    (mapping : Mapping w0 T0 d lo k pa ap T m.words) (fresh : Fresh T m) (small : k < 65536)
    (above : lo ≤ k) (empty : present (pteOf w0 d k) = false) :
    Sat C (fun _ m' => ∃ T', Mapping w0 T0 d lo (k + 1) pa ap T' m'.words ∧ Fresh T' m')
      (Vm.mapPage d (PTE_SZ * k) ((pa + PTE_SZ * (k - lo)) % UINTS) ap m) := by
  refine (mapping.walkpgdir source fresh small).seq fun a m1 post => ?_
  obtain ⟨t, T', rfl, there, mapping1, fresh1⟩ := post
  have off : present (m1.words t (k % 256)) = false := by
    have entry := mapping1.ptes k small
    rw [if_neg fun inside => Nat.lt_irrefl k inside.2, pteOf_of_some there] at entry
    rw [entry]
    exact empty
  refine Sat.step (word_apply ..) (Sat.failIf (fun remap => ?_) fun _ => ?_)
  · rw [off] at remap
    cases remap
  · exact ⟨T', mapping1.store small above there, source.store _ fresh1⟩

/-- **The loop of `mappages`** ends, with the pages up to `last` mapped. -/
theorem Mapping.mapLoop (source : TableSource C Fresh) {last : Nat} (small : last < 65536)
    (empty : ∀ k, lo ≤ k → k ≤ last → present (pteOf w0 d k) = false) :
    ∀ (fuel k : Nat) (T : Set Nat) (m : VMem), Mapping w0 T0 d lo k pa ap T m.words → Fresh T m →
      lo ≤ k → k ≤ last → last - k < fuel →
      Sat C (fun _ m' => ∃ T', Mapping w0 T0 d lo (last + 1) pa ap T' m'.words ∧ Fresh T' m')
        (Vm.mapLoop d (PTE_SZ * last) ap fuel (PTE_SZ * k) ((pa + PTE_SZ * (k - lo)) % UINTS) m) := by
  intro fuel
  induction fuel with
  | zero => exact fun k T m _ _ _ _ enough => absurd enough (Nat.not_lt_zero _)
  | succ fuel ih =>
    intro k T m mapping fresh above below enough
    rw [Vm.mapLoop]
    refine (mapping.mapPage source fresh (by omega) above (empty k above below)).seq
      fun _ m1 post => ?_
    obtain ⟨T1, mapping1, fresh1⟩ := post
    by_cases done : k = last
    · subst done
      rw [if_pos rfl]
      exact ⟨T1, mapping1, fresh1⟩
    · have notYet : PTE_SZ * k ≠ PTE_SZ * last := fun same =>
        done (Nat.eq_of_mul_eq_mul_left (by decide) same)
      have next : (PTE_SZ * k + PTE_SZ) % UINTS = PTE_SZ * (k + 1) := by
        rw [Nat.mul_add, Nat.mul_one, Nat.mod_eq_of_lt]
        show 4096 * k + 4096 < 4294967296
        omega
      have nextPa : ((pa + PTE_SZ * (k - lo)) % UINTS + PTE_SZ) % UINTS =
          (pa + PTE_SZ * (k + 1 - lo)) % UINTS := by
        rw [Nat.mod_add_mod, show k + 1 - lo = k - lo + 1 by omega, Nat.mul_add, Nat.mul_one,
          Nat.add_assoc]
      rw [if_neg notYet, next, nextPa]
      exact ih (k + 1) T1 m1 mapping1 fresh1 (by omega) (by omega) (by omega)

end Loop

/-- Address `x` lies in a page that overlaps `size` bytes from `va` on. -/
def Touches (va size x : Nat) : Prop :=
  va / PTE_SZ ≤ x / PTE_SZ ∧ x / PTE_SZ ≤ (va + size - 1) / PTE_SZ

section Updates

variable {C : VContract} {Fresh : Set Nat → VMem → Prop}
variable {T : Set Nat} {d va size pa ap : Nat} {m : VMem}

theorem mapsTo_mkPte (aligned : pa % 4096 = 0) (ap : Nat) : mapsTo (mkPte pa ap) = some (pa, ap % 4) := by
  obtain ⟨points, on⟩ := pteAddr_mkPte ap aligned
  simp only [mapsTo, on, if_true, points, pteAp_mkPte ap aligned]

theorem present_of_mapsTo {pte : Nat} (none_ : mapsTo pte = none) : present pte = false := by
  unfold mapsTo at none_
  split at none_
  case isTrue => cases none_
  case isFalse off => exact Bool.eq_false_iff.2 off

/-- Before the first round nothing has changed. -/
theorem Mapping.start (dir : Distinct m.words d) (dirUsed : d ∈ T)
    (used : ∀ i < NUM_UPDE, ∀ t, tableOf m.words d i = some t → t ∈ T) (lo : Nat) :
    Mapping m.words T d lo lo pa ap T m.words := by
  refine ⟨dir, dirUsed, used, subset_rfl, fun _ _ _ there => there, fun i _ none_ t there => ?_,
    fun k _ => ?_⟩
  · rw [none_] at there
    cases there
  · rw [if_neg fun inside => absurd inside.1 (Nat.not_le.2 inside.2)]

/-- `mappages` is its loop over the pages that the range touches. -/
theorem mappages_eq (nonempty : 0 < size) (below : va + size ≤ UADDR_SZ) :
    mappages d va size pa ap = mapLoop d (PTE_SZ * ((va + size - 1) / PTE_SZ)) ap PAGEFUEL
      (PTE_SZ * (va / PTE_SZ)) pa := by
  have fits : va + size ≤ UINTS := below.trans (by decide)
  unfold mappages
  rw [wrap_pred (by omega) fits, Nat.mul_comm PTE_SZ, Nat.mul_comm PTE_SZ]

/-- **`mappages` updates the map from addresses to pages.**  Take a directory whose page
tables are distinct, and a non-empty range of user addresses on whose pages nothing is
mapped.  `mappages` ends unless `kpt_alloc` stops.  Then each page the range touches is
mapped to the page of `pa` that corresponds to it, with the permissions asked for; every
other address maps to what it did; the page tables are still distinct, the old ones are
still there, and those made on the way are new and empty but for the pages of the range. -/
theorem mappages_updates (source : TableSource C Fresh) (dir : Distinct m.words d) (fresh : Fresh T m)
    (dirUsed : d ∈ T) (used : ∀ i < NUM_UPDE, ∀ t, tableOf m.words d i = some t → t ∈ T)
    (aligned : pa % PTE_SZ = 0) (physical : pa < UINTS) (nonempty : 0 < size)
    (below : va + size ≤ UADDR_SZ) (empty : ∀ x, Touches va size x → lookup d x m = .done none m) :
    Sat C (fun _ m' =>
      (∀ x, Touches va size x → lookup d x m' =
        .done (some ((pa + PTE_SZ * (x / PTE_SZ - va / PTE_SZ)) % UINTS, ap % 4)) m') ∧
      (∀ x < UADDR_SZ, ¬ Touches va size x →
        ∃ r, lookup d x m = .done r m ∧ lookup d x m' = .done r m') ∧
      Distinct m'.words d ∧
      (∀ i < NUM_UPDE, ∀ t, tableOf m.words d i = some t → tableOf m'.words d i = some t) ∧
      ∀ i < NUM_UPDE, ∀ t, tableOf m.words d i = none → tableOf m'.words d i = some t →
        t ∉ T ∧ ∀ j < 256, ¬ Touches va size (PTE_SZ * (256 * i + j)) → m'.words t j = 0)
      (mappages d va size pa ap m) := by
  have below' : va + size ≤ 268435456 := below
  have lastSmall : (va + size - 1) / PTE_SZ < 65536 := by
    show (va + size - 1) / 4096 < 65536
    omega
  have ordered : va / PTE_SZ ≤ (va + size - 1) / PTE_SZ := Nat.div_le_div_right (by omega)
  have inside : ∀ x, Touches va size x → x < UADDR_SZ := by
    intro x touches
    have last : x / 4096 ≤ (va + size - 1) / 4096 := touches.2
    show x < 268435456
    omega
  have free : ∀ k, va / PTE_SZ ≤ k → k ≤ (va + size - 1) / PTE_SZ →
      present (pteOf m.words d k) = false := by
    intro k above upTo
    have page : PTE_SZ * k / PTE_SZ = k := Nat.mul_div_cancel_left k (by decide)
    have touches : Touches va size (PTE_SZ * k) := by
      unfold Touches
      rw [page]
      exact ⟨above, upTo⟩
    have none_ := empty _ touches
    rw [lookup_apply (inside _ touches), page] at none_
    apply present_of_mapsTo
    injection none_
  have first : (pa + PTE_SZ * (va / PTE_SZ - va / PTE_SZ)) % UINTS = pa := by
    rw [Nat.sub_self, Nat.mul_zero, Nat.add_zero, Nat.mod_eq_of_lt physical]
  have started : Mapping m.words T d (va / PTE_SZ) (va / PTE_SZ) pa ap T m.words :=
    Mapping.start dir dirUsed used _
  have looped := Mapping.mapLoop source lastSmall free PAGEFUEL (va / PTE_SZ) T m started fresh le_rfl
    ordered ((Nat.sub_le _ _).trans_lt (lastSmall.trans (by decide)))
  rw [first] at looped
  rw [mappages_eq nonempty below]
  refine looped.mono fun _ m' post => ?_
  obtain ⟨T', mapping, -⟩ := post
  have range : ∀ x, Touches va size x ↔
      va / PTE_SZ ≤ x / PTE_SZ ∧ x / PTE_SZ < (va + size - 1) / PTE_SZ + 1 := by
    intro x
    rw [Nat.lt_succ_iff]
    rfl
  refine ⟨fun x touches => ?_, fun x small untouched => ?_, mapping.dir, mapping.kept,
    fun i hi t none_ there => ?_⟩
  · have small : x / PTE_SZ < 65536 := touches.2.trans_lt lastSmall
    rw [lookup_apply (inside x touches), mapping.ptes _ small, if_pos ((range x).1 touches),
      mapsTo_mkPte]
    have aligned : pa % 4096 = 0 := aligned
    show (pa + 4096 * (x / 4096 - va / 4096)) % 4294967296 % 4096 = 0
    omega
  · have page : x / PTE_SZ < 65536 := by
      have small : x < 268435456 := small
      show x / 4096 < 65536
      omega
    refine ⟨_, lookup_apply small m, ?_⟩
    rw [lookup_apply small, mapping.ptes _ page, if_neg fun inRange => untouched ((range x).2 inRange)]
  · refine ⟨mapping.made i hi none_ t there, fun j hj untouched => ?_⟩
    have hi : i < 256 := hi
    have index : (256 * i + j) / 256 = i := by omega
    have low : (256 * i + j) % 256 = j := by omega
    have page : PTE_SZ * (256 * i + j) / PTE_SZ = 256 * i + j := Nat.mul_div_cancel_left _ (by decide)
    have pte := mapping.ptes (256 * i + j) (by omega)
    have before : pteOf m.words d (256 * i + j) = 0 := pteOf_of_none (by rw [index]; exact none_)
    have after : pteOf m'.words d (256 * i + j) = m'.words t j := by
      rw [pteOf_of_some (t := t) (by rw [index]; exact there), low]
    rw [range, page] at untouched
    rw [if_neg untouched, before, after] at pte
    exact pte

end Updates

/-- A new directory after boot, and 9000 bytes that touch three pages: the directory, and
the memory before and after they are mapped. -/
def mapsThree (km : Kernel.Kmem) : Option (Nat × VMem × VMem) :=
  match kptAlloc (VMem.booted km fewTables []) with
  | .done d m =>
    match mappages d 5000 9000 2097152 AP_KU m with
    | .done () m' => some (d, m, m')
    | _ => none
  | _ => none

/-- The last of the three pages. -/
theorem mappages_updates_three : ∃ km d m m', smallHeap = .ok km ∧ mapsThree km = some (d, m, m') ∧
    lookup d 13999 m' = .done (some (2105344, AP_KU)) m' := by
  have region : Kernel.Region BOOT_END (BOOT_END + 163840) := by
    constructor <;> decide
  have pool : BootPool fewTables := by
    constructor <;> decide
  obtain ⟨N, P, km, ready, heap, above, -⟩ :=
    Kernel.kmemInit2_spec region noHeap
  have ready : smallHeap = .ok km := ready
  have kept := kept_booted heap above pool []
  have made : (match smallHeap with | .ok km => (mapsThree km).isSome | .error _ => false) = true := by
    decide +kernel
  rw [ready] at made
  obtain ⟨⟨d, m, m'⟩, result⟩ := Option.isSome_iff_exists.1 made
  refine ⟨km, d, m, m', ready, result, ?_⟩
  unfold mapsThree at result
  split at result
  case h_2 => cases result
  case h_1 d1 m1 taken =>
    split at result
    case h_2 => cases result
    case h_1 m2 mapped =>
      obtain ⟨rfl, rfl, rfl⟩ : d1 = d ∧ m1 = m ∧ m2 = m' := by simpa using result
      have given_ : Sat (vmContract fun _ => False) _ (kptAlloc _) :=
        kptAlloc_spec kept fun _ => trivial
      rw [taken] at given_
      obtain ⟨-, -, kept1, -, cleared, -⟩ := given_
      have out := kept1.outstanding_eq
      have none_ : ∀ i, tableOf m1.words d1 i = none := by
        intro i
        simp [tableOf, cleared]
      have updates : Sat (vmContract fun _ => False) _ (mappages d1 5000 9000 2097152 AP_KU m1) :=
        mappages_updates (T := {d1}) (tableSource_kept ⟨N, P, km, fewTables⟩ fun _ => False)
        ⟨fun i _ => by simp [none_], fun i _ j _ t there => by simp [none_] at there⟩
        ⟨out ▸ kept1, by simp [out]⟩ rfl (fun i _ t there => by simp [none_] at there)
        (by decide) (by decide) (by decide) (by decide) (fun x touches => ?_)
      · rw [mapped] at updates
        exact updates.1 13999 (by unfold Touches; decide)
      · have small : x < UADDR_SZ := by
          have last : x / 4096 ≤ (5000 + 9000 - 1) / 4096 := touches.2
          show x < 268435456
          omega
        rw [lookup_apply small, pteOf_of_none (none_ _)]
        rfl

end Xv6Rpi.Proc.Vm
