/-
# Proc.VmRange -- ranges of pages in any directory

`deallocuvm`, `freevm` and `allocuvm` over a directory of which nothing is assumed
(`Proc.VmDir`).  The loop of `deallocuvm` visits each page of its range but those at the start
of a megabyte after one without a page table: from there it goes on at
`align_up(a, PDE_SZ) + PTE_SZ`.
-/
import Xv6Rpi.Proc.VmDir

namespace Xv6Rpi.Proc.Vm

open Theory
open Kernel (Client Kmem KmemPanic upd upd_same upd_ne KERNBASE noHeap)

set_option autoImplicit false

/-! ## What the loop of `deallocuvm` leaves -/

/-- Coming from page `lo`, the loop goes past page `j` without looking at it. -/
def skips (w : Words) (d lo j : Nat) : Prop :=
  lo < j ∧ j % 256 = 0 ∧ tableAt w d (j / 256 - 1) = 0

instance (w : Words) (d lo j : Nat) : Decidable (skips w d lo j) :=
  inferInstanceAs (Decidable (_ ∧ _ ∧ _))

/-- The entries after the loop has gone from page `lo` to page `hi`. -/
def swept (w : Words) (d lo hi : Nat) : Nat → Nat := fun j =>
  if lo ≤ j ∧ j < hi ∧ ¬ skips w d lo j then 0 else entry w d j

section Swept

variable {w w' : Words} {d lo hi k : Nat}

theorem swept_empty (past : hi ≤ k) (j : Nat) : swept w d k hi j = entry w d j :=
  if_neg fun inside => absurd (inside.1.trans_lt inside.2.1) (Nat.not_lt.2 past)

/-- From a page without page table the loop goes to the second page after the gap. -/
theorem swept_gap (none_ : tableAt w d (k / 256) = 0) (j : Nat) :
    swept w d ((k + 255) / 256 * 256 + 1) hi j = swept w d k hi j := by
  unfold swept
  by_cases empty : entry w d j = 0
  · rw [empty, ite_self, ite_self]
  · have apart : j / 256 ≠ k / 256 := by
      intro same
      exact empty (entry_of_tableAt_eq_zero (same ▸ none_))
    apply if_congr _ rfl rfl
    constructor
    · rintro ⟨above, below, visited⟩
      refine ⟨by omega, below, fun skip => visited ⟨?_, skip.2⟩⟩
      have first := skip.2.1
      omega
    · rintro ⟨above, below, visited⟩
      have past : (k + 255) / 256 * 256 + 1 ≤ j := by
        by_contra before
        have start : j / 256 - 1 = k / 256 ∧ j % 256 = 0 ∧ k < j := by omega
        exact visited ⟨start.2.2, start.2.1, start.1 ▸ none_⟩
      exact ⟨past, below, fun skip => visited ⟨by omega, skip.2⟩⟩

/-- From a page with a page table it goes to the next page. -/
theorem swept_succ (some_ : tableAt w d (k / 256) ≠ 0) (inside : k < hi)
    (tables : ∀ i, tableAt w' d i = tableAt w d i)
    (entries : ∀ j, entry w' d j = upd (entry w d) k 0 j) (j : Nat) :
    swept w' d (k + 1) hi j = swept w d k hi j := by
  unfold swept
  by_cases same : j = k
  · subst same
    have visited : ¬ skips w d j j := fun skip => absurd skip.1 (Nat.lt_irrefl j)
    rw [entries, upd_same, ite_self, if_pos ⟨le_rfl, inside, visited⟩]
  · rw [entries, upd_ne _ _ same]
    apply if_congr _ rfl rfl
    unfold skips
    rw [tables]
    constructor
    · rintro ⟨above, below, visited⟩
      refine ⟨by omega, below, fun skip => visited ⟨?_, skip.2⟩⟩
      -- the page after `k` starts a megabyte only if the page table before it is that of `k`
      by_contra next
      have before : j / 256 - 1 = k / 256 := by
        have first := skip.2.1
        omega
      exact some_ (before ▸ skip.2.2)
    · rintro ⟨above, below, visited⟩
      exact ⟨by omega, below, fun skip => visited ⟨by omega, skip.2⟩⟩

end Swept

section Ranges

variable {S : Setup} {R : Set (Nat × Nat)} {m : VMem} {d k : Nat} {short : Prop}
  {may : VmPanic → Prop}

/-- What `deallocuvm` leaves: the same page tables, and the entries it did not visit. -/
structure Sweep (S : Setup) (R : Set (Nat × Nat)) (d lo hi : Nat) (m m' : VMem) : Prop where
  held : Held S d R m'
  tables : ∀ i, tableAt m'.words d i = tableAt m.words d i
  change : Change d R (swept m.words d lo hi) m m'
  misses : m'.misses = m.misses

/-- The loop of `deallocuvm`. -/
theorem Held.deallocLoop {C : VContract} {oldsz : Nat}
    (bounded : oldsz ≤ UADDR_SZ) : ∀ (fuel k : Nat) (m : VMem), Held S d R m → 0 < fuel →
      pages oldsz + 1 ≤ k + fuel →
      Sat C (fun _ m' => Sweep S R d k (pages oldsz) m m')
        (Vm.deallocLoop d oldsz fuel (PTE_SZ * k) m) := by
  have bounded : oldsz ≤ 268435456 := bounded
  intro fuel
  induction fuel with
  | zero => exact fun k m _ positive => absurd positive (Nat.lt_irrefl 0)
  | succ fuel ih =>
    intro k m held _ enough
    rw [Vm.deallocLoop]
    by_cases done : oldsz ≤ PTE_SZ * k
    · have past : pages oldsz ≤ k := by
        have done : oldsz ≤ 4096 * k := done
        unfold pages
        omega
      rw [if_pos done]
      have same : Change d R (swept m.words d k (pages oldsz)) m m :=
        (Change.of_words rfl).congr fun j => (swept_empty past j).symm
      exact ⟨held, fun _ => rfl, same, rfl⟩
    · have inside : k < pages oldsz := by
        have done : ¬ oldsz ≤ 4096 * k := done
        unfold pages
        omega
      have small : k < 65536 := by
        unfold pages at inside
        omega
      have nextPage : PTE_SZ * k + PTE_SZ = PTE_SZ * (k + 1) := (Nat.mul_succ PTE_SZ k).symm
      rw [if_neg done]
      refine Sat.step (walkpgdir_look held.nonzero small) ?_
      by_cases none_ : tableAt m.words d (k / 256) = 0
      · rw [if_pos none_, alignUp_page k small]
        refine (ih _ m held (by omega) (by omega)).mono fun _ m' sweep => ?_
        exact ⟨sweep.held, sweep.tables, sweep.change.congr (swept_gap none_), sweep.misses⟩
      · rw [if_neg none_]
        refine Sat.step (word_apply ..) ?_
        refine Sat.runIf (fun on => ?_) fun off => ?_
        · have isEntry : entry m.words d k =
              m.words (tableAt m.words d (k / 256)) (k % 256) := by
            rw [entry_eq rfl none_, if_pos on]
          have some_ : entry m.words d k ≠ 0 := isEntry ▸ present_ne_zero on
          obtain ⟨addrNonzero, h, freed, held'⟩ := held.unmapPage rfl none_ some_
          obtain ⟨tables, -⟩ := held.setPte_spaces (k := k) rfl none_ 0
          have change1 := held.change (k := k) rfl none_ (Or.inr (rfl : 0 = 0))
          rw [isEntry] at addrNonzero freed
          refine Sat.call (Sat.failIf (fun bad => ?_) fun _ => ?_)
          · exact absurd (beq_iff_eq.1 bad) addrNonzero
          rw [Act.bind_apply, freed, Outcome.done_bind, setWord_apply, sat_done, nextPage]
          refine (ih (k + 1) _ held' (by omega) (by omega)).mono fun _ m' sweep => ?_
          have next := swept_succ none_ inside tables change1.mine
          have change1 : Change d R _ m
            { m with heap := h, words := putWord m.words _ (k % 256) 0 } :=
              ⟨⟨change1.tables, change1.others, change1.clean⟩, change1.mine⟩
          exact ⟨sweep.held, fun i => (sweep.tables i).trans (tables i),
            change1.trans (sweep.change.congr next), sweep.misses⟩
        · have empty : entry m.words d k = 0 := by
            rw [entry_eq rfl none_, off]
            rfl
          have same : ∀ j, entry m.words d j = upd (entry m.words d) k 0 j := by
            intro j
            rw [← empty, Kernel.upd_eq_self]
          rw [nextPage]
          refine (ih (k + 1) m held (by omega) (by omega)).mono fun _ m' sweep => ?_
          have next := swept_succ none_ inside (fun _ => rfl) same
          exact ⟨sweep.held, sweep.tables, sweep.change.congr next, sweep.misses⟩

theorem Held.deallocuvm {C : VContract} (held : Held S d R m) {oldsz newsz : Nat}
    (bounded : oldsz ≤ UADDR_SZ) (shrinks : newsz < oldsz) :
    Sat C (fun res m' => res = newsz ∧ Sweep S R d (pages newsz) (pages oldsz) m m')
      (Vm.deallocuvm d oldsz newsz m) := by
  unfold Vm.deallocuvm
  rw [if_neg (Nat.not_le.2 shrinks), alignUp_eq (shrinks.le.trans bounded)]
  have enough : pages oldsz + 1 ≤ pages newsz + PAGEFUEL := by
    have few := pages_bounded bounded
    show pages oldsz + 1 ≤ pages newsz + 65537
    omega
  refine (Held.deallocLoop bounded PAGEFUEL _ m held (by decide) enough).seq fun _ m' sweep => ?_
  exact ⟨rfl, sweep⟩

/-! ## Everything in range is freed -/

/-- The page `k` lies in `[align_up(newsz), oldsz)`. -/
def InRange (oldsz newsz k : Nat) : Prop := alignUp newsz PTE_SZ ≤ PTE_SZ * k ∧ PTE_SZ * k < oldsz

theorem inRange_iff {oldsz newsz : Nat} (bounded : newsz ≤ UADDR_SZ) :
    InRange oldsz newsz k ↔ pages newsz ≤ k ∧ k < pages oldsz := by
  unfold InRange
  rw [alignUp_eq bounded]
  show 4096 * ((newsz + 4095) / 4096) ≤ 4096 * k ∧ 4096 * k < oldsz ↔
    (newsz + 4095) / 4096 ≤ k ∧ k < (oldsz + 4095) / 4096
  omega

/-- The pages of the range are free and not mapped, and nothing else has changed. -/
structure Cleared (d oldsz newsz : Nat) (m m' : VMem) : Prop where
  gone : ∀ k, InRange oldsz newsz k → entry m'.words d k = 0
  stays : ∀ k, ¬ InRange oldsz newsz k → entry m'.words d k = entry m.words d k
  freed : m'.outstanding = m.outstanding \ {b | ∃ k, InRange oldsz newsz k ∧
    entry m.words d k ≠ 0 ∧ b = (pageAt m.words d k, PTE_SHIFT)}

/-- What is outstanding when some pages have been freed and the page tables have stayed. -/
theorem Held.outstanding_sdiff {m' : VMem} (held : Held S d R m) (held' : Held S d R m')
    (tables : ∀ i, tableAt m'.words d i = tableAt m.words d i) {gone : Nat → Prop}
    (out : ∀ k, gone k → entry m'.words d k = 0)
    (stays : ∀ k, ¬ gone k → entry m'.words d k = entry m.words d k) :
    m'.outstanding = m.outstanding \ {b | ∃ k, gone k ∧ entry m.words d k ≠ 0 ∧
      b = (pageAt m.words d k, PTE_SHIFT)} := by
  have stays : ∀ k, ¬ gone k → pageAt m'.words d k = pageAt m.words d k := by
    intro k stay
    simp only [pageAt, stays k stay]
  rw [held'.outstanding_eq, held.outstanding_eq]
  ext b
  constructor
  · rintro (rest | ⟨x, some_, rfl⟩)
    · refine ⟨Or.inl rest, ?_⟩
      rintro ⟨k, -, some_, rfl⟩
      exact (held.named (x := .page k) (mt pageAt_eq_zero_iff.1 some_)).2 rest
    · cases x with
      | dir =>
        refine ⟨Or.inr ⟨.dir, some_, rfl⟩, ?_⟩
        rintro ⟨k, -, -, isPage⟩
        cases congrArg Prod.snd isPage
      | table i =>
        have same : (Part.table i).address m'.words d = (Part.table i).address m.words d := tables i
        refine ⟨Or.inr ⟨.table i, same ▸ some_, by rw [same]⟩, ?_⟩
        rintro ⟨k, -, -, isPage⟩
        cases congrArg Prod.snd isPage
      | page j =>
        have stay : ¬ gone j := fun isGone => some_ (pageAt_eq_zero_iff.2 (out j isGone))
        have same : (Part.page j).address m'.words d = (Part.page j).address m.words d := stays j stay
        rw [same] at some_ ⊢
        refine ⟨Or.inr ⟨.page j, some_, rfl⟩, ?_⟩
        rintro ⟨k, isGone, -, isPage⟩
        have place := held.part_eq (x := .page j) (y := .page k) some_ (congrArg Prod.fst isPage) rfl
        exact stay (Part.page.inj place ▸ isGone)
  · rintro ⟨rest | ⟨x, some_, rfl⟩, notGone⟩
    · exact Or.inl rest
    · refine Or.inr ⟨x, ?_⟩
      have same : x.address m'.words d = x.address m.words d := by
        cases x with
        | dir => rfl
        | table i => exact tables i
        | page j =>
          refine stays j fun isGone => notGone ⟨j, isGone, ?_, rfl⟩
          exact mt pageAt_eq_zero_iff.2 some_
      rw [same]
      exact ⟨some_, rfl⟩

/-- The range is cleared unless a page in it is skipped. -/
theorem Sweep.cleared_iff {m' : VMem} {oldsz newsz : Nat} (held : Held S d R m)
    (sweep : Sweep S R d (pages newsz) (pages oldsz) m m') (bounded : newsz ≤ UADDR_SZ) :
    Cleared d oldsz newsz m m' ↔
      ∀ k, InRange oldsz newsz k → entry m.words d k ≠ 0 → ¬ skips m.words d (pages newsz) k := by
  have mine := sweep.change.mine
  simp only [swept] at mine
  constructor
  · intro cleared k inRange some_ skip
    have kept := mine k
    rw [if_neg fun visited => visited.2.2 skip, cleared.gone k inRange] at kept
    exact some_ kept.symm
  · intro visited
    have gone : ∀ k, InRange oldsz newsz k → entry m'.words d k = 0 := by
      intro k inRange
      obtain ⟨above, below⟩ := (inRange_iff bounded).1 inRange
      rw [mine]
      by_cases empty : entry m.words d k = 0
      · rw [empty, ite_self]
      · rw [if_pos ⟨above, below, visited k inRange empty⟩]
    have stays : ∀ k, ¬ InRange oldsz newsz k → entry m'.words d k = entry m.words d k := by
      intro k outside
      rw [mine, if_neg]
      exact fun inside => outside ((inRange_iff bounded).2 ⟨inside.1, inside.2.1⟩)
    exact ⟨gone, stays, held.outstanding_sdiff sweep.held sweep.tables gone stays⟩

/-- The pages that `freevm` loses. -/
def leaked (w : Words) (d : Nat) : Set (Nat × Nat) :=
  {b | ∃ k, entry w d k ≠ 0 ∧ skips w d 0 k ∧ b = (pageAt w d k, PTE_SHIFT)}

/-- **`freevm` frees an address space** but for the pages that are skipped, and leaves the page
tables of others alone. -/
theorem Held.freevm {C : VContract} (back : ReturnsTables C) (held : Held S d R m) :
    Sat C (fun _ m' => Kept S nowhere (R ∪ leaked m.words d) m' ∧
      (∀ u, (u, PT_ORDER) ∈ R → m'.words u = m.words u) ∧ m'.misses = m.misses) (Vm.freevm d m) := by
  unfold Vm.freevm
  refine Sat.failIf (fun none_ => absurd (beq_iff_eq.1 none_) held.nonzero) fun _ => ?_
  refine (held.deallocuvm le_rfl (by decide)).seq fun _ m1 post => ?_
  obtain ⟨-, sweep⟩ := post
  have mine := sweep.change.mine
  simp only [swept] at mine
  have left : ∀ k, entry m1.words d k ≠ 0 → entry m.words d k ≠ 0 ∧ skips m.words d 0 k ∧
      pageAt m1.words d k = pageAt m.words d k := by
    intro k some_
    have few : k / 256 < 256 := sweep.held.few _ (tableAt_ne_zero_of_entry some_)
    have inside : k < pages UADDR_SZ := by
      show k < (268435456 + 4095) / 4096
      omega
    have visited : ¬ (pages 0 ≤ k ∧ k < pages UADDR_SZ ∧ ¬ skips m.words d (pages 0) k) := by
      intro visited
      rw [mine, if_pos visited] at some_
      exact some_ rfl
    have same := mine k
    rw [if_neg visited] at same
    refine ⟨same ▸ some_, ?_, by simp only [pageAt, same]⟩
    by_contra noSkip
    exact visited ⟨Nat.zero_le k, inside, noSkip⟩
  have stays : ∀ k, skips m.words d 0 k → entry m1.words d k = entry m.words d k := by
    intro k skip
    rw [mine, if_neg fun visited => visited.2.2 skip]
  have out : m1.outstanding =
      (R ∪ leaked m.words d) ∪ tablesOf m1.words d (List.range NUM_UPDE) := by
    rw [sweep.held.outstanding_eq]
    ext b
    constructor
    · rintro (rest | ⟨x, some_, rfl⟩)
      · exact Or.inl (Or.inl rest)
      · cases x with
        | dir => exact Or.inr (Or.inl rfl)
        | table i => exact Or.inr (Or.inr ⟨i, List.mem_range.2 (sweep.held.few i some_), some_, rfl⟩)
        | page k =>
          obtain ⟨there, skip, same⟩ := left k (mt pageAt_eq_zero_iff.2 some_)
          exact Or.inl (Or.inr ⟨k, there, skip, congrArg (·, PTE_SHIFT) same⟩)
    · rintro ((rest | ⟨k, there, skip, rfl⟩) | rfl | ⟨i, -, some_, rfl⟩)
      · exact Or.inl rest
      · have same : pageAt m1.words d k = pageAt m.words d k := by simp only [pageAt, stays k skip]
        refine Or.inr ⟨.page k, ?_, congrArg (·, PTE_SHIFT) same.symm⟩
        exact mt pageAt_eq_zero_iff.1 (stays k skip ▸ there)
      · exact Or.inr ⟨.dir, held.nonzero, rfl⟩
      · exact Or.inr ⟨.table i, some_, rfl⟩
  have notLeaked : ∀ u, (u, PT_ORDER) ∉ leaked m.words d := by
    rintro u ⟨k, -, -, isPage⟩
    cases congrArg Prod.snd isPage
  have apart := sweep.held.tablesApart
  have apart' : TablesApart m1.words d (R ∪ leaked m.words d) :=
    ⟨fun inside => inside.elim apart.dir (notLeaked _), apart.notDir,
      fun i some_ inside => inside.elim (apart.tight i some_) (notLeaked _), apart.once⟩
  have memory := sweep.held.memory
  rw [out] at memory
  refine (freeTables_spec back held.nonzero apart' memory).mono fun _ m2 post => ?_
  obtain ⟨memory2, words2, misses2⟩ := post
  refine ⟨memory2, fun u other => ?_, misses2.trans sweep.misses⟩
  rw [words2]
  exact sweep.change.others u other

/-- **`deallocuvm` and `freevm` free everything in range** exactly if no page in range starts a
megabyte after one without a page table; the memory is in order in any case. -/
theorem deallocuvm_freevm_iff (held : Held S d R m) {oldsz newsz : Nat} (bounded : oldsz ≤ UADDR_SZ)
    (shrinks : newsz < oldsz) :
    (∃ m', (Vm.deallocuvm d oldsz newsz m).leaf = .done newsz m' ∧ Kept S nowhere m'.outstanding m' ∧
      (Cleared d oldsz newsz m m' ↔ ∀ k, InRange oldsz newsz k → entry m.words d k ≠ 0 →
        ¬ skips m.words d (pages newsz) k)) ∧
    ∃ m', (Vm.freevm d m).leaf = .done () m' ∧ Kept S nowhere m'.outstanding m' ∧
      (m'.outstanding = m.outstanding \ blocksOf m.words d ↔
        ∀ k, entry m.words d k ≠ 0 → ¬ skips m.words d 0 k) := by
  have others : m.outstanding \ blocksOf m.words d = R := by
    rw [held.outstanding_eq]
    ext b
    constructor
    · rintro ⟨rest | mine, notMine⟩
      · exact rest
      · exact absurd mine notMine
    · refine fun rest => ⟨Or.inl rest, ?_⟩
      rintro ⟨x, some_, rfl⟩
      exact (held.named some_).2 rest
  constructor
  · obtain ⟨res, m', returned, rfl, sweep⟩ :=
      (held.deallocuvm (C := Contract.total) bounded shrinks).returns
    exact ⟨m', returned, sweep.held.memory, sweep.cleared_iff held (shrinks.le.trans bounded)⟩
  · obtain ⟨res, m', returned, memory, -⟩ :=
      (held.freevm (C := Contract.total) fun _ _ => trivial).returns
    have out := memory.outstanding_eq
    refine ⟨m', returned, by rwa [out], ?_⟩
    rw [out, others]
    constructor
    · intro same k some_ skip
      have inR : (pageAt m.words d k, PTE_SHIFT) ∈ R := by
        rw [← same]
        exact Or.inr ⟨k, some_, skip, rfl⟩
      exact (held.named (x := .page k) (mt pageAt_eq_zero_iff.1 some_)).2 inR
    · intro visited
      refine Set.union_eq_self_of_subset_right ?_
      rintro b ⟨k, some_, skip, rfl⟩
      exact absurd skip (visited k some_)

/-! ## Allocating a range -/

/-- The permissions of an entry as `mappages` makes it. -/
theorem pteAp_mkPte {pa : Nat} (ap : Nat) (aligned : pa % 4096 = 0) : pteAp (mkPte pa ap) = ap % 4 := by
  rw [mkPte_eq ap aligned]
  unfold pteAp
  omega

/-- The page tables that were linked in. -/
def linked (w w' : Words) (d : Nat) : Set (Nat × Nat) :=
  {b | ∃ i, tableAt w d i = 0 ∧ tableAt w' d i ≠ 0 ∧ b = (tableAt w' d i, PT_ORDER)}

/-- The pages that were outstanding hold the bytes they held. -/
def KeepsBytes (m m' : VMem) : Prop :=
  ∀ a, (a, PTE_SHIFT) ∈ m.outstanding → ∀ i < PTE_SZ, m'.bytes (a + i) = m.bytes (a + i)

/-- The pages `k` for which `new` holds have been mapped: they were free, they hold zeros and the
user may use them. -/
structure Gained (R : Set (Nat × Nat)) (d : Nat) (new : Nat → Prop) (m m' : VMem) : Prop
    extends Stable d R m m' where
  stays : ∀ k, ¬ new k → entry m'.words d k = entry m.words d k
  mapped : ∀ k, new k → entry m'.words d k ≠ 0 ∧ pteAp (entry m'.words d k) = AP_KU
  fresh : ∀ k, new k → (pageAt m'.words d k, PTE_SHIFT) ∉ m.outstanding
  zeroed : ∀ k, new k → ∀ i < PTE_SZ, m'.bytes (pageAt m'.words d k + i) = 0
  bytes : KeepsBytes m m'

variable {lo hi : Nat}

theorem Gained.none_ {m' : VMem} {new : Nat → Prop} (nothing : ∀ k, ¬ new k)
    (words : m'.words = m.words) (bytes : m'.bytes = m.bytes) : Gained R d new m m' where
  toStable := .of_words words
  stays k _ := by rw [words]
  mapped k isNew := absurd isNew (nothing k)
  fresh k isNew := absurd isNew (nothing k)
  zeroed k isNew := absurd isNew (nothing k)
  bytes a _ i _ := by rw [bytes]

/-- What is outstanding after pages have been mapped where there were none. -/
theorem Gained.outstanding {m' : VMem} {new : Nat → Prop} (gained : Gained R d new m m')
    (held : Held S d R m) (held' : Held S d R m') (empty : ∀ k, new k → entry m.words d k = 0) :
    m'.outstanding = m.outstanding ∪ linked m.words m'.words d ∪
      {b | ∃ k, new k ∧ b = (pageAt m'.words d k, PTE_SHIFT)} := by
  have stays : ∀ k, ¬ new k → pageAt m'.words d k = pageAt m.words d k := by
    intro k old
    simp only [pageAt, gained.stays k old]
  rw [held'.outstanding_eq, held.outstanding_eq]
  ext b
  constructor
  · rintro (rest | ⟨x, some_, rfl⟩)
    · exact Or.inl (Or.inl (Or.inl rest))
    · cases x with
      | dir => exact Or.inl (Or.inl (Or.inr ⟨.dir, some_, rfl⟩))
      | table i =>
        by_cases none_ : tableAt m.words d i = 0
        · exact Or.inl (Or.inr ⟨i, none_, some_, rfl⟩)
        · have same : (Part.table i).address m'.words d = (Part.table i).address m.words d :=
            gained.tables i none_
          exact Or.inl (Or.inl (Or.inr ⟨.table i, none_, by rw [same]⟩))
      | page k =>
        by_cases isNew : new k
        · exact Or.inr ⟨k, isNew, rfl⟩
        · have same : (Part.page k).address m'.words d = (Part.page k).address m.words d :=
            stays k isNew
          exact Or.inl (Or.inl (Or.inr ⟨.page k, same ▸ some_, by rw [same]⟩))
  · rintro (((rest | ⟨x, some_, rfl⟩) | ⟨i, -, some_, rfl⟩) | ⟨k, isNew, rfl⟩)
    · exact Or.inl rest
    · refine Or.inr ⟨x, ?_⟩
      have same : x.address m'.words d = x.address m.words d := by
        cases x with
        | dir => rfl
        | table i => exact gained.tables i some_
        | page k => exact stays k fun isNew => some_ (pageAt_eq_zero_iff.2 (empty k isNew))
      rw [same]
      exact ⟨some_, rfl⟩
    · exact Or.inr ⟨.table i, some_, rfl⟩
    · exact Or.inr ⟨.page k, mt pageAt_eq_zero_iff.1 (gained.mapped k isNew).1, rfl⟩

/-- The free page `mem` has been filled and mapped at `k`. -/
structure MapsFresh (R : Set (Nat × Nat)) (d k mem ap : Nat) (f : Nat → BitVec 8) (m m' : VMem) :
    Prop extends Stable d R m m' where
  mapped : entry m'.words d k ≠ 0 ∧ pteAp (entry m'.words d k) = ap % 4
  page : pageAt m'.words d k = mem
  fill : ∀ i < PTE_SZ, m'.bytes (mem + i) = f i
  stays : ∀ j, j ≠ k → entry m'.words d j = entry m.words d j
  bytes : KeepsBytes m m'

/-- A page `kmalloc` has just returned is mapped. -/
theorem Held.mapFresh (held : Held S d R m) (small : k < 65536) (empty : entry m.words d k = 0)
    {mem : Nat} {h : Client} {fails : List Bool} (fresh : (mem, PTE_SHIFT) ∉ m.outstanding)
    (memory : Kept S nowhere (insert (mem, PTE_SHIFT) m.outstanding)
      { m with heap := h, fails := fails }) (ap : Nat) (f : Nat → BitVec 8)
    (why : (VMem.supply { m with heap := h, fails := fails }).serve
      (tableNeed (tabled m.words d) k) = .error .table → short) :
    Sat (vmStops short may) (fun _ m' => Held S d R m' ∧ MapsFresh R d k mem ap f m m' ∧
        AddsTables d k (k + 1) m.words m'.words ∧ m'.misses = m.misses ∧
        (VMem.supply { m with heap := h, fails := fails }).serve
          (tableNeed (tabled m.words d) k) = .ok m'.supply)
      (Vm.mapPage d (PTE_SZ * k) (v2p mem) ap
        { m with heap := h, fails := fails, bytes := Vm.filled m.bytes mem f }) := by
  have out := memory.owns.loose_used _ (Set.mem_insert (mem, PTE_SHIFT) _)
  have aligned : mem % 4096 = 0 := memory.page_aligned out rfl
  have kernel : 0x80000000 < mem := memory.kernel out
  have physical : v2p mem % 4096 = 0 := by
    show (mem - 0x80000000) % 4096 = 0
    omega
  have tight : (mem, PTE_SHIFT) ∉ R := fun inR => fresh (held.owns.loose_used _ inR)
  have held1 : Held S d (insert (mem, PTE_SHIFT) R)
      { m with heap := h, fails := fails, bytes := Vm.filled m.bytes mem f } :=
    held.alloc (memory.congr rfl rfl rfl rfl) fresh (fun _ => rfl) fun _ => rfl
  refine (Fixes.also (f := VMem.bytes) (held1.mapPage small empty ap (Or.inl rfl) why)).mono
    fun _ m' post => ?_
  obtain ⟨⟨held', change, tables, misses, served⟩, bytes⟩ := post
  rw [Set.insert_sdiff_self_of_notMem tight] at held'
  have here : entry m'.words d k = mkPte (v2p mem) ap := by rw [change.mine, upd_same]
  refine ⟨held', ⟨⟨change.tables, fun u other => change.others u (Or.inr other), change.clean⟩, ?_,
    pageAt_of_entry here kernel aligned, fun i inside => ?_, fun j ne => ?_,
    fun a old i inside => ?_⟩, tables, misses, served⟩
  · rw [here]
    exact ⟨mkPte_ne_zero _ _, pteAp_mkPte ap physical⟩
  · rw [bytes]
    exact filled_inside m.bytes mem f inside
  · rw [change.mine, upd_ne _ _ ne]
  · -- pages that were outstanding are not the new one
    rw [bytes]
    refine filled_outside m.bytes _ inside aligned (held.memory.page_aligned old rfl) ?_
    rintro rfl
    exact fresh old

theorem MapsFresh.samePage {mem ap : Nat} {f : Nat → BitVec 8} {m' : VMem}
    (new : MapsFresh R d k mem ap f m m') {j : Nat} (ne : j ≠ k) :
    pageAt m'.words d j = pageAt m.words d j := by
  simp only [pageAt, new.stays j ne]

/-- One round of the loop of `allocuvm`: a free page is cleared and mapped. -/
theorem Gained.snoc {m0 m1 : VMem} {mem : Nat} (gained : Gained R d (fun k => lo ≤ k ∧ k < hi) m0 m)
    (le : lo ≤ hi) (held0 : Held S d R m0) (held : Held S d R m)
    (empty : ∀ k, lo ≤ k → k < hi → entry m0.words d k = 0)
    (fresh : (mem, PTE_SHIFT) ∉ m.outstanding) (page : MapsFresh R d hi mem AP_KU (fun _ => 0) m m1) :
    Gained R d (fun k => lo ≤ k ∧ k < hi + 1) m0 m1 := by
  have grows : m0.outstanding ⊆ m.outstanding := by
    rw [gained.outstanding held0 held fun k inside => empty k inside.1 inside.2]
    exact fun b out => Or.inl (Or.inl out)
  refine ⟨gained.toStable.trans page.toStable, fun k old => ?_, fun k new => ?_, fun k new => ?_,
    fun k new i small => ?_, fun a out i small => ?_⟩
  · rw [page.stays k (by omega)]
    exact gained.stays k (by omega)
  · by_cases isHi : k = hi
    · rw [isHi]
      exact page.mapped
    · rw [page.stays k isHi]
      exact gained.mapped k (by omega)
  · by_cases isHi : k = hi
    · rw [isHi, page.page]
      exact fun out => fresh (grows out)
    · rw [page.samePage isHi]
      exact gained.fresh k (by omega)
  · by_cases isHi : k = hi
    · rw [isHi, page.page]
      exact page.fill i small
    · have old : lo ≤ k ∧ k < hi := by omega
      have some_ := mt pageAt_eq_zero_iff.1 (gained.mapped k old).1
      have out : (pageAt m.words d k, PTE_SHIFT) ∈ m.outstanding := (held.named (x := .page k) some_).1
      rw [page.samePage isHi, page.bytes _ out i small]
      exact gained.zeroed k old i small
  · rw [page.bytes a (grows out) i small]
    exact gained.bytes a out i small

/-- The new pages are taken back: their page tables are there, so that none of them is skipped. -/
theorem Gained.sweep {m0 m1 m' : VMem} {mid : Nat}
    (gained : Gained R d (fun k => lo ≤ k ∧ k < mid) m0 m) (le : mid ≤ hi)
    (empty : ∀ k, lo ≤ k → k < hi → entry m0.words d k = 0) (sweep : Sweep S R d lo hi m1 m')
    (words : m1.words = m.words) (bytes : m'.bytes = m.bytes) :
    Gained R d (fun _ => False) m0 m' := by
  refine ⟨(gained.toStable.trans (.of_words words)).trans sweep.change.toStable, fun j _ => ?_,
    fun _ => False.elim, fun _ => False.elim, fun _ => False.elim, fun a out i small => ?_⟩
  · rw [sweep.change.mine, swept, words]
    by_cases outside : ¬ (lo ≤ j ∧ j < hi)
    · rw [if_neg fun visited => outside ⟨visited.1, visited.2.1⟩]
      exact gained.stays j (by omega)
    · have inside : lo ≤ j ∧ j < hi := not_not.1 outside
      rw [empty j inside.1 inside.2]
      by_cases skip : skips m.words d lo j
      · rw [if_neg fun visited => visited.2.2 skip]
        obtain ⟨after, first, none_⟩ := skip
        by_cases old : j < mid
        · have before : (j - 1) / 256 = j / 256 - 1 := by omega
          have there := (gained.mapped (j - 1) (by omega)).1
          exact absurd none_ (before ▸ tableAt_ne_zero_of_entry there)
        · rw [gained.stays j (by omega), empty j inside.1 inside.2]
      · rw [if_pos ⟨inside.1, inside.2, skip⟩]
  · rw [bytes]
    exact gained.bytes a out i small

/-- The loop of `allocuvm`, when pages up to `k` have been mapped. -/
theorem Held.allocLoop {oldsz newsz : Nat} (bounded : newsz ≤ UADDR_SZ) {m0 : VMem}
    (held0 : Held S d R m0)
    (empty : ∀ k, pages oldsz ≤ k → k < pages newsz → entry m0.words d k = 0) :
    ∀ (n k : Nat) (m : VMem), Held S d R m → k + n = pages newsz → pages oldsz ≤ k →
      Gained R d (fun j => pages oldsz ≤ j ∧ j < k) m0 m →
      AddsTables d (pages oldsz) k m0.words m.words →
      (m.supply.serve (needs (tabled m.words d) k n) = .error .table → short) →
      Sat (vmStops short may) (fun res m' => Held S d R m' ∧
        (∃ mid, AddsTables d (pages oldsz) mid m0.words m'.words) ∧
        (res = newsz ∧ m'.misses = m.misses ∧
            Gained R d (fun j => pages oldsz ≤ j ∧ j < pages newsz) m0 m' ∧
            AddsTables d (pages oldsz) (pages newsz) m0.words m'.words ∧
            m.supply.serve (needs (tabled m.words d) k n) = .ok m'.supply ∨
          res = 0 ∧ m'.misses = PTE_SHIFT :: m.misses ∧ Gained R d (fun _ => False) m0 m' ∧
            m.supply.serve (needs (tabled m.words d) k n) = .error .page))
        (Vm.allocLoop d oldsz newsz ((List.range' k n).map (PTE_SZ * ·)) m) := by
  intro n
  induction n with
  | zero =>
    intro k m held whole _ gained tables _
    rw [Nat.add_zero] at whole
    subst whole
    exact ⟨held, ⟨_, tables⟩, Or.inl ⟨rfl, rfl, gained, tables, rfl⟩⟩
  | succ n ih =>
    intro k m held whole start gained tables why
    have small : k < 65536 := by
      have := pages_bounded bounded
      omega
    rw [List.range'_succ, List.map_cons, Vm.allocLoop]
    rw [needs] at why ⊢
    rcases kmalloc_cases held.memory 6 le_rfl with
      ⟨fails, missed, refused⟩ | ⟨mem, h, fails, got, memNonzero, -, fresh, memory, given_⟩
    · refine Sat.step missed ?_
      rw [if_pos rfl]
      have held1 : Held S d R { m with fails := fails, misses := (6 + 6) :: m.misses } :=
        ⟨held.nonzero, held.memory.congr rfl rfl rfl rfl, held.owns, held.few⟩
      have shrinks : oldsz < newsz := by
        by_contra le
        have := pages_le (Nat.not_lt.1 le)
        omega
      refine (Fixes.also (f := VMem.bytes) (held1.deallocuvm bounded shrinks)).seq
        fun _ m' post => ?_
      obtain ⟨⟨-, sweep⟩, bytes⟩ := post
      refine ⟨sweep.held, ⟨k, fun i => ?_⟩,
        Or.inr ⟨rfl, sweep.misses, gained.sweep (by omega) empty sweep rfl bytes,
          Supply.serve_none refused⟩⟩
      rw [sweep.tables]
      exact tables i
    · refine Sat.step got ?_
      have first : m.supply.give .page = some (VMem.supply { m with heap := h, fails := fails }) :=
        given_
      rw [Supply.serve_some first] at why ⊢
      rw [if_neg memNonzero, mappages_page small]
      have emptyHere : entry m.words d k = 0 := by
        rw [gained.stays k (by omega)]
        exact empty k start (by omega)
      refine Sat.step rfl (Sat.call ((held.mapFresh small emptyHere fresh memory AP_KU
        (fun _ => 0) fun refused => why (Supply.serve_append_error refused)).seq fun _ m2 post => ?_))
      obtain ⟨held2, page, extends2, misses2, served2⟩ := post
      rw [Supply.serve_append served2, ← extends2.tabled] at why ⊢
      have gained2 := gained.snoc start held0 held (fun j above below => empty j above (by omega))
        fresh page
      refine (ih (k + 1) m2 held2 (by omega) (by omega) gained2
        (tables.snoc extends2 start) why).mono fun res m' post => ?_
      rw [misses2] at post
      exact post

/-- What it takes to let an address space grow. -/
def growth (w : Words) (d oldsz newsz : Nat) : List Need :=
  needs (tabled w d) (pages oldsz) (pages newsz - pages oldsz)

/-- `allocuvm` maps the pages of a range where there is none, or leaves the entries alone. -/
theorem Held.allocuvm (held : Held S d R m) {oldsz newsz : Nat} (le : oldsz ≤ newsz)
    (empty : ∀ k, pages oldsz ≤ k → k < pages newsz → entry m.words d k = 0)
    (why : newsz < UADDR_SZ →
      m.supply.serve (growth m.words d oldsz newsz) = .error .table → short) :
    Sat (vmStops short may) (fun res m' => Held S d R m' ∧
        (∃ mid, AddsTables d (pages oldsz) mid m.words m'.words) ∧
        (res = 0 ∧ (UADDR_SZ ≤ newsz ∧ m'.misses = m.misses ∨ m'.misses = PTE_SHIFT :: m.misses ∧
              m.supply.serve (growth m.words d oldsz newsz) = .error .page) ∧
            Gained R d (fun _ => False) m m' ∨
          res = newsz ∧ newsz < UADDR_SZ ∧ m'.misses = m.misses ∧
            Gained R d (fun j => pages oldsz ≤ j ∧ j < pages newsz) m m' ∧
            AddsTables d (pages oldsz) (pages newsz) m.words m'.words ∧
            m.supply.serve (growth m.words d oldsz newsz) = .ok m'.supply))
      (Vm.allocuvm d oldsz newsz m) := by
  unfold Vm.allocuvm
  by_cases huge : UADDR_SZ ≤ newsz
  · rw [if_pos huge]
    exact ⟨held, ⟨_, .none_ fun _ => rfl⟩,
      Or.inl ⟨rfl, Or.inl ⟨huge, rfl⟩, .none_ (fun _ => id) rfl rfl⟩⟩
  · have below : newsz < UADDR_SZ := Nat.not_le.1 huge
    rw [if_neg huge, if_neg (Nat.not_lt.2 le), alignUp_eq (le.trans below.le), pagesFrom_page]
    have start : Gained R d (fun j => pages oldsz ≤ j ∧ j < pages oldsz) m m :=
      .none_ (fun k inside => absurd (inside.1.trans_lt inside.2) (Nat.lt_irrefl _)) rfl rfl
    refine (held.allocLoop below.le empty _ _ m held (Nat.add_sub_of_le (pages_le le)) le_rfl
      start (.none_ fun _ => rfl) (why below)).mono fun res m' post => ?_
    obtain ⟨held', tables, ⟨rfl, misses, gained, whole, served⟩ | ⟨rfl, misses, gained, refused⟩⟩ :=
      post
    · exact ⟨held', tables, Or.inr ⟨rfl, below, misses, gained, whole, served⟩⟩
    · exact ⟨held', tables, Or.inl ⟨rfl, Or.inr ⟨misses, refused⟩, gained⟩⟩

/-- **`allocuvm` is all or nothing.**  In a directory without a page in `[align_up(oldsz), newsz)`
it returns 0 when `newsz` is too large or a page cannot be had, and then but for page tables
linked in all is as it was; else it returns `newsz`, and exactly the pages of the range are new,
with zeros in them, accessible to the user and different from each other.  It stops only when
there is no memory for a page table. -/
theorem allocuvm_all_or_nothing (held : Held S d R m) {oldsz newsz : Nat} (le : oldsz ≤ newsz)
    (empty : ∀ k, InRange newsz oldsz k → entry m.words d k = 0) :
    Sat (vmContract fun _ => False) (fun res m' =>
        (res = 0 ∧ (UADDR_SZ ≤ newsz ∨ m'.misses = PTE_SHIFT :: m.misses) ∧
          Gained R d (fun _ => False) m m' ∧
          m'.outstanding = m.outstanding ∪ linked m.words m'.words d) ∨
        (res = newsz ∧ newsz < UADDR_SZ ∧ m'.misses = m.misses ∧
          Gained R d (InRange newsz oldsz) m m' ∧
          (∀ j k, InRange newsz oldsz j → InRange newsz oldsz k →
            pageAt m'.words d j = pageAt m'.words d k → j = k) ∧
          m'.outstanding = m.outstanding ∪ linked m.words m'.words d ∪
            {b | ∃ k, InRange newsz oldsz k ∧ b = (pageAt m'.words d k, PTE_SHIFT)}))
      (allocuvm d oldsz newsz m) := by
  have undone : ∀ m', Held S d R m' → Gained R d (fun _ => False) m m' →
      m'.outstanding = m.outstanding ∪ linked m.words m'.words d := by
    intro m' held' gained
    rw [gained.outstanding held held' fun _ => False.elim]
    simp
  by_cases huge : UADDR_SZ ≤ newsz
  · have same : Gained R d (fun _ => False) m m := .none_ (fun _ => id) rfl rfl
    unfold allocuvm
    rw [if_pos huge]
    exact Or.inl ⟨rfl, Or.inl huge, same, undone m held same⟩
  · have bounded : oldsz ≤ UADDR_SZ := le.trans (Nat.not_le.1 huge).le
    have isRange : InRange newsz oldsz = fun k => pages oldsz ≤ k ∧ k < pages newsz :=
      funext fun k => propext (inRange_iff bounded)
    have empty' : ∀ k, pages oldsz ≤ k → k < pages newsz → entry m.words d k = 0 :=
      fun k above below => empty k ((inRange_iff bounded).2 ⟨above, below⟩)
    refine (held.allocuvm le empty' fun _ _ => trivial).mono fun res m' post => ?_
    obtain ⟨held', -, ⟨rfl, why, gained⟩ | ⟨rfl, below, misses, gained, -⟩⟩ := post
    · exact Or.inl ⟨rfl, why.imp And.left And.left, gained, undone m' held' gained⟩
    · rw [← isRange] at gained
      refine Or.inr ⟨rfl, below, misses, gained, fun j k inJ _ same => ?_,
        gained.outstanding held held' empty⟩
      have some_ := mt pageAt_eq_zero_iff.1 (gained.mapped j inJ).1
      exact Part.page.inj (held'.part_eq (x := .page j) (y := .page k) some_ same rfl)

end Ranges

/-! ## A directory with one page -/

/-- The memory when the kernel starts to hand it out. -/
def VMem.booted (km : Kmem) (boot : List Nat) (fails : List Bool) : VMem :=
  ⟨⟨km, ∅⟩, boot, boot, fun _ _ => 0, fun _ => 0, fails, []⟩

theorem kept_booted {km : Kmem} {N P : Nat} (heap : Kernel.HeapInv N P ∅ km)
    (above : BOOT_END ≤ km.startHeap) {boot : List Nat} (pool : BootPool boot) (fails : List Bool) :
    Kept ⟨N, P, km, boot⟩ nowhere ∅ (VMem.booted km boot fails) := by
  have none_ : (VMem.booted km boot fails).outstanding = ∅ := by
    ext b
    simp [VMem.outstanding, VMem.booted]
  have empty : ∀ x, nowhere.block (VMem.booted km boot fails).words x = 0 :=
    fun x => View.block_eq_zero_iff.2 (nowhere_address _ x)
  refine ⟨Client.Inv.start heap, above, rfl, pool, pool.nodup, fun _ => id, ?_, ?_, ?_⟩
  · rw [none_]
    exact ⟨fun x some_ => absurd (empty x) some_, fun x _ some_ => absurd (empty x) some_,
      fun _ => False.elim, fun _ => False.elim, fun _ => False.elim⟩
  · exact fun r i j _ some_ => absurd tableAt_zero some_
  · exact fun r i some_ => absurd tableAt_zero some_

/-- A new directory with the one page `k`; the page is 0 when there is no memory. -/
def onePage (k : Nat) : V (Nat × Nat) := do
  let d ← kptAlloc
  let mem ← allocPage
  if mem = 0 then return (d, 0)
  else do
    mapPage d (PTE_SZ * k) (v2p mem) AP_KU
    return (d, mem)

theorem onePage_spec {S : Setup} {m : VMem} {k : Nat} (kept : Kept S nowhere ∅ m) (small : k < 65536) :
    Sat (vmContract fun _ => False) (fun res m' => res.2 ≠ 0 → Held S res.1 ∅ m' ∧
      ∀ j, entry m'.words res.1 j ≠ 0 ↔ j = k) (onePage k m) := by
  refine (kptAlloc_spec kept fun _ => trivial).seq fun d m1 post => ?_
  obtain ⟨-, fresh, kept1, -, cleared, -⟩ := post
  have held1 := Held.adopt kept1 fresh cleared
  have noTable : ∀ i, tableAt m1.words d i = 0 := by
    intro i
    simp [tableAt, cleared]
  have noPage : ∀ j, entry m1.words d j = 0 := fun j => entry_of_tableAt_eq_zero (noTable _)
  rcases kmalloc_cases held1.memory 6 le_rfl with
    ⟨fails, missed, -⟩ | ⟨mem, h, fails, got, nonzero, -, memFresh, memory, -⟩
  · refine Sat.step missed ?_
    rw [if_pos rfl]
    exact fun some_ => absurd rfl some_
  · refine Sat.step got ?_
    rw [if_neg nonzero]
    have held2 := held1.alloc memory memFresh (fun _ => rfl) fun _ => rfl
    refine (held2.mapPage small (noPage k) AP_KU (Or.inl rfl) fun _ => trivial).seq
      fun _ m3 post => ?_
    obtain ⟨held3, change, -⟩ := post
    have alone : insert (mem, PTE_SHIFT) (∅ : Set (Nat × Nat)) \ {(mem, PTE_SHIFT)} = ∅ :=
      Set.insert_sdiff_self_of_notMem (Set.notMem_empty _)
    refine fun _ => ⟨alone ▸ held3, fun j => ?_⟩
    rw [change.mine]
    by_cases same : j = k
    · rw [same, upd_same]
      exact iff_of_true (mkPte_ne_zero _ _) rfl
    · rw [upd_ne _ _ same]
      exact iff_of_false (not_not.2 (noPage j)) same

theorem region_small : Kernel.Region BOOT_END (BOOT_END + 163840) := by
  constructor <;> decide

/-- A heap of forty pages and two boot-time page tables. -/
def smallHeap : Except KmemPanic Kmem :=
  Kmem.kmemInit2 BOOT_END (BOOT_END + 163840) noHeap

def fewTables : List Nat := [BOOT_END - 1024, BOOT_END - 2048]

/-- Make a directory with the one page `k`, and check it. -/
def checksOnePage (k : Nat) (check : Nat → VMem → Bool) : Bool :=
  match smallHeap with
  | .error _ => false
  | .ok km => match (onePage k (VMem.booted km fewTables [])).leaf with
    | .done (d, mem) m => mem != 0 && check d m
    | _ => false

/-- A directory with the one page `k` that passes a check can be made. -/
theorem exists_onePage (k : Nat) (small : k < 65536) (check : Nat → VMem → Bool)
    (works : checksOnePage k check = true) :
    ∃ km d mem m S, smallHeap = .ok km ∧
      (onePage k (VMem.booted km fewTables [])).leaf = .done (d, mem) m ∧ Held S d ∅ m ∧
      (∀ j, entry m.words d j ≠ 0 ↔ j = k) ∧ check d m = true := by
  have pool : BootPool fewTables := by
    constructor <;> decide
  obtain ⟨N, P, km, ready, heap, above, -⟩ := Kernel.kmemInit2_spec region_small noHeap
  have ready : smallHeap = .ok km := ready
  unfold checksOnePage at works
  rw [ready] at works
  dsimp only at works
  split at works
  case h_2 => cases works
  case h_1 d mem m made =>
    rw [Bool.and_eq_true, bne_iff_ne] at works
    have leaf := (onePage_spec (kept_booted heap above pool []) small).leaf fun _ _ => trivial
    rw [made] at leaf
    obtain ⟨held, only⟩ := leaf works.1
    exact ⟨km, d, mem, m, _, ready, made, held, only, works.2⟩

/-- A directory with one page, at 0, is freed in whole. -/
theorem deallocuvm_freevm_first_page : ∃ km d mem m S, smallHeap = .ok km ∧
    (onePage 0 (VMem.booted km fewTables [])).leaf = .done (d, mem) m ∧ Held S d ∅ m ∧
    (∃ m', (deallocuvm d 8192 0 m).leaf = .done 0 m' ∧ Cleared d 8192 0 m m') ∧
    ∃ m', (freevm d m).leaf = .done () m' ∧ m'.outstanding = m.outstanding \ blocksOf m.words d := by
  obtain ⟨km, d, mem, m, S, ready, made, held, only, -⟩ :=
    exists_onePage 0 (by decide) (fun _ _ => true) (by decide +kernel)
  obtain ⟨⟨m1, returned1, -, cleared⟩, m2, returned2, -, freed⟩ :=
    deallocuvm_freevm_iff held (by decide : 8192 ≤ UADDR_SZ) (by decide : 0 < 8192)
  have visited : ∀ lo k, entry m.words d k ≠ 0 → ¬ skips m.words d lo k := by
    intro lo k some_ skip
    have first : k = 0 := (only k).1 some_
    exact Nat.not_lt_zero lo (first ▸ skip.1)
  exact ⟨km, d, mem, m, S, ready, made, held,
    ⟨m1, returned1, cleared.2 fun k _ some_ => visited _ k some_⟩,
    m2, returned2, freed.2 fun k some_ => visited 0 k some_⟩

/-- With no page table for the first megabyte a page at the start of the second stays mapped, and
`freevm` loses it. -/
theorem deallocuvm_skips_page : ∃ km d mem m S, smallHeap = .ok km ∧
    (onePage 256 (VMem.booted km fewTables [])).leaf = .done (d, mem) m ∧ Held S d ∅ m ∧
    InRange (2 * PDE_SZ) 0 256 ∧ entry m.words d 256 ≠ 0 ∧
    (∃ m', (deallocuvm d (2 * PDE_SZ) 0 m).leaf = .done 0 m' ∧ entry m'.words d 256 ≠ 0 ∧
      (pageAt m.words d 256, PTE_SHIFT) ∈ m'.outstanding) ∧
    ∃ m', (freevm d m).leaf = .done () m' ∧ (pageAt m.words d 256, PTE_SHIFT) ∈ m'.outstanding := by
  obtain ⟨km, d, mem, m, S, ready, made, held, only, gap⟩ :=
    exists_onePage 256 (by decide) (fun d m => tableAt m.words d 0 == 0) (by decide +kernel)
  have some_ : entry m.words d 256 ≠ 0 := (only 256).2 rfl
  have skip : skips m.words d 0 256 := ⟨by decide, by decide, beq_iff_eq.1 gap⟩
  refine ⟨km, d, mem, m, S, ready, made, held, by constructor <;> decide, some_, ?_, ?_⟩
  · obtain ⟨res, m', returned, rfl, sweep⟩ := (held.deallocuvm (C := Contract.total)
      (by decide : 2 * PDE_SZ ≤ UADDR_SZ) (by decide : 0 < 2 * PDE_SZ)).returns
    have same : entry m'.words d 256 = entry m.words d 256 := by
      rw [sweep.change.mine]
      exact if_neg fun visited => visited.2.2 skip
    have samePage : pageAt m'.words d 256 = pageAt m.words d 256 := by simp only [pageAt, same]
    refine ⟨m', returned, same ▸ some_, ?_⟩
    rw [← samePage]
    exact (sweep.held.named (x := .page 256) (mt pageAt_eq_zero_iff.1 (same ▸ some_))).1
  · obtain ⟨res, m', returned, memory, -⟩ :=
      (held.freevm (C := Contract.total) fun _ _ => trivial).returns
    refine ⟨m', returned, ?_⟩
    rw [memory.outstanding_eq]
    exact Or.inr ⟨256, some_, skip, rfl⟩

/-- In a directory with a page at one megabyte the two pages below 5000 are mapped. -/
theorem allocuvm_all_or_nothing_5000 : ∃ km d mem m S m', smallHeap = .ok km ∧
    (onePage 256 (VMem.booted km fewTables [])).leaf = .done (d, mem) m ∧ Held S d ∅ m ∧
    (allocuvm d 0 5000 m).leaf = .done 5000 m' ∧ Gained ∅ d (InRange 5000 0) m m' := by
  obtain ⟨km, d, mem, m, S, ready, made, held, only, grows⟩ :=
    exists_onePage 256 (by decide) (fun d m => (allocuvm d 0 5000 m).value? == some 5000)
      (by decide +kernel)
  have empty : ∀ k, InRange 5000 0 k → entry m.words d k = 0 := by
    intro k inRange
    by_contra some_
    have high : 4096 * k < 5000 := inRange.2
    have isK := (only k).1 some_
    omega
  have leaf := Outcome.leaf_of_value? (beq_iff_eq.1 grows)
  have sat := (allocuvm_all_or_nothing held (by decide : 0 ≤ 5000) empty).leaf fun _ _ => trivial
  rw [leaf] at sat
  rcases sat with ⟨isZero, -⟩ | ⟨-, -, -, gained, -⟩
  · cases isZero
  · exact ⟨km, d, mem, m, S, _, ready, made, held, leaf, gained⟩

end Xv6Rpi.Proc.Vm
