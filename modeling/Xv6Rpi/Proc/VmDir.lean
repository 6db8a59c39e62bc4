/-
# Proc.VmDir -- any page directory

One directory `d` is taken alone, with page tables present or absent in any pattern; those of
processes are filled from the front (`Proc.VmWhole`).
`Held S d R m`: the outstanding blocks are the directory, its page tables, its pages, each of
them once, and the others `R`, of which nothing is known but that they are others.

`deallocuvm` goes from a missing page table to the second page of the next megabyte, so that a
page at the start of that megabyte is not visited (`skipped`).  `allocuvm` never makes such a
page, and takes back what it has mapped.
-/
import Xv6Rpi.Proc.VmSpace

namespace Xv6Rpi.Proc.Vm

open Theory
open Kernel (Client upd upd_same upd_ne KERNBASE)

set_option autoImplicit false

/-! ## Parts of an address space -/

/-- What a directory leads to. -/
inductive Part where
  | dir
  | table (i : Nat)
  | page (k : Nat)
  deriving DecidableEq

namespace Part

def order : Part → Nat
  | .dir | .table _ => PT_ORDER
  | .page _ => PTE_SHIFT

def address (w : Words) (d : Nat) : Part → Nat
  | .dir => d
  | .table i => tableAt w d i
  | .page k => pageAt w d k

def block (w : Words) (d : Nat) (x : Part) : Nat × Nat :=
  if x.address w d = 0 then 0 else (x.address w d, x.order)

variable {w w' : Words} {d : Nat} {x : Part}

theorem block_eq_zero_iff : x.block w d = 0 ↔ x.address w d = 0 := by
  simp only [block, ite_eq_left_iff]
  constructor
  · intro eq
    by_contra some_
    exact some_ (congrArg Prod.fst (eq some_))
  · exact fun none_ some_ => absurd none_ some_

theorem block_of_ne (some_ : x.address w d ≠ 0) : x.block w d = (x.address w d, x.order) :=
  if_neg some_

theorem block_congr (same : x.address w' d = x.address w d) : x.block w' d = x.block w d := by
  simp only [block, same]

end Part

/-- The blocks of an address space. -/
def blocksOf (w : Words) (d : Nat) : Set (Nat × Nat) :=
  {b | ∃ x : Part, x.address w d ≠ 0 ∧ b = (x.address w d, x.order)}

/-! ## The allocator alone -/

/-- Nothing is in use. -/
def nowhere : View := ⟨fun _ => 0, fun _ => 0, fun _ => 0, fun _ => 0⟩

section Nowhere

variable {S : Setup} {Q : Set (Nat × Nat)} {m : VMem}

theorem nowhere_address (w : Words) (x : Place) : nowhere.address w x = 0 := by
  cases x with
  | table r i => exact tableAt_zero
  | page r k => exact pageAt_eq_zero_iff.2 (entry_zero w k)
  | _ => rfl

theorem nowhere_sameSpaces (w w' : Words) : SameSpaces nowhere w w' := by
  refine ⟨fun r i => ?_, fun r k => ?_⟩
  · exact tableAt_zero.trans tableAt_zero.symm
  · exact (entry_zero w' k).trans (entry_zero w k).symm

/-- With nothing in use every outstanding block is loose. -/
theorem Kept.outstanding_eq (kept : Kept S nowhere Q m) : m.outstanding = Q := by
  refine Set.Subset.antisymm (fun b out => ?_) kept.owns.loose_used
  rcases kept.owns.onto b out with loose | ⟨x, named⟩
  · exact loose
  · have none_ : nowhere.block m.words x = 0 :=
      View.block_eq_zero_iff.2 (nowhere_address m.words x)
    exact absurd (named.symm.trans none_) (kept.owns.nonzero b out)

/-- Page tables may hold anything. -/
theorem Kept.rewrite (kept : Kept S nowhere Q m) (w : Words) :
    Kept S nowhere Q { m with words := w } :=
  kept.of_same (nowhere_sameSpaces m.words w)

end Nowhere

/-! ## The invariant -/

structure Held (S : Setup) (d : Nat) (R : Set (Nat × Nat)) (m : VMem) : Prop where
  nonzero : d ≠ 0
  memory : Kept S nowhere m.outstanding m
  owns : Owns (Part.block m.words d) m.outstanding R
  few : ∀ i, tableAt m.words d i ≠ 0 → i < NUM_UPDE

section Held

variable {S : Setup} {R : Set (Nat × Nat)} {m : VMem} {d k t : Nat} {x y : Part}

theorem Held.named (held : Held S d R m) (some_ : x.address m.words d ≠ 0) :
    (x.address m.words d, x.order) ∈ m.outstanding ∧ (x.address m.words d, x.order) ∉ R := by
  have both := held.owns.named x (mt Part.block_eq_zero_iff.1 some_)
  rwa [Part.block_of_ne some_] at both

theorem Held.part_eq (held : Held S d R m) (some_ : x.address m.words d ≠ 0)
    (same : x.address m.words d = y.address m.words d) (order : x.order = y.order) : x = y := by
  refine held.owns.once x y (mt Part.block_eq_zero_iff.1 some_) ?_
  rw [Part.block_of_ne some_, Part.block_of_ne (same ▸ some_), same, order]

/-- What is outstanding is the address space and the rest. -/
theorem Held.outstanding_eq (held : Held S d R m) : m.outstanding = R ∪ blocksOf m.words d := by
  ext b
  constructor
  · intro out
    rcases held.owns.onto b out with rest | ⟨x, named⟩
    · exact Or.inl rest
    · have some_ : x.address m.words d ≠ 0 := by
        rw [Ne, ← Part.block_eq_zero_iff, named]
        exact held.owns.nonzero b out
      exact Or.inr ⟨x, some_, named.symm.trans (Part.block_of_ne some_)⟩
  · rintro (rest | ⟨x, some_, rfl⟩)
    · exact held.owns.loose_used b rest
    · exact (held.named some_).1

theorem Held.tablesApart (held : Held S d R m) : TablesApart m.words d R := by
  refine ⟨(held.named (x := .dir) held.nonzero).2, fun i some_ same => ?_, fun i some_ => ?_,
    fun i j some_ same => ?_⟩
  · cases held.part_eq (x := .table i) (y := .dir) some_ same.symm rfl
  · exact (held.named (x := .table i) some_).2
  · exact Part.table.inj (held.part_eq (x := .table i) (y := .table j) some_ same rfl)

/-- No page table of the directory is among the others. -/
theorem Held.ne_of_other (held : Held S d R m) {u : Nat} (other : (u, PT_ORDER) ∈ R) :
    u ≠ d ∧ ∀ i, u ≠ tableAt m.words d i := by
  have nonzero : u ≠ 0 := by
    have high : 0x80000000 < u := held.memory.kernel (held.owns.loose_used _ other)
    omega
  refine ⟨?_, fun i same => ?_⟩
  · rintro rfl
    exact held.tablesApart.dir other
  · exact held.tablesApart.tight i (same ▸ nonzero) (same ▸ other)

/-! ## Storing entries -/

/-- What is not in use in the page tables of a directory is 0. -/
def Clean (w : Words) (d : Nat) : Prop :=
  ∀ i, tableAt w d i ≠ 0 → ∀ j, present (w (tableAt w d i) j) = true ∨ w (tableAt w d i) j = 0

/-- No page table is lost, and the others hold what they held. -/
structure Stable (d : Nat) (R : Set (Nat × Nat)) (m m' : VMem) : Prop where
  tables : ∀ i, tableAt m.words d i ≠ 0 → tableAt m'.words d i = tableAt m.words d i
  others : ∀ u, (u, PT_ORDER) ∈ R → m'.words u = m.words u
  clean : Clean m.words d → Clean m'.words d

theorem Stable.of_words {m' : VMem} (same : m'.words = m.words) : Stable d R m m' :=
  ⟨fun _ _ => by rw [same], fun _ _ => by rw [same], fun _ => by rwa [same]⟩

theorem Stable.trans {m' m'' : VMem} (first : Stable d R m m') (second : Stable d R m' m'') :
    Stable d R m m'' where
  tables i some_ := by
    have kept := first.tables i some_
    rw [second.tables i (kept ▸ some_), kept]
  others u other := (second.others u other).trans (first.others u other)
  clean start := second.clean (first.clean start)

/-- The entries become `e`. -/
structure Change (d : Nat) (R : Set (Nat × Nat)) (e : Nat → Nat) (m m' : VMem) : Prop
    extends Stable d R m m' where
  mine : ∀ k, entry m'.words d k = e k

theorem Change.of_words {m' : VMem} (same : m'.words = m.words) :
    Change d R (entry m.words d) m m' :=
  ⟨.of_words same, fun _ => by rw [same]⟩

theorem Change.trans {e e' : Nat → Nat} {m' m'' : VMem} (first : Change d R e m m')
    (second : Change d R e' m' m'') : Change d R e' m m'' :=
  ⟨first.toStable.trans second.toStable, second.mine⟩

theorem Change.congr {e e' : Nat → Nat} {m' : VMem} (change : Change d R e m m')
    (same : ∀ k, e k = e' k) : Change d R e' m m' :=
  ⟨change.toStable, fun k => (change.mine k).trans (same k)⟩

/-- Which page tables a directory has. -/
def tabled (w : Words) (d : Nat) : Nat → Bool := fun i => decide (tableAt w d i ≠ 0)

/-- The page tables are those there were and those of the pages from `lo` up to `hi`. -/
def AddsTables (d lo hi : Nat) (w w' : Words) : Prop :=
  ∀ i, tableAt w' d i ≠ 0 ↔ tableAt w d i ≠ 0 ∨ ∃ k, lo ≤ k ∧ k < hi ∧ k / 256 = i

section AddsTables

variable {lo hi : Nat} {w w' w'' : Words}

theorem AddsTables.none_ (tables : ∀ i, tableAt w' d i = tableAt w d i) : AddsTables d lo lo w w' := by
  intro i
  rw [tables]
  constructor
  · exact Or.inl
  · rintro (there | ⟨k, above, below, -⟩)
    · exact there
    · exact absurd below (Nat.not_lt.2 above)

theorem AddsTables.one (here : tableAt w' d (k / 256) ≠ 0)
    (others : ∀ i, i ≠ k / 256 → tableAt w' d i = tableAt w d i) : AddsTables d k (k + 1) w w' := by
  intro i
  by_cases same : i = k / 256
  · subst same
    exact iff_of_true here (Or.inr ⟨k, le_rfl, Nat.lt_succ_self k, rfl⟩)
  · rw [others i same]
    constructor
    · exact Or.inl
    · rintro (there | ⟨j, above, below, rfl⟩)
      · exact there
      · exact absurd (congrArg (· / 256) (show j = k by omega)) same

/-- The page table of the one page is there now. -/
theorem AddsTables.tabled (one : AddsTables d k (k + 1) w w') :
    Vm.tabled w' d = upd (Vm.tabled w d) (k / 256) true := by
  funext i
  by_cases here : i = k / 256
  · rw [here, upd_same]
    exact decide_eq_true ((one _).2 (Or.inr ⟨k, le_rfl, Nat.lt_succ_self k, rfl⟩))
  · rw [upd_ne _ _ here]
    refine decide_eq_decide.2 ((one i).trans (or_iff_left ?_))
    rintro ⟨j, above, below, rfl⟩
    exact here (congrArg (· / 256) (show j = k by omega))

theorem AddsTables.snoc (first : AddsTables d lo hi w w') (second : AddsTables d hi (hi + 1) w' w'')
    (le : lo ≤ hi) : AddsTables d lo (hi + 1) w w'' := by
  intro i
  rw [second i, first i]
  constructor
  · rintro ((there | ⟨k, above, below, rfl⟩) | ⟨k, above, below, rfl⟩)
    · exact Or.inl there
    · exact Or.inr ⟨k, above, by omega, rfl⟩
    · exact Or.inr ⟨k, by omega, below, rfl⟩
  · rintro (there | ⟨k, above, below, rfl⟩)
    · exact Or.inl (Or.inl there)
    · by_cases last : k = hi
      · exact Or.inr ⟨k, last.ge, below, rfl⟩
      · exact Or.inl (Or.inr ⟨k, above, by omega, rfl⟩)

end AddsTables

/-- A store into a page table changes one entry. -/
theorem Held.setPte_spaces (held : Held S d R m) (there : tableAt m.words d (k / 256) = t)
    (nonzero : t ≠ 0) (e : Nat) :
    (∀ i, tableAt (putWord m.words t (k % 256) e) d i = tableAt m.words d i) ∧
      ∀ j, entry (putWord m.words t (k % 256) e) d j =
        if j = k then (if present e then e else 0) else entry m.words d j := by
  subst there
  have apart : d ≠ tableAt m.words d (k / 256) := held.tablesApart.notDir _ nonzero
  have tables : ∀ i, tableAt (putWord m.words (tableAt m.words d (k / 256)) (k % 256) e) d i =
      tableAt m.words d i := by
    intro i
    apply tableAt_congr
    intro _
    rw [putWord, upd_ne _ _ apart]
  refine ⟨tables, fun j => ?_⟩
  by_cases mine : tableAt m.words d (j / 256) = tableAt m.words d (k / 256)
  · have sameTable := held.tablesApart.once _ _ nonzero mine.symm
    rw [entry_eq ((tables (j / 256)).trans mine) nonzero, entry_eq mine nonzero]
    by_cases same : j = k
    · subst same
      simp [putWord]
    · have other : j % 256 ≠ k % 256 := by omega
      simp [putWord, same, other]
  · have ne : j ≠ k := by
      rintro rfl
      exact mine rfl
    rw [if_neg ne]
    apply entry_congr (tables _)
    intro _
    rw [putWord, upd_ne _ _ mine]

theorem Held.change (held : Held S d R m) (there : tableAt m.words d (k / 256) = t) (nonzero : t ≠ 0)
    {e : Nat} (proper : present e = true ∨ e = 0) :
    Change d R (upd (entry m.words d) k (if present e then e else 0)) m
      { m with words := putWord m.words t (k % 256) e } := by
  obtain ⟨tables, entries⟩ := held.setPte_spaces there nonzero e
  refine ⟨⟨fun i _ => tables i, fun u other => ?_, fun start i some_ j => ?_⟩, entries⟩
  · have ne : u ≠ t := there ▸ (held.ne_of_other other).2 _
    exact upd_ne _ _ ne
  · simp only [tables] at some_ ⊢
    by_cases mine : tableAt m.words d i = t
    · rw [mine, putWord, upd_same]
      by_cases here : j = k % 256
      · rw [here, upd_same]
        exact proper
      · rw [upd_ne _ _ here, ← mine]
        exact start i some_ j
    · rw [putWord, upd_ne _ _ mine]
      exact start i some_ j

/-- Ownership after a store into a page table, from what it does to the one page. -/
theorem Held.setPte (held : Held S d R m) (there : tableAt m.words d (k / 256) = t)
    (nonzero : t ≠ 0) {e : Nat} {R' : Set (Nat × Nat)}
    (owns : ∀ block' : Part → Nat × Nat, (∀ x, x ≠ .page k → block' x = x.block m.words d) →
      block' (.page k) = (if present e then (p2v (pteAddr e), PTE_SHIFT) else 0) →
      Owns block' m.outstanding R') :
    Held S d R' { m with words := putWord m.words t (k % 256) e } := by
  obtain ⟨tables, entries⟩ := held.setPte_spaces there nonzero e
  refine ⟨held.nonzero, held.memory.rewrite _, ?_, fun i some_ => ?_⟩
  · refine owns _ (fun x other => Part.block_congr ?_) ?_
    · cases x with
      | dir => rfl
      | table i => exact tables i
      | page j =>
        have ne : j ≠ k := by
          rintro rfl
          exact other rfl
        simp [Part.address, pageAt, entries, ne]
    · simp only [Part.block, Part.address, pageAt, entries, if_true]
      cases on : present e with
      | true => simp [present_ne_zero on, p2v_ne_zero, Part.order]
      | false => simp
  · simp only [tables] at some_
    exact held.few i some_

/-- An entry for a page as `mappages` makes it. -/
theorem Held.mkPte_page (held : Held S d R m) {mem : Nat} (out : (mem, PTE_SHIFT) ∈ m.outstanding)
    (ap : Nat) : present (mkPte (v2p mem) ap) = true ∧ p2v (pteAddr (mkPte (v2p mem) ap)) = mem := by
  have high : 0x80000000 < mem := held.memory.kernel out
  have page : mem % 4096 = 0 := held.memory.page_aligned out rfl
  have aligned : v2p mem % 4096 = 0 := by
    show (mem - 0x80000000) % 4096 = 0
    omega
  obtain ⟨points, on⟩ := pteAddr_mkPte ap aligned
  refine ⟨on, ?_⟩
  rw [points]
  exact p2v_v2p (show 0x80000000 ≤ mem by omega)

/-- One of the other pages is mapped where there is none. -/
theorem Held.map (held : Held S d R m) (there : tableAt m.words d (k / 256) = t) (nonzero : t ≠ 0)
    (empty : entry m.words d k = 0) {mem : Nat} (ap : Nat) (other : (mem, PTE_SHIFT) ∈ R) :
    Held S d (R \ {(mem, PTE_SHIFT)})
      { m with words := putWord m.words t (k % 256) (mkPte (v2p mem) ap) } := by
  obtain ⟨on, points⟩ := held.mkPte_page (held.owns.loose_used _ other) ap
  refine held.setPte there nonzero fun block' others here => ?_
  have none_ : (Part.page k).block m.words d = 0 :=
    Part.block_eq_zero_iff.2 (pageAt_eq_zero_iff.2 empty)
  rw [on, points] at here
  exact held.owns.assign other none_ here others

/-- A page is unmapped: it is one of the others. -/
theorem Held.unmap (held : Held S d R m) (there : tableAt m.words d (k / 256) = t) (nonzero : t ≠ 0)
    (some_ : entry m.words d k ≠ 0) :
    Held S d (insert (pageAt m.words d k, PTE_SHIFT) R)
      { m with words := putWord m.words t (k % 256) 0 } := by
  refine held.setPte there nonzero fun block' others here => ?_
  have address : (Part.page k).address m.words d ≠ 0 := mt pageAt_eq_zero_iff.1 some_
  have dropped := held.owns.drop_one (mt Part.block_eq_zero_iff.1 address) here others
  rwa [Part.block_of_ne address] at dropped

/-- Another entry for the same page. -/
theorem Held.remap (held : Held S d R m) (there : tableAt m.words d (k / 256) = t) (nonzero : t ≠ 0)
    (some_ : entry m.words d k ≠ 0) {e : Nat} (on : present e = true)
    (samePage : pteAddr e = pteAddr (entry m.words d k)) :
    Held S d R { m with words := putWord m.words t (k % 256) e } := by
  refine held.setPte there nonzero fun block' others here => held.owns.congr fun x => ?_
  by_cases isPage : x = .page k
  · have address : (Part.page k).address m.words d = p2v (pteAddr (entry m.words d k)) := if_neg some_
    rw [isPage, here, on, Part.block_of_ne (address ▸ p2v_ne_zero _), address, samePage]
    rfl
  · exact others x isPage

/-- A cleared page table goes into the directory. -/
theorem Held.setPde_spaces (held : Held S d R m) {i : Nat} (empty : tableAt m.words d i = 0)
    (other : (t, PT_ORDER) ∈ R) (cleared : ∀ j, m.words t j = 0) :
    (∀ i', tableAt (putWord m.words d i (v2p t ||| 1)) d i' =
        if i' = i then t else tableAt m.words d i') ∧
      ∀ j, entry (putWord m.words d i (v2p t ||| 1)) d j = entry m.words d j := by
  have out := held.owns.loose_used _ other
  have high : 0x80000000 < t := held.memory.kernel out
  have aligned : v2p t % 1024 = 0 := by
    have table : t % 1024 = 0 := held.memory.table_aligned out rfl
    show (t - 0x80000000) % 1024 = 0
    omega
  obtain ⟨points, there⟩ := ptAddr_pde aligned
  have back : p2v (v2p t) = t := p2v_v2p (show 0x80000000 ≤ t by omega)
  have tables : ∀ i', tableAt (putWord m.words d i (v2p t ||| 1)) d i' =
      if i' = i then t else tableAt m.words d i' := by
    intro i'
    by_cases same : i' = i
    · subst same
      simp [tableAt, putWord, held.nonzero, points, there, back]
    · rw [if_neg same]
      apply tableAt_congr
      intro _
      rw [putWord, upd_same, upd_ne _ _ same]
  refine ⟨tables, fun j => ?_⟩
  by_cases here : j / 256 = i
  · subst here
    have table : tableAt (putWord m.words d (j / 256) (v2p t ||| 1)) d (j / 256) = t := by
      rw [tables, if_pos rfl]
    rw [entry_eq table (by omega), putWord, upd_ne _ _ (held.ne_of_other other).1, cleared,
      entry_of_tableAt_eq_zero empty]
    rfl
  · have same := tables (j / 256)
    rw [if_neg here] at same
    apply entry_congr same
    intro some_
    rw [putWord, upd_ne _ _ (held.tablesApart.notDir _ some_).symm]

theorem Held.link (held : Held S d R m) {i : Nat} (empty : tableAt m.words d i = 0)
    (other : (t, PT_ORDER) ∈ R) (cleared : ∀ j, m.words t j = 0) (small : i < NUM_UPDE) :
    Held S d (R \ {(t, PT_ORDER)}) { m with words := putWord m.words d i (v2p t ||| 1) } := by
  obtain ⟨tables, entries⟩ := held.setPde_spaces empty other cleared
  have nonzero : t ≠ 0 := by
    have high : 0x80000000 < t := held.memory.kernel (held.owns.loose_used _ other)
    omega
  refine ⟨held.nonzero, held.memory.rewrite _, ?_, fun i' some_ => ?_⟩
  · refine held.owns.assign (p := .table i) other (Part.block_eq_zero_iff.2 empty) ?_
      fun x ne => Part.block_congr ?_
    · have here : (Part.table i).address (putWord m.words d i (v2p t ||| 1)) d = t :=
        (tables i).trans (if_pos rfl)
      have some_ : (Part.table i).address (putWord m.words d i (v2p t ||| 1)) d ≠ 0 := by
        rw [here]
        exact nonzero
      rw [Part.block_of_ne some_, here]
      rfl
    · cases x with
      | dir => rfl
      | table i' =>
        have ne : i' ≠ i := by
          rintro rfl
          exact ne rfl
        exact (tables i').trans (if_neg ne)
      | page j => simp [Part.address, pageAt, entries]
  · simp only [tables] at some_
    by_cases new : i' = i
    · exact new ▸ small
    · rw [if_neg new] at some_
      exact held.few i' some_

/-! ## Allocating and freeing -/

/-- A store that is neither into the directory nor into one of its page tables. -/
theorem upd_spaces {w : Words} (notDir : d ≠ t)
    (notTable : ∀ i, tableAt w d i ≠ 0 → tableAt w d i ≠ t) (f : Nat → Nat) :
    (∀ i, tableAt (upd w t f) d i = tableAt w d i) ∧ ∀ j, entry (upd w t f) d j = entry w d j := by
  have tables : ∀ i, tableAt (upd w t f) d i = tableAt w d i := by
    intro i
    apply tableAt_congr
    intro _
    rw [upd_ne _ _ notDir]
  refine ⟨tables, fun j => ?_⟩
  apply entry_congr (tables _)
  intro some_
  rw [upd_ne _ _ (notTable _ some_)]

/-- A block that is taken is one of the others. -/
theorem Held.alloc (held : Held S d R m) {b : Nat × Nat} {m' : VMem}
    (memory : Kept S nowhere (insert b m.outstanding) m') (fresh : b ∉ m.outstanding)
    (tables : ∀ i, tableAt m'.words d i = tableAt m.words d i)
    (entries : ∀ j, entry m'.words d j = entry m.words d j) : Held S d (insert b R) m' := by
  have out := memory.outstanding_eq
  have nonzero : b ≠ 0 := memory.owns.nonzero b (memory.owns.loose_used _ (Set.mem_insert b _))
  refine ⟨held.nonzero, by rwa [out], ?_, fun i some_ => held.few i (tables i ▸ some_)⟩
  rw [out]
  refine (held.owns.alloc fresh nonzero).congr fun x => Part.block_congr ?_
  cases x with
  | dir => rfl
  | table i => exact tables i
  | page j => simp [Part.address, pageAt, entries]

/-- A cleared page table is a directory. -/
theorem Held.adopt {Q : Set (Nat × Nat)} (kept : Kept S nowhere (insert (t, PT_ORDER) Q) m)
    (fresh : (t, PT_ORDER) ∉ Q) (cleared : ∀ j, m.words t j = 0) : Held S t Q m := by
  have out := kept.outstanding_eq
  have loose : (t, PT_ORDER) ∈ m.outstanding := out ▸ Set.mem_insert _ Q
  have nonzero : t ≠ 0 := by
    have high : 0x80000000 < t := kept.kernel loose
    omega
  have tables : ∀ i, tableAt m.words t i = 0 := by
    intro i
    simp [tableAt, cleared]
  have nothing : Owns (fun _ : Part => (0 : Nat × Nat)) m.outstanding m.outstanding :=
    ⟨fun _ some_ => absurd rfl some_, fun _ _ some_ => absurd rfl some_, fun _ => Or.inl, fun _ => id,
      kept.owns.nonzero⟩
  refine ⟨nonzero, out ▸ kept, ?_, fun i some_ => absurd (tables i) some_⟩
  have owns := nothing.assign (a := Part.block m.words t) (p := .dir) loose rfl
    (Part.block_of_ne (x := .dir) nonzero) fun x other => ?_
  · rwa [out, Set.insert_sdiff_self_of_notMem fresh, ← out] at owns
  · rw [Part.block_eq_zero_iff]
    cases x with
    | dir => exact absurd rfl other
    | table i => exact tables i
    | page j => exact pageAt_eq_zero_iff.2 (entry_of_tableAt_eq_zero (tables _))

/-- One of the other blocks is given back. -/
theorem Held.free (held : Held S d R m) {b : Nat × Nat} {m' : VMem}
    (memory : Kept S nowhere (m.outstanding \ {b}) m') (words : m'.words = m.words) (other : b ∈ R) :
    Held S d (R \ {b}) m' := by
  have out := memory.outstanding_eq
  refine ⟨held.nonzero, by rwa [out], ?_, words ▸ held.few⟩
  rw [out, words]
  exact held.owns.free other

instance (order : Nat) : Fixes VMem.words (kmalloc order) where
  sat m := by
    unfold kmalloc
    split
    · rfl
    · split
      · trivial
      · split <;> rfl

/-- `kpt_alloc` stores only into the page table it gives out. -/
theorem kptAlloc_words (m : VMem) :
    Sat Contract.free (fun t m' => m'.words = upd m.words t fun _ => 0) (kptAlloc m) := by
  unfold kptAlloc
  refine Sat.step (Act.get_apply m) ?_
  cases m.freelist with
  | cons v rest => rfl
  | nil =>
    have fixes : Fixes VMem.words (kmalloc PT_ORDER) := inferInstance
    refine (fixes.sat m).seq fun t m1 same => ?_
    refine Sat.failIf (fun _ => trivial) fun _ => ?_
    show upd m1.words t _ = upd m.words t _
    rw [same]

end Held

section Functions

variable {S : Setup} {R : Set (Nat × Nat)} {m : VMem} {d k t : Nat} {short : Prop}
  {may : VmPanic → Prop}

/-- **`walkpgdir` finds the page table or makes one**, wherever others are missing. -/
theorem Held.walkpgdir (held : Held S d R m) (small : k < 65536)
    (why : m.supply.serve (tableNeed (tabled m.words d) k) = .error .table → short) :
    Sat (vmStops short may) (fun a m' => ∃ t, a = some (t, k % 256) ∧
      tableAt m'.words d (k / 256) = t ∧ t ≠ 0 ∧ Held S d R m' ∧
      Change d R (entry m.words d) m m' ∧ AddsTables d k (k + 1) m.words m'.words ∧
      m'.misses = m.misses ∧
      m.supply.serve (tableNeed (tabled m.words d) k) = .ok m'.supply)
      (Vm.walkpgdir d (PTE_SZ * k) true m) := by
  have inside : k / 256 < NUM_UPDE := by
    show k / 256 < 256
    omega
  unfold Vm.walkpgdir
  simp only [PDE_IDX_page, PTE_IDX_page]
  refine Sat.failIf (fun past => ?_) fun _ => ?_
  · exact absurd (of_decide_eq_true past) (Nat.not_le.2 inside)
  refine Sat.step rfl ?_
  by_cases there : present (m.words d (k / 256)) = true
  · rw [if_pos there]
    have some_ := (present_iff_tableAt held.nonzero _).1 there
    have nothing : tableNeed (tabled m.words d) k = [] := if_pos (decide_eq_true some_)
    rw [nothing]
    exact ⟨_, congrArg (fun t => some (t, k % 256)) (tableAt_of_present held.nonzero there), rfl, some_,
      held, .of_words rfl, .one some_ fun _ _ => rfl, rfl, rfl⟩
  · have none_ : tableAt m.words d (k / 256) = 0 := by
      by_contra some_
      exact there ((present_iff_tableAt held.nonzero _).2 some_)
    have need : tableNeed (tabled m.words d) k = [.table] := if_neg (by simp [tabled, none_])
    rw [need] at why ⊢
    rw [if_neg there, if_pos trivial]
    refine ((kptAlloc_spec held.memory fun refused => why (Supply.serve_none refused)).and
      (kptAlloc_words m)).seq fun t m1 post => ?_
    obtain ⟨⟨tNonzero, fresh, memory1, -, cleared1, misses1, served⟩, words1⟩ := post
    -- the new page table is none of those in use
    have notDir : d ≠ t := by
      rintro rfl
      exact fresh (held.named (x := .dir) held.nonzero).1
    have notTable : ∀ i, tableAt m.words d i ≠ 0 → tableAt m.words d i ≠ t := by
      rintro i some_ rfl
      exact fresh (held.named (x := .table i) some_).1
    obtain ⟨tables1, entries1⟩ := upd_spaces notDir notTable fun _ => 0
    rw [← words1] at tables1 entries1
    have again : upd m1.words t (fun _ => 0) = m1.words := by
      rw [words1, Kernel.upd_idem]
    have held1 := held.alloc memory1 fresh tables1 entries1
    have empty1 := (tables1 _).trans none_
    have other : (t, PT_ORDER) ∈ insert (t, PT_ORDER) R := Or.inl rfl
    obtain ⟨tables, entries⟩ := held1.setPde_spaces empty1 other cleared1
    have held2 := held1.link empty1 other cleared1 inside
    have tight : (t, PT_ORDER) ∉ R := fun inR => fresh (held.owns.loose_used _ inR)
    rw [Set.insert_sdiff_self_of_notMem tight] at held2
    refine Sat.step (clearTable_apply t m1) (Sat.step (setWord_apply ..) ?_)
    simp only [again]
    have here := (tables (k / 256)).trans (if_pos rfl)
    have some_ : tableAt (putWord m1.words d (k / 256) (v2p t ||| 1)) d (k / 256) ≠ 0 := by
      rw [here]
      exact tNonzero
    have old : ∀ i, i ≠ k / 256 → tableAt (putWord m1.words d (k / 256) (v2p t ||| 1)) d i =
        tableAt m.words d i := fun i ne => ((tables i).trans (if_neg ne)).trans (tables1 i)
    refine ⟨t, rfl, here, tNonzero, held2, ⟨⟨?_, ?_, fun start i there' j => ?_⟩,
      fun j => (entries j).trans (entries1 j)⟩, .one some_ old, misses1, Supply.serve_some served⟩
    · intro i some_
      apply old
      rintro rfl
      exact some_ none_
    · intro u inR
      have notD := (held.ne_of_other inR).1
      have notT : u ≠ t := by
        rintro rfl
        exact tight inR
      show putWord m1.words d _ _ u = m.words u
      rw [putWord, upd_ne _ _ notD, words1, upd_ne _ _ notT]
    · show present (putWord m1.words d (k / 256) (v2p t ||| 1) _ j) = true ∨
        putWord m1.words d (k / 256) (v2p t ||| 1) _ j = 0
      by_cases isNew : i = k / 256
      · rw [isNew, here, putWord, upd_ne _ _ notDir.symm]
        exact Or.inr (cleared1 j)
      · rw [old i isNew] at there' ⊢
        rw [putWord, upd_ne _ _ (held.tablesApart.notDir i there').symm, words1,
          upd_ne _ _ (notTable i there')]
        exact start i there' j

/-- **`mappages` maps one of the other pages.** -/
theorem Held.mapPage (held : Held S d R m) (small : k < 65536) (empty : entry m.words d k = 0)
    {mem : Nat} (ap : Nat) (other : (mem, PTE_SHIFT) ∈ R)
    (why : m.supply.serve (tableNeed (tabled m.words d) k) = .error .table → short) :
    Sat (vmStops short may) (fun _ m' => Held S d (R \ {(mem, PTE_SHIFT)}) m' ∧
      Change d R (upd (entry m.words d) k (mkPte (v2p mem) ap)) m m' ∧
      AddsTables d k (k + 1) m.words m'.words ∧ m'.misses = m.misses ∧
      m.supply.serve (tableNeed (tabled m.words d) k) = .ok m'.supply)
      (Vm.mapPage d (PTE_SZ * k) (v2p mem) ap m) := by
  refine (held.walkpgdir small why).seq fun a m1 post => ?_
  obtain ⟨t, rfl, there, tNonzero, held1, change1, extends1, misses1, served1⟩ := post
  have empty1 : entry m1.words d k = 0 := (change1.mine k).trans empty
  have off : present (m1.words t (k % 256)) = false := by
    rw [entry_eq there tNonzero] at empty1
    by_contra on
    rw [Bool.not_eq_false] at on
    rw [if_pos on] at empty1
    exact present_ne_zero on empty1
  obtain ⟨on, -⟩ := held1.mkPte_page (held1.owns.loose_used _ other) ap
  refine Sat.step (word_apply t _ m1) (Sat.failIf (fun remap => ?_) fun _ => ?_)
  · rw [off] at remap
    cases remap
  · have change2 := held1.change there tNonzero (Or.inl on)
    obtain ⟨tables, -⟩ := held1.setPte_spaces there tNonzero (mkPte (v2p mem) ap)
    rw [if_pos on] at change2
    refine ⟨held1.map there tNonzero empty1 ap other, change1.trans (change2.congr fun j => ?_),
      fun i => ?_, misses1, served1⟩
    · simp [upd, change1.mine]
    · rw [← extends1 i]
      exact not_congr (iff_of_eq (congrArg (· = 0) (tables i)))

/-- Freeing a page and clearing its entry. -/
theorem Held.unmapPage (held : Held S d R m) (there : tableAt m.words d (k / 256) = t)
    (nonzero : t ≠ 0) (some_ : entry m.words d k ≠ 0) :
    pteAddr (entry m.words d k) ≠ 0 ∧
      ∃ h, freePage (p2v (pteAddr (entry m.words d k))) m = .done () { m with heap := h } ∧
        Held S d R { m with heap := h, words := putWord m.words t (k % 256) 0 } := by
  have isPage : pageAt m.words d k = p2v (pteAddr (entry m.words d k)) := if_neg some_
  have address : (Part.page k).address m.words d ≠ 0 := mt pageAt_eq_zero_iff.1 some_
  obtain ⟨out, tight⟩ := held.named address
  have live : (pageAt m.words d k, PTE_SHIFT) ∈ m.heap.live := Kept.live_of_page out rfl
  have high : 0x80100000 ≤ pageAt m.words d k := (held.memory.live_inside live).2
  obtain ⟨h, freed, memory⟩ := kfree_spec held.memory live out
  refine ⟨fun isZero => ?_, h, isPage ▸ freed, ?_⟩
  · rw [isPage, isZero] at high
    exact absurd high (by decide)
  · have held1 := (held.unmap there nonzero some_).free (memory.rewrite _) rfl (Or.inl rfl)
    have tight : (pageAt m.words d k, PTE_SHIFT) ∉ R := tight
    rwa [Set.insert_sdiff_self_of_notMem tight] at held1

/-- **`clearpteu` takes a page away from the user**, and leaves it where it is. -/
theorem Held.clearpteu {C : VContract} (held : Held S d R m) (small : k < 65536)
    (some_ : entry m.words d k ≠ 0) :
    Sat C (fun _ m' => Held S d R m' ∧ m'.bytes = m.bytes ∧
      Change d R (upd (entry m.words d) k (kernelOnly (entry m.words d k))) m m' ∧
      (∀ i, tableAt m'.words d i = tableAt m.words d i) ∧ m'.misses = m.misses ∧
      m'.supply = m.supply)
      (Vm.clearpteu d (PTE_SZ * k) m) := by
  have table := tableAt_ne_zero_of_entry some_
  have isWord : m.words (tableAt m.words d (k / 256)) (k % 256) = entry m.words d k := by
    rw [entry_eq rfl table] at some_ ⊢
    split at some_
    case isTrue there => rw [if_pos there]
    case isFalse => exact absurd rfl some_
  obtain ⟨samePage, on⟩ := pteAddr_kernelOnly (present_entry some_)
  unfold Vm.clearpteu
  refine Sat.step (walkpgdir_look held.nonzero small) ?_
  rw [if_neg table]
  refine Sat.step (word_apply ..) ?_
  rw [isWord]
  have change := held.change rfl table (Or.inl on)
  rw [if_pos on] at change
  exact ⟨held.remap rfl table some_ on samePage, rfl, change,
    (held.setPte_spaces rfl table _).1, rfl, rfl⟩

theorem pteAp_kernelOnly (e : Nat) : pteAp (kernelOnly e) = AP_KO := by
  simp only [kernelOnly, pteAp, AP_KO]
  omega

end Functions

end Xv6Rpi.Proc.Vm
