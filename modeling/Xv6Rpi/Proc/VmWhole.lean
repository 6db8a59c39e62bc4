/-
# Proc.VmWhole -- the address spaces of processes

`copyuvm` makes a new directory with a copy of the pages of another.  After that the functions of
`vm.c` are specified over all address spaces at once (`Kept`): those of processes are filled from
the front, so that `deallocuvm` skips no page of theirs.  What happens to one of them comes from
the specifications over one directory (`Proc.VmDir`, `Proc.VmRange`), for which the blocks of all
other places are others (`Kept.held`); the others hold what they held, so that the whole can be put
together again (`Kept.rejoin`).
-/
import Xv6Rpi.Proc.VmRange

namespace Xv6Rpi.Proc.Vm

open Theory
open Kernel (Client Pid upd upd_same upd_ne KERNBASE)

set_option autoImplicit false

/-! ## Copying an address space -/

section Copy

variable {S : Setup} {R : Set (Nat × Nat)} {m : VMem} {d k : Nat} {short : Prop}
  {may : VmPanic → Prop}

/-- The same page tables and entries under a directory. -/
structure SameDir (w w' : Words) (d : Nat) : Prop where
  tables : ∀ i, tableAt w' d i = tableAt w d i
  entries : ∀ j, entry w' d j = entry w d j

theorem SameDir.zero (w w' : Words) : SameDir w w' 0 :=
  ⟨fun _ => tableAt_zero.trans tableAt_zero.symm,
    fun j => (entry_zero _ j).trans (entry_zero _ j).symm⟩

/-- There is no gap between the page tables of a directory. -/
abbrev Contig (w : Words) (d : Nat) : Prop :=
  ∀ i j, i ≤ j → tableAt w d j ≠ 0 → tableAt w d i ≠ 0

/-- The directory and its page tables hold what they held: the same address space. -/
theorem spaces_of_words {w w' : Words} (dir : w' d = w d)
    (tables : ∀ i, tableAt w d i ≠ 0 → w' (tableAt w d i) = w (tableAt w d i)) :
    SameDir w w' d := by
  have same : ∀ i, tableAt w' d i = tableAt w d i := by
    intro i
    apply tableAt_congr
    intro _
    rw [dir]
  refine ⟨same, fun j => ?_⟩
  apply entry_congr (same _)
  intro some_
  rw [tables _ some_]

/-- Page tables that were outstanding hold what they held. -/
def KeepsTables (m m' : VMem) : Prop := ∀ u, (u, PT_ORDER) ∈ m.outstanding → m'.words u = m.words u

/-- An address space whose page tables hold what they held. -/
theorem Held.same_spaces {m' : VMem} (held : Held S d R m) (keeps : KeepsTables m m') :
    SameDir m.words m'.words d :=
  spaces_of_words (keeps d (held.named (x := .dir) held.nonzero).1)
    fun i some_ => keeps _ (held.named (x := .table i) some_).1

/-- A new directory: everything that was outstanding is another's. -/
theorem kptAlloc_held (memory : Kept S nowhere m.outstanding m)
    (why : m.supply.give .table = none → short) :
    Sat (vmStops short may) (fun d m' => Held S d m.outstanding m' ∧ (∀ i, tableAt m'.words d i = 0) ∧
      KeepsTables m m' ∧ KeepsBytes m m' ∧ m'.misses = m.misses ∧
      m.supply.give .table = some m'.supply) (kptAlloc m) := by
  refine ((Fixes.also (f := VMem.bytes) (kptAlloc_spec memory why)).and (kptAlloc_words m)).mono
    fun d m1 post => ?_
  obtain ⟨⟨⟨-, fresh, kept1, -, cleared, misses, served⟩, bytes⟩, words⟩ := post
  refine ⟨Held.adopt kept1 fresh cleared, fun i => ?_, fun u out => ?_, fun a _ i _ => by rw [bytes],
    misses, served⟩
  · simp [tableAt, cleared]
  · have ne : u ≠ d := by
      rintro rfl
      exact fresh out
    rw [words, upd_ne _ _ ne]

/-- The first `k` pages of `pgdir` in `m0` have been copied to `d`. -/
structure Copied (pgdir d k : Nat) (m0 m : VMem) : Prop where
  only : ∀ j, entry m.words d j ≠ 0 ↔ j < k
  access : ∀ j < k, pteAp (entry m.words d j) = pteAp (entry m0.words pgdir j)
  bytes : ∀ j < k, ∀ i < PTE_SZ,
    m.bytes (pageAt m.words d j + i) = m0.bytes (pageAt m0.words pgdir j + i)
  tables : KeepsTables m0 m
  others : KeepsBytes m0 m

/-- One round of the loop of `copyuvm`. -/
theorem Copied.snoc {pgdir mem : Nat} {m0 m1 : VMem} (copied : Copied pgdir d k m0 m)
    (parent : Held S pgdir R m0) (held : Held S d m0.outstanding m)
    (source : entry m0.words pgdir k ≠ 0)
    (page : MapsFresh m0.outstanding d k mem (pteAp (entry m0.words pgdir k))
      (fun i => m.bytes (pageAt m0.words pgdir k + i)) m m1) :
    Copied pgdir d (k + 1) m0 m1 := by
  have grows : m0.outstanding ⊆ m.outstanding := held.owns.loose_used
  refine ⟨fun j => ?_, fun j below => ?_, fun j below i small => ?_, fun u out => ?_,
    fun a out i small => ?_⟩
  · by_cases isK : j = k
    · rw [isK]
      exact iff_of_true page.mapped.1 (Nat.lt_succ_self k)
    · rw [page.stays j isK, copied.only]
      omega
  · by_cases isK : j = k
    · rw [isK, page.mapped.2]
      exact Nat.mod_eq_of_lt (Nat.mod_lt _ (by decide))
    · rw [page.stays j isK]
      exact copied.access j (by omega)
  · by_cases isK : j = k
    · have out := (parent.named (x := .page k) (mt pageAt_eq_zero_iff.1 source)).1
      rw [isK, page.page, page.fill i small]
      exact copied.others _ out i small
    · have some_ := mt pageAt_eq_zero_iff.1 ((copied.only j).2 (by omega))
      have out : (pageAt m.words d j, PTE_SHIFT) ∈ m.outstanding := (held.named (x := .page j) some_).1
      rw [page.samePage isK, page.bytes _ out i small]
      exact copied.bytes j (by omega) i small
  · exact (page.others u out).trans (copied.tables u out)
  · rw [page.bytes a (grows out) i small]
    exact copied.others a out i small

/-- The loop of `copyuvm`, when the pages below `k` have been copied. -/
theorem Held.copyLoop {pgdir sz : Nat} {m0 : VMem} (parent : Held S pgdir R m0) (few : pages sz ≤ 65536)
    (gap : ∀ k < pages sz, entry m0.words pgdir k = 0 → may .copyuvmPte ∧ may .copyuvmPage) :
    ∀ (n k : Nat) (m : VMem), Held S d m0.outstanding m → k + n = pages sz →
      Copied pgdir d k m0 m → AddsTables d 0 k (fun _ _ => 0) m.words →
      (∀ j < k, entry m0.words pgdir j ≠ 0) →
      (m.supply.serve (needs (tabled m.words d) k n) = .error .table → short) →
      Sat (vmStops short may) (fun whole m' => Held S d m0.outstanding m' ∧ KeepsTables m0 m' ∧
        (∃ mid, AddsTables d 0 mid (fun _ _ => 0) m'.words) ∧
        (whole = true ∧ Copied pgdir d (pages sz) m0 m' ∧ m'.misses = m.misses ∧
            (∀ j < pages sz, entry m0.words pgdir j ≠ 0) ∧
            m.supply.serve (needs (tabled m.words d) k n) = .ok m'.supply ∨
          whole = false ∧ m'.misses = PTE_SHIFT :: m.misses ∧
            m.supply.serve (needs (tabled m.words d) k n) = .error .page))
        (Vm.copyLoop pgdir d ((List.range' k n).map (PTE_SZ * ·)) m) := by
  intro n
  induction n with
  | zero =>
    intro k m held whole copied tables there _
    rw [Nat.add_zero] at whole
    subst whole
    exact ⟨held, copied.tables, ⟨_, tables⟩, Or.inl ⟨rfl, copied, rfl, there, rfl⟩⟩
  | succ n ih =>
    intro k m held whole copied extends_ there why
    have small : k < 65536 := by omega
    obtain ⟨-, entries⟩ := parent.same_spaces copied.tables
    have missing := gap k (by omega)
    rw [List.range'_succ, List.map_cons, Vm.copyLoop]
    refine Sat.step (walkpgdir_look parent.nonzero small) ?_
    by_cases table : tableAt m.words pgdir (k / 256) = 0
    · rw [if_pos table]
      refine Or.inr (missing ?_).1
      rw [← entries, entry_of_tableAt_eq_zero table]
    rw [if_neg table]
    refine Sat.step (word_apply ..) (Sat.failIf (fun off => ?_) fun on => ?_)
    · refine Or.inr (missing ?_).2
      rw [Bool.not_eq_true'] at off
      rw [← entries, entry_eq rfl table, off]
      rfl
    rw [Bool.not_eq_false'] at on
    have isWord : m.words (tableAt m.words pgdir (k / 256)) (k % 256) = entry m0.words pgdir k := by
      rw [← entries, entry_eq rfl table, if_pos on]
    have source : entry m0.words pgdir k ≠ 0 := isWord ▸ present_ne_zero on
    have isSource : p2v (pteAddr (entry m0.words pgdir k)) = pageAt m0.words pgdir k :=
      (if_neg source).symm
    rw [isWord, isSource]
    rw [needs] at why ⊢
    rcases kmalloc_cases held.memory 6 le_rfl with
      ⟨fails, missed, refused⟩ | ⟨mem, h, fails, got, memNonzero, -, fresh, memory, given_⟩
    · refine Sat.step missed ?_
      rw [if_pos rfl]
      exact ⟨⟨held.nonzero, held.memory.congr rfl rfl rfl rfl, held.owns, held.few⟩, copied.tables,
        ⟨k, extends_⟩, Or.inr ⟨rfl, rfl, Supply.serve_none refused⟩⟩
    · refine Sat.step got ?_
      have first : m.supply.give .page = some (VMem.supply { m with heap := h, fails := fails }) :=
        given_
      rw [Supply.serve_some first] at why ⊢
      rw [if_neg memNonzero, mappages_page small]
      have empty : entry m.words d k = 0 := by
        by_contra here
        exact absurd ((copied.only k).1 here) (Nat.lt_irrefl k)
      refine Sat.step rfl (Sat.call ((held.mapFresh (by omega) empty fresh memory _ _
        fun refused => why (Supply.serve_append_error refused)).seq fun _ m2 post => ?_))
      obtain ⟨held2, page, extends2, misses2, served2⟩ := post
      rw [Supply.serve_append served2, ← extends2.tabled] at why ⊢
      have there2 : ∀ j < k + 1, entry m0.words pgdir j ≠ 0 := by
        intro j below
        rcases Nat.lt_succ_iff_lt_or_eq.1 below with before | rfl
        · exact there j before
        · exact source
      refine (ih (k + 1) m2 held2 (by omega) (copied.snoc parent held source page)
        (extends_.snoc extends2 (Nat.zero_le k)) there2 why).mono fun res m' post => ?_
      rw [misses2] at post
      exact post

/-- No page is lost where the page tables are there from the first one on. -/
theorem leaked_eq_empty {w : Words} (contig : Contig w d) : leaked w d = ∅ := by
  rw [Set.eq_empty_iff_forall_notMem]
  rintro b ⟨k, some_, ⟨-, -, none_⟩, -⟩
  exact contig (k / 256 - 1) (k / 256) (Nat.sub_le _ _) (tableAt_ne_zero_of_entry some_) none_

/-- Page tables that are added after the others leave no gap. -/
theorem AddsTables.contig {lo hi : Nat} {w w' : Words} (tables : AddsTables d lo hi w w')
    (next : ∀ i < lo / 256, tableAt w d i ≠ 0) (contig : Contig w d) : Contig w' d := by
  intro i j before some_
  rw [tables] at some_ ⊢
  rcases some_ with old | ⟨k, above, below, rfl⟩
  · exact Or.inl (contig i j before old)
  · by_cases first : i < lo / 256
    · exact Or.inl (next i first)
    · by_cases start : i = lo / 256
      · exact Or.inr ⟨lo, le_rfl, by omega, start.symm⟩
      · exact Or.inr ⟨min k (i * 256), by omega, by omega, by omega⟩

theorem AddsTables.contig_new {hi : Nat} {w : Words}
    (tables : AddsTables d 0 hi (fun _ _ => 0) w) : Contig w d := by
  refine tables.contig (fun i below => absurd below (Nat.not_lt_zero i)) fun i j _ some_ => ?_
  simp [tableAt] at some_

/-- What it takes to make an address space of `sz` bytes. -/
def copyNeeds (sz : Nat) : List Need := .table :: needs (fun _ => false) 0 (pages sz)

/-- **`copyuvm` copies an address space** to pages that were free, or leaves nothing of the copy. -/
theorem Held.copyuvm {pgdir sz : Nat} (parent : Held S pgdir R m) (few : pages sz ≤ 65536)
    (gap : ∀ k < pages sz, entry m.words pgdir k = 0 → may .copyuvmPte ∧ may .copyuvmPage)
    (why : m.supply.serve (copyNeeds sz) = .error .table → short) :
    Sat (vmStops short may) (fun d m' => KeepsTables m m' ∧
      (d = 0 ∧ Kept S nowhere m.outstanding m' ∧ m'.misses = PTE_SHIFT :: m.misses ∧
          m.supply.serve (copyNeeds sz) = .error .page ∨
        Held S d m.outstanding m' ∧ Copied pgdir d (pages sz) m m' ∧ m'.misses = m.misses ∧
          (∀ k < pages sz, entry m.words pgdir k ≠ 0) ∧ Contig m'.words d ∧
          m.supply.serve (copyNeeds sz) = .ok m'.supply))
      (Vm.copyuvm pgdir sz m) := by
  unfold Vm.copyuvm
  refine (kptAlloc_held parent.memory fun refused => why (Supply.serve_none refused)).seq
    fun d m1 post => ?_
  obtain ⟨held1, empty, tables, bytes, misses1, served1⟩ := post
  have noTable : tabled m1.words d = fun _ => false := by
    funext i
    simp [tabled, empty]
  rw [copyNeeds, Supply.serve_some served1, ← noTable] at why ⊢
  have start : Copied pgdir d 0 m m1 :=
    ⟨fun j => iff_of_false (not_not.2 (entry_of_tableAt_eq_zero (empty _))) (Nat.not_lt_zero j),
      fun j below => absurd below (Nat.not_lt_zero j),
      fun j below => absurd below (Nat.not_lt_zero j), tables, bytes⟩
  have none_ : AddsTables d 0 0 (fun _ _ => 0) m1.words := .none_ fun i => (empty i).trans (by simp [tableAt])
  have range : pagesFrom 0 sz = (List.range' 0 (pages sz)).map (PTE_SZ * ·) := pagesFrom_page 0 sz
  rw [range]
  refine (Held.copyLoop parent few gap (pages sz) 0 m1 held1 (Nat.zero_add _) start none_
    (fun j below => absurd below (Nat.not_lt_zero j)) why).seq fun whole m2 post => ?_
  obtain ⟨held2, tables2, ⟨mid, extends2⟩,
    ⟨rfl, copied, misses2, there, served2⟩ | ⟨rfl, misses2, refused⟩⟩ := post
  · exact ⟨tables2, Or.inr ⟨held2, copied, misses2.trans misses1, there, extends2.contig_new,
      served2⟩⟩
  · refine (held2.freevm vmStops_returnsTables).seq fun _ m3 post => ?_
    obtain ⟨memory, others, misses3⟩ := post
    rw [leaked_eq_empty extends2.contig_new, Set.union_empty] at memory
    refine ⟨fun u out => (others u out).trans (tables2 u out), Or.inl ⟨rfl, memory, ?_, refused⟩⟩
    rw [misses3, misses2, misses1]

end Copy

/-! ## All address spaces -/

/-- All address spaces but one stay as they are. -/
structure Apart (G : View) (r : Root) (w w' : Words) : Prop where
  tables : ∀ r', r' ≠ r → ∀ i, tableAt w' (G.dir r') i = tableAt w (G.dir r') i
  entries : ∀ r', r' ≠ r → ∀ k, entry w' (G.dir r') k = entry w (G.dir r') k

/-- The entries of `r` become `e`; it loses no page table. -/
structure Edit (G : View) (r : Root) (e : Nat → Nat) (w w' : Words) : Prop where
  mine : ∀ k, entry w' (G.dir r) k = e k
  tables : ∀ i, tableAt w (G.dir r) i ≠ 0 → tableAt w' (G.dir r) i = tableAt w (G.dir r) i
  apart : Apart G r w w'

section Edits

variable {G : View} {r : Root} {e e' : Nat → Nat} {w w' w'' : Words}

theorem Apart.refl (G : View) (r : Root) (w : Words) : Apart G r w w :=
  ⟨fun _ _ _ => rfl, fun _ _ _ => rfl⟩

theorem Apart.trans (first : Apart G r w w') (second : Apart G r w' w'') : Apart G r w w'' where
  tables r' ne i := (second.tables r' ne i).trans (first.tables r' ne i)
  entries r' ne k := (second.entries r' ne k).trans (first.entries r' ne k)

theorem Apart.of_same (same : ∀ r', r' ≠ r → SameDir w w' (G.dir r')) : Apart G r w w' :=
  ⟨fun r' ne => (same r' ne).tables, fun r' ne => (same r' ne).entries⟩

theorem Apart.same (apart : Apart G r w w') {r' : Root} (ne : r' ≠ r) : SameDir w w' (G.dir r') :=
  ⟨apart.tables r' ne, apart.entries r' ne⟩

/-- Where one has no directory, all are as they were. -/
theorem Apart.sameSpaces (apart : Apart G r w w') (none_ : G.dir r = 0) : SameSpaces G w w' := by
  have same : ∀ r', SameDir w w' (G.dir r') := by
    intro r'
    by_cases isR : r' = r
    · rw [isR, none_]
      exact .zero w w'
    · exact apart.same isR
  exact ⟨fun r' => (same r').tables, fun r' => (same r').entries⟩

theorem SameSpaces.apart (same : SameSpaces G w w') : Apart G r w w' :=
  ⟨fun r' _ => same.tables r', fun r' _ => same.entries r'⟩

theorem SameSpaces.edit (same : SameSpaces G w w') : Edit G r (entry w (G.dir r)) w w' :=
  ⟨same.entries r, fun i _ => same.tables r i, same.apart⟩

theorem Edit.refl (G : View) (r : Root) (w : Words) : Edit G r (entry w (G.dir r)) w w :=
  ⟨fun _ => rfl, fun _ _ => rfl, Apart.refl G r w⟩

theorem Edit.congr (edit : Edit G r e w w') (same : ∀ k, e k = e' k) : Edit G r e' w w' :=
  ⟨fun k => (edit.mine k).trans (same k), edit.tables, edit.apart⟩

end Edits

section Whole

variable {S : Setup} {G : View} {Q : Set (Nat × Nat)} {m : VMem} {short : Prop}
variable {may : VmPanic → Prop} {r : Root} {d k : Nat}

theorem setDir_same (G : View) (r : Root) (d : Nat) : (G.setDir r d).dir r = d := by
  simp [View.setDir]

theorem setDir_ne (G : View) {r r' : Root} (d : Nat) (ne : r' ≠ r) :
    (G.setDir r d).dir r' = G.dir r' := by
  simp [View.setDir, ne]

theorem Apart.setDir {w w' : Words} :
    Apart (G.setDir r d) r w w' ↔ Apart G r w w' :=
  ⟨fun apart => .of_same fun _ ne => setDir_ne G d ne ▸ apart.same ne,
    fun apart => .of_same fun _ ne => (setDir_ne G d ne).symm ▸ apart.same ne⟩

/-- The places of an address space. -/
def Place.under (r : Root) : Place → Prop
  | .dir r' | .table r' _ | .page r' _ => r' = r
  | _ => False

/-- Only the places of an address space depend on its directory. -/
theorem block_setDir {x : Place} (w : Words) (other : ¬ x.under r) :
    (G.setDir r d).block w x = G.block w x := by
  refine View.block_congr ?_
  cases x with
  | dir r' => exact setDir_ne G d other
  | table r' i => exact congrArg (tableAt w · i) (setDir_ne G d other)
  | page r' j => exact congrArg (pageAt w · j) (setDir_ne G d other)
  | _ => rfl

theorem setDir_self (isDir : G.dir r = d) : G.setDir r d = G := by
  rw [View.setDir, ← isDir, Kernel.upd_eq_self]

/-! ## One address space and the others -/

/-- The place of a part of the address space of `r`. -/
def Part.place (r : Root) : Part → Place
  | .dir => .dir r
  | .table i => .table r i
  | .page k => .page r k

theorem Part.place_injective (r : Root) : (Part.place r).Injective := by
  intro x y same
  cases x <;> cases y <;> cases same <;> rfl

theorem Part.block_place (w : Words) (x : Part) :
    G.block w (x.place r) = x.block w (G.dir r) := by
  cases x <;> rfl

theorem Place.under_iff {x : Place} : x.under r ↔ x ∈ Set.range (Part.place r) := by
  constructor
  · intro isUnder
    cases x with
    | dir r' => exact ⟨.dir, congrArg Place.dir isUnder.symm⟩
    | table r' i => exact ⟨.table i, congrArg (Place.table · i) isUnder.symm⟩
    | page r' k => exact ⟨.page k, congrArg (Place.page · k) isUnder.symm⟩
    | _ => exact isUnder.elim
  · rintro ⟨y, rfl⟩
    cases y <;> rfl

/-- The blocks of all places but those of one address space. -/
def View.others (G : View) (w : Words) (r : Root) : Set (Nat × Nat) :=
  Owns.rest (G.block w) (Part.place r)

theorem View.mem_others {w : Words} {x : Place} (some_ : G.address w x ≠ 0)
    (other : ¬ x.under r) : (G.address w x, x.order) ∈ G.others w r := by
  rw [← View.block_of_ne some_]
  exact ⟨mt View.block_eq_zero_iff.1 some_, x, mt Place.under_iff.2 other, rfl⟩

/-- What is not in use can be forgotten. -/
theorem Kept.memory (kept : Kept S G Q m) : Kept S nowhere m.outstanding m where
  heap := kept.heap
  above := kept.above
  boot := kept.boot
  pool := kept.pool
  nodup := kept.nodup
  spare := kept.spare
  owns := by
    have empty : ∀ x, nowhere.block m.words x = 0 :=
      fun x => View.block_eq_zero_iff.2 (nowhere_address _ x)
    exact ⟨fun x some_ => absurd (empty x) some_, fun x _ some_ => absurd (empty x) some_,
      fun _ => Or.inl, fun _ => id, kept.owns.nonzero⟩
  contig _ _ _ _ some_ := absurd tableAt_zero some_
  few _ _ some_ := absurd tableAt_zero some_

/-- One address space, with the blocks of all other places as the others. -/
theorem Kept.held (kept : Kept S G Q m) (isDir : G.dir r = d) (nonzero : d ≠ 0) :
    Held S d (Q ∪ G.others m.words r) m := by
  subst isDir
  refine ⟨nonzero, kept.memory, ?_, kept.few r⟩
  exact (kept.owns.part (Part.place_injective r)).congr fun x => (Part.block_place m.words x).symm

/-- The directory of `r` is `d` now; all other places hold what they held. -/
theorem Kept.rejoin (kept : Kept S G Q m) {m' : VMem} {Q' : Set (Nat × Nat)}
    (memory : Kept S nowhere m'.outstanding m')
    (owns : Owns (Part.block m'.words d) m'.outstanding (Q' ∪ G.others m.words r)) (fewer : Q' ⊆ Q)
    (same : ∀ u, (u, PT_ORDER) ∈ G.others m.words r → m'.words u = m.words u)
    (few : ∀ i, tableAt m'.words d i ≠ 0 → i < NUM_UPDE)
    (contig : Contig m'.words d) :
    Kept S (G.setDir r d) Q' m' ∧ Apart G r m.words m'.words := by
  have spaces : ∀ r', r' ≠ r → SameDir m.words m'.words (G.dir r') := by
    intro r' ne
    by_cases isZero : G.dir r' = 0
    · rw [isZero]
      exact .zero ..
    · refine spaces_of_words (same _ ?_) fun i some_ => same _ ?_
      · exact View.mem_others (x := .dir r') isZero ne
      · exact View.mem_others (x := .table r' i) some_ ne
  have others : ∀ x, x ∉ Set.range (Part.place r) →
      (G.setDir r d).block m'.words x = G.block m.words x := by
    intro x outside
    have other : ¬ x.under r := mt Place.under_iff.1 outside
    rw [block_setDir _ other]
    apply View.block_congr
    cases x with
    | table r' i => exact (spaces r' other).tables i
    | page r' j => simp only [View.address, pageAt, (spaces r' other).entries]
    | _ => rfl
  have mine : ∀ x : Part, (G.setDir r d).block m'.words (x.place r) = x.block m'.words d := by
    intro x
    rw [Part.block_place, setDir_same]
  refine ⟨⟨memory.heap, memory.above, memory.boot, memory.pool, memory.nodup, memory.spare,
    kept.owns.whole owns fewer mine others, fun r' => ?_, fun r' => ?_⟩, .of_same spaces⟩
  · by_cases isR : r' = r
    · rw [isR, setDir_same]
      exact contig
    · rw [setDir_ne G d isR]
      intro i j before some_
      rw [(spaces r' isR).tables] at some_ ⊢
      exact kept.contig r' i j before some_
  · by_cases isR : r' = r
    · rw [isR, setDir_same]
      exact few
    · rw [setDir_ne G d isR]
      intro i some_
      rw [(spaces r' isR).tables] at some_
      exact kept.few r' i some_

theorem Part.block_zero (w : Words) (x : Part) : x.block w 0 = 0 := by
  rw [Part.block_eq_zero_iff]
  cases x with
  | dir => rfl
  | table i => exact tableAt_zero
  | page k => exact pageAt_eq_zero_iff.2 (entry_zero w k)

/-- There is no directory for `r` now. -/
theorem Kept.empty (kept : Kept S G Q m) {m' : VMem} {Q' : Set (Nat × Nat)}
    (memory : Kept S nowhere (Q' ∪ G.others m.words r) m') (fewer : Q' ⊆ Q)
    (same : ∀ u, (u, PT_ORDER) ∈ G.others m.words r → m'.words u = m.words u) :
    Kept S (G.setDir r 0) Q' m' ∧ Apart G r m.words m'.words := by
  have out := memory.outstanding_eq
  have nothing := Part.block_zero m'.words
  refine kept.rejoin (out ▸ memory) ?_ fewer same (fun i some_ => absurd tableAt_zero some_)
    fun i j _ some_ => absurd tableAt_zero some_
  exact ⟨fun x some_ => absurd (nothing x) some_, fun x _ some_ => absurd (nothing x) some_,
    fun b used => Or.inl (out ▸ used), fun b loose => out ▸ loose, memory.owns.nonzero⟩

/-- The entries of one address space have changed. -/
theorem Kept.change (kept : Kept S G Q m) (isDir : G.dir r = d) {m' : VMem} {Q' : Set (Nat × Nat)}
    {e : Nat → Nat} (held : Held S d (Q' ∪ G.others m.words r) m') (fewer : Q' ⊆ Q)
    (change : Change d (Q ∪ G.others m.words r) e m m')
    (contig : Contig m'.words d) :
    Kept S G Q' m' ∧ Edit G r e m.words m'.words := by
  obtain ⟨kept', apart⟩ := kept.rejoin held.memory held.owns fewer
    (fun u other => change.others u (Or.inr other)) held.few contig
  rw [setDir_self isDir] at kept'
  subst isDir
  exact ⟨kept', change.mine, change.tables, apart⟩

/-- With no directory for `r` all blocks are loose or those of others. -/
theorem Kept.outstanding_others (kept : Kept S G Q m) (none_ : G.dir r = 0) :
    m.outstanding = Q ∪ G.others m.words r := by
  have owns := kept.owns.part (Part.place_injective r)
  refine Set.Subset.antisymm (fun b out => ?_) owns.loose_used
  rcases owns.onto b out with loose | ⟨x, named⟩
  · exact loose
  · rw [Part.block_place, none_, Part.block_zero] at named
    exact absurd named.symm (kept.owns.nonzero b out)

/-- A loose, cleared page table becomes a directory. -/
theorem Kept.adopt (kept : Kept S G (insert (d, PT_ORDER) Q) m) (fresh : (d, PT_ORDER) ∉ Q)
    (none_ : G.dir r = 0) (cleared : ∀ i, m.words d i = 0) : Kept S (G.setDir r d) Q m := by
  have memory := kept.memory
  rw [kept.outstanding_others none_, Set.insert_union] at memory
  have fresh' : (d, PT_ORDER) ∉ Q ∪ G.others m.words r := by
    rintro (loose | ⟨some_, x, -, named⟩)
    · exact fresh loose
    · exact (kept.owns.named x (named ▸ some_)).2 (Or.inl named)
  have held := Held.adopt memory fresh' cleared
  refine (kept.rejoin held.memory held.owns (Set.subset_insert _ _) (fun _ _ => rfl) held.few ?_).1
  intro i j _ some_
  simp [tableAt, cleared] at some_

/-! ## Mapping and unmapping -/

/-- **`mappages` maps a loose page**, and makes the page table if there is none. -/
theorem mapPage_spec (kept : Kept S G Q m) (isDir : G.dir r = d) (nonzero : d ≠ 0)
    (small : k < 65536) (next : ∀ i < k / 256, tableAt m.words d i ≠ 0)
    (empty : entry m.words d k = 0) {mem : Nat} (ap : Nat) (loose : (mem, PTE_SHIFT) ∈ Q) :
    Sat (vmContract may) (fun _ m' => Kept S G (Q \ {(mem, PTE_SHIFT)}) m' ∧
      Edit G r (upd (entry m.words d) k (mkPte (v2p mem) ap)) m.words m'.words)
      (mapPage d (PTE_SZ * k) (v2p mem) ap m) := by
  refine ((kept.held isDir nonzero).mapPage small empty ap (Or.inl loose) fun _ => trivial).mono
    fun _ m' post => ?_
  obtain ⟨held, change, tables, -⟩ := post
  have apart : (mem, PTE_SHIFT) ∉ G.others m.words r := by
    rintro ⟨some_, x, -, named⟩
    exact (kept.owns.named x (named ▸ some_)).2 (named ▸ loose)
  rw [Set.union_sdiff_distrib, Set.sdiff_singleton_eq_self apart] at held
  exact kept.change isDir held Set.sdiff_subset change
    (tables.contig next (isDir ▸ kept.contig r))

/-- What `deallocuvm` leaves of the entries. -/
def cut (e : Nat → Nat) (lo hi : Nat) : Nat → Nat := fun j => if lo ≤ j ∧ j < hi then 0 else e j

theorem cut_of_past {e : Nat → Nat} {lo hi j : Nat} (past : ∀ j, hi ≤ j → e j = 0) (above : lo ≤ j) :
    cut e lo hi j = 0 := by
  unfold cut
  by_cases inside : j < hi
  · rw [if_pos ⟨above, inside⟩]
  · rw [if_neg fun both => inside both.2]
    exact past j (Nat.not_lt.1 inside)

/-- Where there is no gap between page tables no page is skipped. -/
theorem swept_eq_cut {w : Words} (contig : Contig w d) (lo hi j : Nat) :
    swept w d lo hi j = cut (entry w d) lo hi j := by
  unfold swept cut
  by_cases empty : entry w d j = 0
  · rw [empty, ite_self, ite_self]
  · apply if_congr _ rfl rfl
    constructor
    · exact fun inside => ⟨inside.1, inside.2.1⟩
    · refine fun inside => ⟨inside.1, inside.2, fun skip => ?_⟩
      exact contig _ _ (Nat.sub_le _ _) (tableAt_ne_zero_of_entry empty) skip.2.2

/-- **`deallocuvm` frees the pages from `newsz` up to `oldsz`.** -/
theorem deallocuvm_spec (kept : Kept S G Q m) (isDir : G.dir r = d) (nonzero : d ≠ 0)
    {oldsz newsz : Nat} (bounded : oldsz ≤ UADDR_SZ) (shrinks : newsz < oldsz) :
    Sat (vmStops short may) (fun res m' => res = newsz ∧ Kept S G Q m' ∧
      Edit G r (cut (entry m.words d) (pages newsz) (pages oldsz)) m.words m'.words ∧
      m'.misses = m.misses) (deallocuvm d oldsz newsz m) := by
  have contig := isDir ▸ kept.contig r
  refine ((kept.held isDir nonzero).deallocuvm bounded shrinks).mono fun res m' post => ?_
  obtain ⟨isNew, sweep⟩ := post
  obtain ⟨kept', edit⟩ := kept.change isDir sweep.held subset_rfl
    (sweep.change.congr (swept_eq_cut contig _ _)) fun i j before there => by
      rw [sweep.tables] at there ⊢
      exact contig i j before there
  exact ⟨isNew, kept', edit, sweep.misses⟩

/-- **`freevm` leaves nothing of an address space.** -/
theorem freevm_spec (kept : Kept S G Q m) (isDir : G.dir r = d) (nonzero : d ≠ 0) :
    Sat (vmStops short may) (fun _ m' => Kept S (G.setDir r 0) Q m' ∧ Apart G r m.words m'.words ∧
      m'.misses = m.misses) (freevm d m) := by
  refine ((kept.held isDir nonzero).freevm vmStops_returnsTables).mono fun _ m' post => ?_
  obtain ⟨memory, same, misses⟩ := post
  rw [leaked_eq_empty (isDir ▸ kept.contig r), Set.union_empty] at memory
  obtain ⟨kept', apart⟩ := kept.empty memory subset_rfl fun u other => same u (Or.inr other)
  exact ⟨kept', apart, misses⟩

/-! ## Allocating pages -/

/-- Below `lo` the entries are those of `e0`; from there on pages up to `hi` are there. -/
structure Filled (e0 : Nat → Nat) (lo hi : Nat) (e : Nat → Nat) : Prop where
  old : ∀ j < lo, e j = e0 j
  new : ∀ j, lo ≤ j → (e j ≠ 0 ↔ j < hi)

/-- All pages below `n` have a page table. -/
def Reaches (w : Words) (d n : Nat) : Prop := ∀ j < n, tableAt w d (j / 256) ≠ 0

theorem Reaches.edit {e : Nat → Nat} {w w' : Words} {n : Nat}
    (reaches : Reaches w (G.dir r) n) (edit : Edit G r e w w') : Reaches w' (G.dir r) n := by
  intro j below
  rw [edit.tables _ (reaches j below)]
  exact reaches j below

/-- The page tables before the one of the next page are there. -/
theorem Reaches.next {w : Words} (reaches : Reaches w d k) :
    ∀ i < k / 256, tableAt w d i ≠ 0 := by
  intro i before
  have there := reaches (i * 256) (by omega)
  rwa [Nat.mul_div_cancel i (by decide)] at there

/-- The pages in use hold the bytes they held. -/
def Undisturbed (G : View) (m m' : VMem) : Prop :=
  ∀ r k, pageAt m.words (G.dir r) k ≠ 0 → ∀ i < PTE_SZ,
    m'.bytes (pageAt m.words (G.dir r) k + i) = m.bytes (pageAt m.words (G.dir r) k + i)

/-- The pages from `lo` up to `hi` hold zeros. -/
def Zeroed (m : VMem) (d lo hi : Nat) : Prop :=
  ∀ k, lo ≤ k → k < hi → ∀ i < PTE_SZ, m.bytes (pageAt m.words d k + i) = 0

theorem Undisturbed.of_bytes {m' : VMem} (same : m'.bytes = m.bytes) : Undisturbed G m m' :=
  fun _ _ _ _ _ => by rw [same]

/-- An address space of `sz` bytes: page tables for all of it, and no page past its end. -/
structure Space (w : Words) (d sz : Nat) : Prop where
  reaches : Reaches w d (pages sz)
  past : ∀ j, pages sz ≤ j → entry w d j = 0

/-- The pages of `[0, align_up(sz))` are mapped, and no others. -/
def VMem.Exactly (m : VMem) (d sz : Nat) : Prop := ∀ k, entry m.words d k ≠ 0 ↔ k < pages sz

/-- An address space has grown to `hi` pages. -/
structure Grew (G : View) (r : Root) (lo hi : Nat) (m m' : VMem) : Prop where
  misses : m'.misses = m.misses
  reaches : Reaches m'.words (G.dir r) hi
  zeroed : Zeroed m' (G.dir r) lo hi
  filled : ∃ e, Filled (entry m.words (G.dir r)) lo hi e ∧ Edit G r e m.words m'.words

/-- **`allocuvm` grows an address space**, or leaves its pages as they were. -/
theorem allocuvm_spec (kept : Kept S G Q m) (isDir : G.dir r = d) (nonzero : d ≠ 0)
    {oldsz newsz : Nat} (space : Space m.words d oldsz)
    (why : oldsz ≤ newsz → newsz < UADDR_SZ →
      m.supply.serve (growth m.words d oldsz newsz) = .error .table → short) :
    Sat (vmStops short may) (fun res m' => Kept S G Q m' ∧ Undisturbed G m m' ∧
      (res = 0 ∧ Edit G r (entry m.words d) m.words m'.words ∧
          (UADDR_SZ ≤ newsz ∧ m'.misses = m.misses ∨ m'.misses = PTE_SHIFT :: m.misses ∧
            m.supply.serve (growth m.words d oldsz newsz) = .error .page) ∨
        res = oldsz ∧ newsz < oldsz ∧ m' = m ∨
        res = newsz ∧ oldsz ≤ newsz ∧ newsz < UADDR_SZ ∧
          Grew G r (pages oldsz) (pages newsz) m m' ∧
          m.supply.serve (growth m.words d oldsz newsz) = .ok m'.supply))
      (allocuvm d oldsz newsz m) := by
  by_cases smaller : newsz < oldsz
  · unfold allocuvm
    by_cases huge : UADDR_SZ ≤ newsz
    · rw [if_pos huge]
      exact ⟨kept, .of_bytes rfl, Or.inl ⟨rfl, isDir ▸ Edit.refl G r m.words, Or.inl ⟨huge, rfl⟩⟩⟩
    · rw [if_neg huge, if_pos smaller]
      exact ⟨kept, .of_bytes rfl, Or.inr (Or.inl ⟨rfl, smaller, rfl⟩)⟩
  have le : oldsz ≤ newsz := Nat.not_lt.1 smaller
  have contig := isDir ▸ kept.contig r
  refine ((kept.held isDir nonzero).allocuvm le (fun k above _ => space.past k above)
    (why le)).mono fun res m' post => ?_
  obtain ⟨held, ⟨mid, tables⟩, grown⟩ := post
  have contig' := tables.contig space.reaches.next contig
  have calm : ∀ {new : Nat → Prop}, Gained (Q ∪ G.others m.words r) d new m m' → Undisturbed G m m' :=
    fun gained r k some_ => gained.bytes _ (kept.named (x := .page r k) some_).1
  rcases grown with ⟨isZero, reason, gained⟩ | ⟨isNew, below, misses, gained, -, served⟩
  · obtain ⟨kept', edit⟩ := kept.change isDir held subset_rfl
      ⟨gained.toStable, fun j => gained.stays j id⟩ contig'
    exact ⟨kept', calm gained, Or.inl ⟨isZero, edit, reason⟩⟩
  · obtain ⟨kept', edit⟩ := kept.change isDir held subset_rfl
      ⟨gained.toStable, fun _ => rfl⟩ contig'
    subst isDir
    refine ⟨kept', calm gained, Or.inr (Or.inr ⟨isNew, le, below, ⟨misses, fun j inside => ?_,
      fun k above inside => gained.zeroed k ⟨above, inside⟩, _, ⟨fun j before => ?_,
      fun j above => ?_⟩, edit⟩, served⟩)⟩
    · by_cases old : j < pages oldsz
      · exact gained.tables _ (space.reaches j old) ▸ space.reaches j old
      · exact tableAt_ne_zero_of_entry (gained.mapped j ⟨Nat.not_lt.1 old, inside⟩).1
    · exact gained.stays j fun new => absurd new.1 (Nat.not_le.2 before)
    · by_cases inside : j < pages newsz
      · exact iff_of_true (gained.mapped j ⟨above, inside⟩).1 inside
      · refine iff_of_false (not_not.2 ?_) inside
        rw [gained.stays j fun new => inside new.2]
        exact space.past j above

theorem Grew.space {m' : VMem} {lo sz : Nat} (grew : Grew G r lo (pages sz) m m')
    (le : lo ≤ pages sz) : Space m'.words (G.dir r) sz := by
  obtain ⟨-, reaches, -, e, filled, edit⟩ := grew
  refine ⟨reaches, fun j past => ?_⟩
  rw [edit.mine]
  by_contra some_
  exact absurd ((filled.new j (le.trans past)).1 some_) (Nat.not_lt.2 past)

/-- An address space that has grown has the pages of its new size. -/
theorem Grew.exactly {m' : VMem} {sz sz' : Nat}
    (grew : Grew G r (pages sz) (pages sz') m m') (exactly : m.Exactly (G.dir r) sz) (le : sz ≤ sz') :
    m'.Exactly (G.dir r) sz' := by
  obtain ⟨-, -, -, e, filled, edit⟩ := grew
  have more := pages_le le
  intro k
  rw [edit.mine k]
  by_cases before : k < pages sz
  · rw [filled.old k before]
    exact iff_of_true ((exactly k).2 before) (by omega)
  · exact filled.new k (Nat.not_lt.1 before)

/-- An edit that leaves the entries leaves the address space. -/
theorem Space.edit {w w' : Words} {sz : Nat} (space : Space w (G.dir r) sz)
    (edit : Edit G r (entry w (G.dir r)) w w') : Space w' (G.dir r) sz :=
  ⟨space.reaches.edit edit, fun j past => (edit.mine j).trans (space.past j past)⟩

/-- Other address spaces stay. -/
theorem Space.apart {w w' : Words} {r' : Root} {sz : Nat} (space : Space w (G.dir r') sz)
    (apart : Apart G r w w') (ne : r' ≠ r) : Space w' (G.dir r') sz := by
  refine ⟨fun j below => ?_, fun j past => ?_⟩
  · rw [apart.tables r' ne]
    exact space.reaches j below
  · rw [apart.entries r' ne]
    exact space.past j past

/-- Everything outstanding is there as it was, and nothing else. -/
theorem Kept.restored (kept : Kept S G Q m) (none_ : G.dir r = 0) {m' : VMem}
    (memory : Kept S nowhere m.outstanding m') (tables : KeepsTables m m') :
    Kept S G Q m' ∧ Apart G r m.words m'.words := by
  have out := kept.outstanding_others none_
  rw [out] at memory
  obtain ⟨kept', apart⟩ := kept.empty memory subset_rfl fun u other => tables u (out ▸ Or.inr other)
  rw [setDir_self none_] at kept'
  exact ⟨kept', apart⟩

/-- **`copyuvm` makes an address space with as many pages**, or leaves nothing of it. -/
theorem copyuvm_spec (kept : Kept S G Q m) {r1 : Root} {d1 sz : Nat} (isSource : G.dir r1 = d1)
    (nonzero1 : d1 ≠ 0) (none_ : G.dir r = 0) (bounded : sz ≤ UADDR_SZ)
    (gap : ¬ (∀ j < pages sz, entry m.words d1 j ≠ 0) → may .copyuvmPte ∧ may .copyuvmPage)
    (why : m.supply.serve (copyNeeds sz) = .error .table → short) :
    Sat (vmStops short may) (fun d m' => Apart G r m.words m'.words ∧
      (d = 0 ∧ Kept S G Q m' ∧ m'.misses = PTE_SHIFT :: m.misses ∧
          m.supply.serve (copyNeeds sz) = .error .page ∨
        d ≠ 0 ∧ Kept S (G.setDir r d) Q m' ∧ m'.misses = m.misses ∧
          Filled (fun _ => 0) 0 (pages sz) (entry m'.words d) ∧
          Reaches m'.words d (pages sz) ∧ (∀ j < pages sz, entry m.words d1 j ≠ 0) ∧
          m.supply.serve (copyNeeds sz) = .ok m'.supply))
      (copyuvm d1 sz m) := by
  have out := kept.outstanding_others none_
  refine ((kept.held isSource nonzero1).copyuvm (pages_bounded bounded) (fun k below none_ =>
    gap fun all => all k below none_) why).mono fun d m' post => ?_
  obtain ⟨tables, ⟨rfl, memory, misses, refused⟩ | ⟨held, copied, misses, whole, contig, served⟩⟩ :=
    post
  · obtain ⟨kept', apart⟩ := kept.restored none_ memory tables
    exact ⟨apart, Or.inl ⟨rfl, kept', misses, refused⟩⟩
  · have owns := held.owns
    rw [out] at owns
    obtain ⟨kept', apart⟩ := kept.rejoin held.memory owns subset_rfl
      (fun u other => tables u (out ▸ Or.inr other)) held.few contig
    refine ⟨apart, Or.inr ⟨held.nonzero, kept', misses, ⟨fun j below => ?_, fun j _ => ?_⟩,
      fun j below => ?_, whole, served⟩⟩
    · exact absurd below (Nat.not_lt_zero j)
    · exact copied.only j
    · exact tableAt_ne_zero_of_entry ((copied.only j).2 below)

end Whole

end Xv6Rpi.Proc.Vm
