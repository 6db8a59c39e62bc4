/-
# Theory.Dyadic -- tilings by aligned blocks of power-of-two size, and buddies

A heap of `P` trees of height `D` has `P * 2 ^ D` cells.  Block `(k, b)` covers the
cells `c` with `c / 2 ^ k = b`; the halves of `(k + 1, b)` are `(k, 2 * b)` and
`(k, 2 * b + 1)`, each the other's buddy.  `Tiles D P T` says that the blocks of
`T` cover every cell exactly once.

A `Forest D P F H` is a tiling by free blocks `F` and held blocks `H` in which no
two buddies are both free.  A buddy allocator moves between forests by four rules:
`take`, `put`, `split`, `merge`.  The free blocks of a forest are determined by
the held ones: they are the largest aligned blocks clear of `H` (`mem_free_iff`).
-/
import Mathlib.Data.Nat.Bitwise
import Mathlib.Data.Set.Insert
import Mathlib.Order.Disjoint
import Mathlib.Tactic.Common
import Mathlib.Tactic.Ring

namespace Xv6Rpi.Theory.Dyadic

set_option autoImplicit false

/-- A set of blocks, each given by its level and its index there. -/
abbrev Blocks : Type := Set (Nat × Nat)

structure Tiles (D P : Nat) (T : Blocks) : Prop where
  bounded : ∀ k b, (k, b) ∈ T → k ≤ D ∧ b < P * 2 ^ (D - k)
  cover : ∀ c < P * 2 ^ D, ∃ k, (k, c / 2 ^ k) ∈ T
  unique : ∀ c j k, (j, c / 2 ^ j) ∈ T → (k, c / 2 ^ k) ∈ T → j = k

/-- A tiling by free and held blocks without two free buddies. -/
structure Forest (D P : Nat) (F H : Blocks) : Prop where
  tiles : Tiles D P (F ∪ H)
  apart : ∀ x ∈ F, x ∉ H
  canonical : ∀ k < D, ∀ b, ¬ ((k, 2 * b) ∈ F ∧ (k, 2 * b + 1) ∈ F)

/-- No held block meets block `(k, b)`. -/
def Clear (H : Blocks) (k b : Nat) : Prop := ∀ c, c / 2 ^ k = b → ∀ j, (j, c / 2 ^ j) ∉ H

section Cells

theorem div_pow_add (c k j : Nat) : c / 2 ^ (k + j) = c / 2 ^ k / 2 ^ j := by
  rw [pow_add, Nat.div_div_eq_div_mul]

theorem div_pow_succ (c k : Nat) : c / 2 ^ (k + 1) = c / 2 ^ k / 2 := by
  rw [div_pow_add, pow_one]

/-- The first cell of a block. -/
theorem first_cell (k b : Nat) : b * 2 ^ k / 2 ^ k = b :=
  Nat.mul_div_cancel b (Nat.two_pow_pos k)

theorem width_succ (P : Nat) {D k : Nat} (below : k < D) :
    P * 2 ^ (D - k) = 2 * (P * 2 ^ (D - (k + 1))) := by
  rw [show D - k = (D - (k + 1)) + 1 by omega, pow_succ]
  ring

/-- The other half of the block one level up. -/
def buddy (b : Nat) : Nat := b ^^^ 1

theorem buddy_div (b : Nat) : buddy b / 2 = b / 2 := by
  rw [buddy, Nat.xor_div_two]
  simp

theorem buddy_eq (b : Nat) : buddy b = if b % 2 = 0 then b + 1 else b - 1 := by
  have halves := buddy_div b
  have parity : buddy b % 2 = (b + 1) % 2 := by
    rw [buddy, Nat.xor_mod_two_eq]
  split <;> omega

theorem buddy_even (b : Nat) : buddy (2 * b) = 2 * b + 1 := by
  rw [buddy_eq, if_pos (by omega)]

theorem buddy_odd (b : Nat) : buddy (2 * b + 1) = 2 * b := by
  rw [buddy_eq, if_neg (by omega)]
  omega

/-- Two buddies have the cells of the block they make up. -/
theorem mem_buddies {c j k b : Nat} :
    (j, c / 2 ^ j) ∈ ({(k, b), (k, buddy b)} : Blocks) ↔ j = k ∧ c / 2 ^ (k + 1) = b / 2 := by
  simp only [Set.mem_insert_iff, Set.mem_singleton_iff, Prod.mk.injEq, ← and_or_left, div_pow_succ]
  refine and_congr_right fun same => ?_
  subst same
  rw [buddy_eq]
  split <;> omega

end Cells

namespace Tiles

variable {D P : Nat} {T : Blocks} {k b : Nat}

/-- Two blocks of a tiling that share a cell are one block. -/
theorem eq_of_cell (tiles : Tiles D P T) {c j k a b : Nat} (inT : (j, a) ∈ T) (inT' : (k, b) ∈ T)
    (cell : c / 2 ^ j = a) (cell' : c / 2 ^ k = b) : j = k ∧ a = b := by
  subst cell cell'
  obtain rfl := tiles.unique c j k inT inT'
  exact ⟨rfl, rfl⟩

/-- A block and one of its halves are not both in a tiling. -/
theorem not_both (tiles : Tiles D P T) (half : (k, b) ∈ T) : (k + 1, b / 2) ∉ T := by
  intro whole
  have cell : b * 2 ^ k / 2 ^ (k + 1) = b / 2 := by rw [div_pow_succ, first_cell]
  have := (tiles.eq_of_cell half whole (first_cell k b) cell).1
  omega

/-- Exchanging blocks for others of one level that cover the same cells `Z`. -/
theorem exchange (tiles : Tiles D P T) {A B : Blocks} {Z : Nat → Prop} {l : Nat}
    (bounded : ∀ j a, (j, a) ∈ A → j ≤ D ∧ a < P * 2 ^ (D - j))
    (new : ∀ c j, (j, c / 2 ^ j) ∈ A ↔ j = l ∧ Z c)
    (old : ∀ c j, (j, c / 2 ^ j) ∈ T → ((j, c / 2 ^ j) ∈ B ↔ Z c)) :
    Tiles D P (A ∪ T \ B) := by
  refine ⟨?_, fun c inside => ?_, ?_⟩
  · rintro j a (inA | ⟨inT, -⟩)
    · exact bounded j a inA
    · exact tiles.bounded j a inT
  · by_cases within : Z c
    · exact ⟨l, Or.inl ((new c l).2 ⟨rfl, within⟩)⟩
    · obtain ⟨j, inT⟩ := tiles.cover c inside
      exact ⟨j, Or.inr ⟨inT, fun inB => within ((old c j inT).1 inB)⟩⟩
  · rintro c i j (first | ⟨first, out⟩) (second | ⟨second, out'⟩)
    · exact ((new c i).1 first).1.trans ((new c j).1 second).1.symm
    · exact absurd ((old c j second).2 ((new c i).1 first).2) out'
    · exact absurd ((old c i first).2 ((new c j).1 second).2) out
    · exact tiles.unique c i j first second

/-- Exchanging a block for its two halves. -/
theorem split (tiles : Tiles D P T) (whole : (k + 1, b / 2) ∈ T) :
    Tiles D P ({(k, b), (k, buddy b)} ∪ T \ {(k + 1, b / 2)}) := by
  obtain ⟨levels, small⟩ := tiles.bounded _ _ whole
  have width := width_succ P (Nat.lt_of_succ_le levels)
  have other := buddy_div b
  refine tiles.exchange ?_ (fun c j => mem_buddies) fun c j inT => ⟨fun same => ?_, fun cell => ?_⟩
  · rintro j a (same | same)
    all_goals
      obtain ⟨rfl, rfl⟩ := Prod.mk.inj same
      exact ⟨by omega, by omega⟩
  · obtain ⟨rfl, cell⟩ := Prod.mk.inj same
    exact cell
  · obtain ⟨rfl, same⟩ := tiles.eq_of_cell inT whole rfl cell
    exact Prod.ext rfl same

/-- Exchanging two buddies for the block they make up. -/
theorem merge (tiles : Tiles D P T) (below : k < D) (own : (k, b) ∈ T) (other : (k, buddy b) ∈ T) :
    Tiles D P ({(k + 1, b / 2)} ∪ T \ {(k, b), (k, buddy b)}) := by
  have small := (tiles.bounded _ _ own).2
  have width := width_succ P below
  refine tiles.exchange (l := k + 1) (Z := fun c => c / 2 ^ (k + 1) = b / 2) ?_ (fun c j => ?_)
    fun c j inT => mem_buddies.trans ⟨And.right, fun cell => ⟨?_, cell⟩⟩
  · intro j a same
    obtain ⟨rfl, rfl⟩ := Prod.mk.inj same
    exact ⟨by omega, by omega⟩
  · rw [Set.mem_singleton_iff, Prod.mk.injEq]
    refine and_congr_right fun same => ?_
    rw [same]
  · -- the cell is in one of the two
    rcases mem_buddies.2 ⟨rfl, cell⟩ with same | same
    · exact (tiles.eq_of_cell inT own rfl (Prod.mk.inj same).2).1
    · exact (tiles.eq_of_cell inT other rfl (Prod.mk.inj same).2).1

end Tiles

namespace Forest

variable {D P : Nat} {F H : Blocks} {k b : Nat}

/-- Two blocks of a forest that share a cell are one block. -/
theorem eq_of_cell (forest : Forest D P F H) {c j k a b : Nat} (first : (j, a) ∈ F ∪ H)
    (second : (k, b) ∈ F ∪ H) (cell : c / 2 ^ j = a) (cell' : c / 2 ^ k = b) : j = k ∧ a = b :=
  forest.tiles.eq_of_cell first second cell cell'

/-- Two buddies are not both free. -/
theorem not_both_free (forest : Forest D P F H) (below : k < D) (own : (k, b) ∈ F) :
    (k, buddy b) ∉ F := by
  intro other
  rcases Nat.even_or_odd' b with ⟨c, rfl | rfl⟩
  · rw [buddy_even] at other
    exact forest.canonical k below c ⟨own, other⟩
  · rw [buddy_odd] at other
    exact forest.canonical k below c ⟨other, own⟩

/-- Taking a free block. -/
theorem take (forest : Forest D P F H) {x : Nat × Nat} (free : x ∈ F) :
    Forest D P (F \ {x}) (insert x H) := by
  have same : F \ {x} ∪ insert x H = F ∪ H := by
    ext y
    by_cases eq : y = x
    · simp [eq, free]
    · simp [eq]
  refine ⟨by rw [same]; exact forest.tiles, ?_, ?_⟩
  · rintro y ⟨inF, ne⟩ (eq | inH)
    · exact ne eq
    · exact forest.apart y inF inH
  · rintro k below b ⟨⟨left, -⟩, ⟨right, -⟩⟩
    exact forest.canonical k below b ⟨left, right⟩

/-- Giving back a block whose buddy is not free. -/
theorem put (forest : Forest D P F H) (held : (k, b) ∈ H)
    (alone : k = D ∨ (k, buddy b) ∉ F) : Forest D P (insert (k, b) F) (H \ {(k, b)}) := by
  have same : insert (k, b) F ∪ H \ {(k, b)} = F ∪ H := by
    ext y
    by_cases eq : y = (k, b)
    · simp [eq, held]
    · simp [eq]
  refine ⟨by rw [same]; exact forest.tiles, ?_, ?_⟩
  · rintro y (rfl | inF) ⟨inH, ne⟩
    · exact ne rfl
    · exact forest.apart y inF inH
  · rintro j below a ⟨left, right⟩
    rcases left with isB | left
    · obtain ⟨rfl, rfl⟩ := Prod.mk.inj isB
      rcases right with isB' | right
      · have := (Prod.mk.inj isB').2
        omega
      · rcases alone with top | free
        · omega
        · rw [buddy_even] at free
          exact free right
    · rcases right with isB | right
      · obtain ⟨rfl, rfl⟩ := Prod.mk.inj isB
        rcases alone with top | free
        · omega
        · rw [buddy_odd] at free
          exact free left
      · exact forest.canonical j below a ⟨left, right⟩

/-- Exchanging held blocks. -/
theorem exchange (forest : Forest D P F H) {A B : Blocks} (held : B ⊆ H) (notFree : ∀ x ∈ A, x ∉ F)
    (tiles : Tiles D P (A ∪ (F ∪ H) \ B)) : Forest D P F (A ∪ H \ B) := by
  have stays : F \ B = F := by
    rw [sdiff_eq_left, Set.disjoint_left]
    exact fun x inF inB => forest.apart x inF (held inB)
  rw [Set.union_sdiff_distrib, stays, Set.union_left_comm] at tiles
  refine ⟨tiles, ?_, forest.canonical⟩
  rintro x inF (inA | ⟨inH, -⟩)
  · exact notFree x inA inF
  · exact forest.apart x inF inH

/-- Cutting a block just taken in two. -/
theorem split (forest : Forest D P F (insert (k + 1, b / 2) H)) (out : (k + 1, b / 2) ∉ H) :
    Forest D P F (insert (k, b) (insert (k, buddy b) H)) ∧ (k, buddy b) ∉ H := by
  have whole : (k + 1, b / 2) ∈ F ∪ insert (k + 1, b / 2) H := Or.inr (Or.inl rfl)
  have half : ∀ a, a / 2 = b / 2 → (k, a) ∉ F ∪ insert (k + 1, b / 2) H :=
    fun a isHalf inT => forest.tiles.not_both inT (isHalf ▸ whole)
  refine ⟨?_, fun held => half _ (buddy_div b) (Or.inr (Or.inr held))⟩
  have cut := forest.exchange (Set.singleton_subset_iff.2 (Or.inl rfl)) ?_
    (forest.tiles.split whole)
  · rwa [Set.insert_sdiff_self_of_notMem out, Set.insert_union, Set.singleton_union] at cut
  · rintro x (rfl | rfl) free
    · exact half b rfl (Or.inl free)
    · exact half _ (buddy_div b) (Or.inl free)

/-- Joining a held block to its free buddy. -/
theorem merge (forest : Forest D P F H) (below : k < D) (held : (k, b) ∈ H)
    (free : (k, buddy b) ∈ F) :
    Forest D P (F \ {(k, buddy b)}) (insert (k + 1, b / 2) (H \ {(k, b)})) ∧ (k + 1, b / 2) ∉ H := by
  have out : (k + 1, b / 2) ∉ F ∪ H := forest.tiles.not_both (Or.inr held)
  refine ⟨?_, fun inH => out (Or.inr inH)⟩
  have taken := forest.take free
  have own : (k, b) ∈ insert (k, buddy b) H := Or.inr held
  have joined := taken.exchange (B := {(k, b), (k, buddy b)}) ?_ ?_
    (taken.tiles.merge below (Or.inr own) (Or.inr (Or.inl rfl)))
  · have other : (k, buddy b) ∈ ({(k, b), (k, buddy b)} : Blocks) := Or.inr rfl
    rwa [Set.insert_sdiff_of_mem _ other, Set.pair_comm,
      Set.sdiff_insert_of_notMem (forest.apart _ free), Set.singleton_union] at joined
  · rintro x (rfl | rfl)
    · exact own
    · exact Or.inl rfl
  · rintro x rfl inF
    exact out (Or.inl inF.1)

/-! ## The free blocks are determined by the held ones -/

/-- A block clear of held ones lies in a free block. -/
theorem exists_free_above (forest : Forest D P F H) : ∀ (k b : Nat), k ≤ D → b < P * 2 ^ (D - k) →
    Clear H k b → ∃ j, k + j ≤ D ∧ (k + j, b / 2 ^ j) ∈ F := by
  intro k
  induction k with
  | zero =>
    intro b _ small clear
    obtain ⟨j, member⟩ := forest.tiles.cover b (by simpa using small)
    rcases member with free | held
    · refine ⟨j, ?_, by rwa [Nat.zero_add]⟩
      have := (forest.tiles.bounded _ _ (Or.inl free)).1
      omega
    · exact absurd held (clear b (by simp) j)
  | succ k ih =>
    intro b below small clear
    have width := width_succ P (D := D) (k := k) (by omega)
    -- each half lies in a free block; if one of these is larger than the half, it is above both
    have halves : ∀ a, a / 2 = b →
        (k, a) ∈ F ∨ ∃ j, k + 1 + j ≤ D ∧ (k + 1 + j, b / 2 ^ j) ∈ F := by
      intro a isHalf
      have clearA : Clear H k a := by
        intro c cell
        refine clear c ?_
        rw [div_pow_succ, cell, isHalf]
      obtain ⟨j, top, free⟩ := ih a (by omega) (by omega) clearA
      cases j with
      | zero => exact Or.inl (by simpa using free)
      | succ j =>
        refine Or.inr ⟨j, by omega, ?_⟩
        have up : a / 2 ^ (j + 1) = b / 2 ^ j := by
          rw [Nat.add_comm j 1, div_pow_add, pow_one, isHalf]
        rw [up, show k + (j + 1) = k + 1 + j by omega] at free
        exact free
    rcases halves (2 * b) (by omega) with left | found
    · rcases halves (2 * b + 1) (by omega) with right | found
      · exact absurd ⟨left, right⟩ (forest.canonical k (by omega) b)
      · exact found
    · exact found

theorem clear_of_free (forest : Forest D P F H) {k b : Nat} (free : (k, b) ∈ F) : Clear H k b := by
  intro c cell j held
  obtain ⟨rfl, rfl⟩ := forest.eq_of_cell (Or.inl free) (Or.inr held) cell rfl
  exact forest.apart _ free held

/-- **Canonical form**: the free blocks are the largest clear ones. -/
theorem mem_free_iff (forest : Forest D P F H) (k b : Nat) :
    (k, b) ∈ F ↔ k ≤ D ∧ b < P * 2 ^ (D - k) ∧ Clear H k b ∧
      (k = D ∨ ¬ Clear H (k + 1) (b / 2)) := by
  constructor
  · intro free
    obtain ⟨below, small⟩ := forest.tiles.bounded _ _ (Or.inl free)
    refine ⟨below, small, forest.clear_of_free free, ?_⟩
    by_cases top : k = D
    · exact Or.inl top
    · refine Or.inr fun clear => ?_
      have width := width_succ P (D := D) (k := k) (by omega)
      obtain ⟨j, -, above⟩ := forest.exists_free_above (k + 1) (b / 2) (by omega) (by omega) clear
      have cell : b * 2 ^ k / 2 ^ (k + 1 + j) = b / 2 / 2 ^ j := by
        rw [div_pow_add, div_pow_succ, first_cell]
      have := (forest.eq_of_cell (Or.inl free) (Or.inl above) (first_cell k b) cell).1
      omega
  · rintro ⟨below, small, clear, largest⟩
    obtain ⟨j, top, above⟩ := forest.exists_free_above k b below small clear
    cases j with
    | zero => simpa using above
    | succ j =>
      rcases largest with isTop | notClear
      · omega
      · refine absurd ?_ notClear
        intro c cell
        have clearAbove := forest.clear_of_free above
        refine clearAbove c ?_
        rw [show k + (j + 1) = k + 1 + j by omega, div_pow_add, cell, Nat.add_comm j 1,
          div_pow_add, pow_one]

end Forest

end Xv6Rpi.Theory.Dyadic
