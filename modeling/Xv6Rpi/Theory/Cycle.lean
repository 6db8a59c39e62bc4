/-
# Theory.Cycle -- circular singly linked lists

`Walk next a l b` says that the walk along `next` from `a` passes exactly through `l` and
arrives at `b`; a cycle is a walk from a cell to itself.

* `Walk.rotate`: a cycle can be started at any of its cells;
* `search_of_walk`: a search loop along `next` finds the first cell that passes its test;
* `Walk.unlink`, `Walk.link`: taking a cell out, and putting one in.
-/
import Mathlib.Data.List.Nodup
import Mathlib.Logic.Function.Basic
import Mathlib.Tactic.Common

namespace Xv6Rpi.Theory.Cycle

set_option autoImplicit false

variable {α : Type} {next next' : α → α} {a b x y : α} {l m : List α}

/-- The walk from `a` through `l` to `b`. -/
def Walk (next : α → α) : α → List α → α → Prop
  | a, [], b => next a = b
  | a, x :: l, b => next a = x ∧ Walk next x l b

theorem walk_append : Walk next a (l ++ x :: m) b ↔ Walk next a l x ∧ Walk next x m b := by
  induction l generalizing a with
  | nil => exact Iff.rfl
  | cons y l ih => simp only [List.cons_append, Walk, ih, and_assoc]

/-- What the cells of a walk point to. -/
theorem Walk.map_next (walk : Walk next a l b) : (a :: l).map next = l ++ [b] := by
  induction l generalizing a with
  | nil =>
    have arrives : next a = b := walk
    simp [arrives]
  | cons x l ih => simp [walk.1, ih walk.2]

/-- The same walk, started elsewhere or with other pointers outside of it. -/
theorem Walk.start (walk : Walk next a l b) (same : next' x = next a)
    (rest : ∀ y ∈ l, next' y = next y) : Walk next' x l b := by
  induction l generalizing a x with
  | nil => exact same.trans walk
  | cons y l ih =>
    refine ⟨same.trans walk.1, ih walk.2 ?_ ?_⟩
    · exact rest y List.mem_cons_self
    · exact fun z member => rest z (List.mem_cons_of_mem _ member)

theorem Walk.congr (walk : Walk next a l b) (same : ∀ y ∈ a :: l, next' y = next y) :
    Walk next' a l b :=
  walk.start (same a List.mem_cons_self) fun y member => same y (List.mem_cons_of_mem _ member)

/-- The rest of a walk, from its last cell in `l` on. -/
theorem Walk.rest (walk : Walk next a (l ++ m) b) : Walk next (l.getLastD a) m b := by
  induction l generalizing a with
  | nil => exact walk
  | cons x l ih =>
    rw [List.getLastD_cons]
    exact ih walk.2

/-- The walk up to there. -/
theorem Walk.upto (walk : Walk next a (l ++ m) b) : Walk next a l (next (l.getLastD a)) := by
  induction l generalizing a with
  | nil => rfl
  | cons x l ih =>
    rw [List.getLastD_cons]
    exact ⟨walk.1, ih walk.2⟩

/-- The walk up to a cell on the way, or at its end. -/
theorem Walk.reaches (walk : Walk next a l b) {before after : List α}
    (split : l ++ [b] = before ++ x :: after) : Walk next a before x := by
  induction before generalizing a l with
  | nil =>
    cases l with
    | nil =>
      obtain ⟨rfl, -⟩ := List.cons.inj split
      exact walk
    | cons y l =>
      obtain ⟨rfl, -⟩ := List.cons.inj split
      exact walk.1
  | cons z before ih =>
    cases l with
    | nil => simp at split
    | cons y l =>
      obtain ⟨rfl, rest⟩ := List.cons.inj split
      exact ⟨walk.1, ih walk.2 rest⟩

theorem Walk.arrives (walk : Walk next a l b) : next (l.getLastD a) = b := by
  rw [← List.append_nil l] at walk
  exact walk.rest

theorem getLastD_mem (a : α) (l : List α) : l.getLastD a ∈ a :: l := by
  induction l generalizing a with
  | nil => simp
  | cons x l ih =>
    rw [List.getLastD_cons]
    exact List.mem_cons_of_mem _ (ih x)

section Cycles

/-- Distinct cells of a cycle have distinct successors. -/
theorem Walk.inj (cycle : Walk next b l b) (nodup : (b :: l).Nodup) (isX : x ∈ b :: l)
    (isY : y ∈ b :: l) (same : next x = next y) : x = y := by
  have images : ((b :: l).map next).Nodup := by
    rw [cycle.map_next]
    exact (List.perm_append_singleton b l).nodup_iff.2 nodup
  exact List.inj_on_of_nodup_map images isX isY same

theorem Walk.next_mem (cycle : Walk next b l b) (isX : x ∈ b :: l) : next x ∈ b :: l := by
  have image := List.mem_map_of_mem (f := next) isX
  rw [cycle.map_next] at image
  exact (List.perm_append_singleton b l).mem_iff.1 image

/-- The cycle, started at one of its cells. -/
theorem Walk.rotate (cycle : Walk next b l b) (isX : x ∈ b :: l) :
    ∃ r, Walk next x r x ∧ (x :: r).Perm (b :: l) := by
  rcases List.mem_cons.1 isX with rfl | inside
  · exact ⟨l, cycle, .refl _⟩
  · obtain ⟨before, after, rfl⟩ := List.append_of_mem inside
    obtain ⟨toX, fromX⟩ := walk_append.1 cycle
    refine ⟨after ++ b :: before, walk_append.2 ⟨fromX, toX⟩, ?_⟩
    exact @List.perm_append_comm _ (x :: after) (b :: before)

/-- The way from one cell of a cycle to another. -/
theorem Walk.segment (cycle : Walk next b l b) (nodup : (b :: l).Nodup) (isX : x ∈ b :: l)
    (isY : y ∈ b :: l) (ne : x ≠ y) :
    ∃ s, Walk next x s y ∧ s.length < l.length ∧ ∀ z ∈ x :: s, z ∈ b :: l ∧ z ≠ y := by
  obtain ⟨r, turn, perm⟩ := cycle.rotate isX
  have inside : y ∈ r := by
    rcases List.mem_cons.1 (perm.mem_iff.2 isY) with same | member
    · exact absurd same.symm ne
    · exact member
  obtain ⟨s, after, rfl⟩ := List.append_of_mem inside
  have distinct := perm.nodup_iff.2 nodup
  have lengths := perm.length_eq
  refine ⟨s, (walk_append.1 turn).1, ?_, ?_⟩
  · simp only [List.length_cons, List.length_append] at lengths
    omega
  · intro z member
    have isCell : z ∈ x :: (s ++ y :: after) := by
      rcases List.mem_cons.1 member with rfl | inS
      · exact List.mem_cons_self
      · exact List.mem_cons_of_mem _ (List.mem_append_left _ inS)
    refine ⟨perm.mem_iff.1 isCell, ?_⟩
    rintro rfl
    rw [← List.cons_append] at distinct
    exact (List.nodup_append.1 distinct).2.2 _ member _ List.mem_cons_self rfl

end Cycles

/-! ## Searching -/

/-- The loop `for (x = start; !test(x); x = next(x));`, out of fuel as none. -/
def search (next : α → α) (test : α → Bool) : Nat → α → Option α
  | 0, _ => none
  | fuel + 1, x => if test x then some x else search next test fuel (next x)

theorem search_of_walk {test : α → Bool} (walk : Walk next a l b) (fuel : Nat)
    (enough : l.length + 2 ≤ fuel) (fails : ∀ y ∈ a :: l, test y = false) (passes : test b = true) :
    search next test fuel a = some b := by
  induction l generalizing a fuel with
  | nil =>
    obtain ⟨fuel, rfl⟩ : ∃ n, fuel = n + 2 := ⟨fuel - 2, by simp at enough; omega⟩
    have arrives : next a = b := walk
    simp [search, fails a (by simp), arrives, passes]
  | cons x l ih =>
    obtain ⟨fuel, rfl⟩ : ∃ n, fuel = n + 1 := ⟨fuel - 1, by simp at enough; omega⟩
    rw [search, fails a (by simp), walk.1]
    apply ih walk.2 fuel
    · simp at enough
      omega
    · exact fun y member => fails y (List.mem_cons_of_mem _ member)

/-- The search finds the one cell of a cycle that passes, wherever it starts. -/
theorem search_cycle {test : α → Bool} (cycle : Walk next b l b) (nodup : (b :: l).Nodup)
    (isX : x ∈ b :: l) (isY : y ∈ b :: l) (passes : test y = true)
    (fails : ∀ z ∈ b :: l, z ≠ y → test z = false) (fuel : Nat) (enough : l.length + 1 ≤ fuel) :
    search next test fuel x = some y := by
  by_cases same : x = y
  · subst same
    obtain ⟨fuel, rfl⟩ : ∃ n, fuel = n + 1 := ⟨fuel - 1, by omega⟩
    simp [search, passes]
  · obtain ⟨s, walk, short, cells⟩ := cycle.segment nodup isX isY same
    apply search_of_walk walk fuel (by omega) _ passes
    intro z member
    exact fails z (cells z member).1 (cells z member).2

/-! ## Changing the list -/

section Changes

variable [DecidableEq α]

/-- The last pointer of a walk redirected. -/
theorem Walk.redirect (walk : Walk next a l b) (nodup : (a :: l).Nodup) (x : α) :
    Walk (Function.update next (l.getLastD a) x) a l x := by
  induction l generalizing a with
  | nil => exact Function.update_self a x next
  | cons y l ih =>
    rw [List.getLastD_cons]
    refine ⟨?_, ih walk.2 (List.nodup_cons.1 nodup).2⟩
    have apart : a ≠ l.getLastD y := by
      intro same
      exact (List.nodup_cons.1 nodup).1 (same ▸ getLastD_mem y l)
    rw [Function.update_of_ne apart, walk.1]

/-- **Unlinking** the cell `x`. -/
theorem Walk.unlink {before after : List α} (cycle : Walk next b (before ++ x :: after) b)
    (nodup : (b :: (before ++ x :: after)).Nodup) :
    Walk (Function.update next (before.getLastD b) (next x)) b (before ++ after) b := by
  obtain ⟨toX, fromX⟩ := walk_append.1 cycle
  have distinct : (b :: before).Nodup := by
    rw [← List.cons_append] at nodup
    exact (List.nodup_append.1 nodup).1
  have apart : ∀ y ∈ x :: after, y ≠ before.getLastD b := by
    rintro y member rfl
    rw [← List.cons_append] at nodup
    exact (List.nodup_append.1 nodup).2.2 _ (getLastD_mem b before) _ member rfl
  have first := toX.redirect distinct (next x)
  cases after with
  | nil =>
    have back : next x = b := fromX
    rw [List.append_nil]
    rwa [back] at first ⊢
  | cons y after =>
    rw [fromX.1] at first ⊢
    refine walk_append.2 ⟨first, fromX.2.congr fun z member => ?_⟩
    exact Function.update_of_ne (apart z (List.mem_cons_of_mem _ member)) _ _

/-- **Linking** a new cell `x` in after `before`. -/
theorem Walk.link {before after : List α} (cycle : Walk next b (before ++ after) b)
    (nodup : (b :: (before ++ after)).Nodup) (new : x ∉ b :: (before ++ after)) :
    Walk (Function.update (Function.update next x (next (before.getLastD b))) (before.getLastD b) x) b
      (before ++ x :: after) b := by
  have distinct : (b :: before).Nodup ∧ ∀ y ∈ after, y ≠ before.getLastD b := by
    rw [← List.cons_append] at nodup
    refine ⟨(List.nodup_append.1 nodup).1, ?_⟩
    rintro y member rfl
    exact (List.nodup_append.1 nodup).2.2 _ (getLastD_mem b before) _ member rfl
  have isBefore : before.getLastD b ∈ b :: (before ++ after) := by
    rw [← List.cons_append]
    exact List.mem_append_left _ (getLastD_mem b before)
  have notX : ∀ y ∈ b :: (before ++ after), y ≠ x := by
    rintro y member rfl
    exact new member
  have first : Walk (Function.update next x (next (before.getLastD b))) b before
      (next (before.getLastD b)) := by
    apply cycle.upto.congr
    intro y member
    rw [Function.update_of_ne]
    apply notX
    rw [← List.cons_append]
    exact List.mem_append_left _ member
  refine walk_append.2 ⟨first.redirect distinct.1 x, cycle.rest.start ?_ ?_⟩
  · rw [Function.update_of_ne (notX _ isBefore).symm, Function.update_self]
  · intro y member
    rw [Function.update_of_ne (distinct.2 y member), Function.update_of_ne]
    exact notX y (List.mem_cons_of_mem _ (List.mem_append_right _ member))

/-- **Replacing** the cell `y` by a new one. -/
theorem Walk.replace {before after : List α} (cycle : Walk next b (before ++ y :: after) b)
    (nodup : (b :: (before ++ y :: after)).Nodup) (new : x ∉ b :: (before ++ y :: after)) :
    Walk (Function.update (Function.update next x (next y)) (before.getLastD b) x) b
      (before ++ x :: after) b := by
  have fewer : (b :: (before ++ after)).Sublist (b :: (before ++ y :: after)) :=
    ((List.sublist_cons_self y after).append_left before).cons_cons b
  have without := cycle.unlink nodup
  have linked := without.link (nodup.sublist fewer) fun member => new (fewer.subset member)
  have apart : before.getLastD b ≠ x := by
    rintro rfl
    apply new
    rw [← List.cons_append]
    exact List.mem_append_left _ (getLastD_mem b before)
  rwa [Function.update_self, Function.update_comm apart, Function.update_idem] at linked

end Changes

end Xv6Rpi.Theory.Cycle
