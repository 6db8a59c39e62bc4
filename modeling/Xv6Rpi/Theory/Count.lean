/-
# Theory.Count -- how many pointers point to an object

`refCount ptr k` is the number of places that point to `k`.  The two rules say what
setting an empty pointer and clearing a set one do to it.
-/
import Mathlib.Data.Fintype.Card

namespace Xv6Rpi.Theory

set_option autoImplicit false

variable {ι κ : Type} [Fintype ι] [DecidableEq κ]

/-- The number of places that point to `k`. -/
def refCount (ptr : ι → Option κ) (k : κ) : Nat := (Finset.univ.filter fun i => ptr i = some k).card

variable {ptr : ι → Option κ} {i : ι} {k : κ}

theorem refCount_pos (points : ptr i = some k) : 0 < refCount ptr k :=
  Finset.card_pos.2 ⟨i, by simp [points]⟩

theorem exists_of_refCount_pos (some_ : 0 < refCount ptr k) : ∃ i, ptr i = some k := by
  obtain ⟨i, member⟩ := Finset.card_pos.1 some_
  exact ⟨i, (Finset.mem_filter.1 member).2⟩

variable [DecidableEq ι]

/-- Setting a pointer that pointed nowhere. -/
theorem refCount_set (empty : ptr i = none) (k k' : κ) :
    refCount (Function.update ptr i (some k)) k' = refCount ptr k' + if k' = k then 1 else 0 := by
  unfold refCount
  by_cases same : k' = k
  · subst same
    have new : (Finset.univ.filter fun j => Function.update ptr i (some k') j = some k') =
        insert i (Finset.univ.filter fun j => ptr j = some k') := by
      ext j
      by_cases here : j = i
      · simp [here]
      · simp [here]
    rw [new, Finset.card_insert_of_notMem (by simp [empty]), if_pos rfl]
  · have old : (Finset.univ.filter fun j => Function.update ptr i (some k) j = some k') =
        Finset.univ.filter fun j => ptr j = some k' := by
      ext j
      by_cases here : j = i
      · subst here
        simp [empty, Ne.symm same]
      · simp [here]
    rw [old, if_neg same, Nat.add_zero]

/-- Clearing a pointer. -/
theorem refCount_clear (points : ptr i = some k) (k' : κ) :
    refCount (Function.update ptr i none) k' + (if k' = k then 1 else 0) = refCount ptr k' := by
  have restored : Function.update (Function.update ptr i none) i (some k) = ptr := by
    rw [Function.update_idem, ← points, Function.update_eq_self]
  have cleared : Function.update ptr i none i = none := Function.update_self ..
  rw [← refCount_set cleared k k', restored]

end Xv6Rpi.Theory
