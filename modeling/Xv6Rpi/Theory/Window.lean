/-
# Theory.Window -- stretches of a memory with wrapping addresses

A memory is a function on `w`-bit addresses.  `fill m d n f` replaces the `n` cells from `d` on by
`f 0 .. f (n - 1)`; addresses wrap, so the stretch may too.  A store is a stretch of one cell, and
`fill_add` joins neighbouring stretches, which is what a loop of stores needs.
-/
import Mathlib.Algebra.Group.Nat.Defs
import Mathlib.Logic.Function.Basic
import Mathlib.Order.Basic

namespace Xv6Rpi.Theory

set_option autoImplicit false

variable {w : Nat} {α : Type}

/-! ## Addresses -/

theorem add_ofNat_add (d : BitVec w) (i j : Nat) :
    d + BitVec.ofNat w i + BitVec.ofNat w j = d + BitVec.ofNat w (i + j) := by
  rw [BitVec.add_assoc, BitVec.ofNat_add]

/-- How far one address is above another. -/
theorem add_ofNat_eq_iff (s d : BitVec w) {k : Nat} (small : k < 2 ^ w) :
    s + BitVec.ofNat w k = d ↔ k = (d - s).toNat := by
  rw [BitVec.add_comm, ← BitVec.eq_sub_iff_add_eq, ← BitVec.toNat_inj, BitVec.toNat_ofNat,
    Nat.mod_eq_of_lt small]

theorem toNat_add_ofNat_sub (d : BitVec w) {i : Nat} (small : i < 2 ^ w) :
    (d + BitVec.ofNat w i - d).toNat = i :=
  ((add_ofNat_eq_iff d _ small).1 rfl).symm

theorem add_ofNat_toNat_sub (d a : BitVec w) : d + BitVec.ofNat w (a - d).toNat = a :=
  (add_ofNat_eq_iff d a (a - d).isLt).2 rfl

/-- The distance from an address further on. -/
theorem toNat_sub_add (a d : BitVec w) {k : Nat} (small : k < 2 ^ w) :
    (a - (d + BitVec.ofNat w k)).toNat =
      if k ≤ (a - d).toNat then (a - d).toNat - k else 2 ^ w - k + (a - d).toNat := by
  have below := (a - d).isLt
  rw [← BitVec.sub_sub, BitVec.toNat_sub, BitVec.toNat_ofNat, Nat.mod_eq_of_lt small]
  by_cases le : k ≤ (a - d).toNat
  · rw [if_pos le, show 2 ^ w - k + (a - d).toNat = 2 ^ w + ((a - d).toNat - k) by omega,
      Nat.add_mod_left]
    exact Nat.mod_eq_of_lt (by omega)
  · rw [if_neg le]
    exact Nat.mod_eq_of_lt (by omega)

/-! ## Stretches -/

/-- The `n` cells from `d` on are `f 0 .. f (n - 1)`. -/
def fill (m : BitVec w → α) (d : BitVec w) (n : Nat) (f : Nat → α) : BitVec w → α := fun a =>
  if (a - d).toNat < n then f (a - d).toNat else m a

variable {m : BitVec w → α} {d : BitVec w} {n : Nat} {f g : Nat → α}

theorem fill_inside (fits : n ≤ 2 ^ w) {i : Nat} (inside : i < n) :
    fill m d n f (d + BitVec.ofNat w i) = f i := by
  have offset := toNat_add_ofNat_sub d (Nat.lt_of_lt_of_le inside fits)
  simp only [fill, offset, if_pos inside]

theorem fill_outside {a : BitVec w} (outside : ∀ i < n, a ≠ d + BitVec.ofNat w i) :
    fill m d n f a = m a := by
  apply if_neg
  intro inside
  apply outside _ inside
  exact (add_ofNat_toNat_sub d a).symm

theorem fill_zero : fill m d 0 f = m := by
  funext a
  simp [fill]

theorem fill_congr (same : ∀ i < n, f i = g i) : fill m d n f = fill m d n g := by
  funext a
  simp only [fill]
  split
  · apply same
    assumption
  · rfl

/-- Two stretches are the same when their cells are. -/
theorem fill_eq_iff (fits : n ≤ 2 ^ w) : fill m d n f = fill m d n g ↔ ∀ i < n, f i = g i := by
  constructor
  · intro same i inside
    have here := congrFun same (d + BitVec.ofNat w i)
    rwa [fill_inside fits inside, fill_inside fits inside] at here
  · exact fill_congr

theorem update_eq_fill (v : α) : Function.update m d v = fill m d 1 fun _ => v := by
  funext a
  by_cases same : a = d
  · subst same
    simp [fill]
  · rw [Function.update_of_ne same, fill_outside]
    intro i inside
    obtain rfl : i = 0 := by omega
    simpa using same

/-- **Neighbouring stretches** are one. -/
theorem fill_add {k : Nat} (small : k < 2 ^ w) (fits : k + n ≤ 2 ^ w) :
    fill (fill m d k f) (d + BitVec.ofNat w k) n (fun i => f (k + i)) = fill m d (k + n) f := by
  funext a
  have below := (a - d).isLt
  simp only [fill, toNat_sub_add a d small]
  generalize (a - d).toNat = i at *
  by_cases first : i < k
  · rw [if_neg (Nat.not_le.2 first), if_neg (by omega), if_pos first, if_pos (by omega)]
  · rw [if_pos (Nat.not_lt.1 first), if_neg first]
    by_cases second : i < k + n
    · rw [if_pos (by omega), if_pos second, Nat.add_sub_cancel' (Nat.not_lt.1 first)]
    · rw [if_neg (by omega), if_neg second]

/-- A store, and the stretch after it. -/
theorem fill_update (small : 1 < 2 ^ w) (fits : n + 1 ≤ 2 ^ w) :
    fill (Function.update m d (f 0)) (d + BitVec.ofNat w 1) n (fun i => f (i + 1)) =
      fill m d (n + 1) f := by
  have joined := fill_add (m := m) (d := d) (f := f) (n := n) small (by omega)
  rw [Nat.add_comm n 1, ← joined, update_eq_fill]
  have first : fill m d 1 (fun _ => f 0) = fill m d 1 f := by
    apply fill_congr
    intro i inside
    obtain rfl : i = 0 := by omega
    rfl
  simp only [first, Nat.add_comm 1]

end Xv6Rpi.Theory
