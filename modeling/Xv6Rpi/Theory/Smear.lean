/-
# Theory.Smear -- filling a word below its highest bit

`x | x >> 1`, then `| >> 2`, `| >> 4` and so on, copies every bit of a word to the places
below it.  `Smeared v r x` says how far that has come: a bit of `x` is set when one of the `r`
bits of `v` from there on is.  Each round adds up to `r`; once `r` covers the word, `x` is one
less than the power of two above `v`.
-/
import Mathlib.Algebra.Group.Nat.Defs
import Mathlib.Data.Nat.Size
import Xv6Rpi.Theory.Bits

namespace Xv6Rpi.Theory

set_option autoImplicit false

variable {w : Nat}

/-- Each bit of `v` has been copied to the `r - 1` places below it. -/
def Smeared (v : BitVec w) (r : Nat) (x : BitVec w) : Prop :=
  ∀ i, x.getLsbD i = true ↔ ∃ j, i ≤ j ∧ j < i + r ∧ v.getLsbD j = true

theorem Smeared.one (v : BitVec w) : Smeared v 1 v := by
  intro i
  constructor
  · intro set
    exact ⟨i, Nat.le_refl i, Nat.lt_succ_self i, set⟩
  · rintro ⟨j, low, high, set⟩
    obtain rfl : j = i := by omega
    exact set

/-- **One round.** -/
theorem Smeared.round {v x : BitVec w} {r : Nat} (smeared : Smeared v r x) (s : Nat) (le : s ≤ r) :
    Smeared v (s + r) (x ||| x >>> s) := by
  intro i
  rw [BitVec.getLsbD_or, BitVec.getLsbD_ushiftRight, Bool.or_eq_true, smeared i, smeared (s + i)]
  constructor
  · rintro (⟨j, low, high, set⟩ | ⟨j, low, high, set⟩)
    · exact ⟨j, low, by omega, set⟩
    · exact ⟨j, by omega, by omega, set⟩
  · rintro ⟨j, low, high, set⟩
    by_cases near : j < i + r
    · exact Or.inl ⟨j, low, near, set⟩
    · exact Or.inr ⟨j, by omega, by omega, set⟩

/-- Some bit from `i` on is set when the number is large enough for it. -/
theorem exists_getLsbD_iff (v : BitVec w) (i : Nat) :
    (∃ j, i ≤ j ∧ v.getLsbD j = true) ↔ 2 ^ i ≤ v.toNat := by
  simp only [← BitVec.testBit_toNat]
  constructor
  · rintro ⟨j, le, set⟩
    exact Nat.le_trans (Nat.pow_le_pow_right Nat.zero_lt_two le) (Nat.ge_two_pow_of_testBit set)
  · intro large
    obtain ⟨j, le, set⟩ := Nat.exists_ge_and_testBit_of_ge_two_pow large
    exact ⟨j, le, set⟩

/-- **A word smeared all the way** has all bits below the size of `v`. -/
theorem Smeared.toNat_succ {v x : BitVec w} {r : Nat} (smeared : Smeared v r x) (covers : w ≤ r) :
    x.toNat + 1 = 2 ^ v.toNat.size := by
  have bits : ∀ i, x.toNat.testBit i = (2 ^ v.toNat.size - 1).testBit i := by
    intro i
    rw [BitVec.testBit_toNat, Nat.testBit_two_pow_sub_one, Bool.eq_iff_iff, smeared i,
      decide_eq_true_eq, Nat.lt_size, ← exists_getLsbD_iff]
    constructor
    · rintro ⟨j, low, -, set⟩
      exact ⟨j, low, set⟩
    · rintro ⟨j, low, set⟩
      have inside := BitVec.lt_of_getLsbD set
      exact ⟨j, low, by omega, set⟩
  have same : x.toNat = 2 ^ v.toNat.size - 1 := Nat.eq_of_testBit_eq bits
  have positive := Nat.two_pow_pos v.toNat.size
  omega

end Xv6Rpi.Theory
