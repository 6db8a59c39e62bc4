/-
# Theory.Bits -- one-bit masks

Code that keeps flags in a machine word tests, sets and clears bit `i` with the
mask `1 << i`.  These are the three operations as facts about `getLsbD`.
-/
import Mathlib.Tactic.Common

namespace Xv6Rpi.Theory

set_option autoImplicit false

/-- The mask `1 << i`. -/
def bitMask (w i : Nat) : BitVec w := 1#w <<< i

variable {w i k : Nat}

theorem getLsbD_bitMask (small : k < w) : (bitMask w i).getLsbD k = decide (k = i) := by
  unfold bitMask
  rw [BitVec.getLsbD_shiftLeft, BitVec.getLsbD_one, Bool.eq_iff_iff]
  simp only [small, decide_true, Bool.true_and, Bool.and_eq_true, Bool.not_eq_true',
    decide_eq_false_iff_not, decide_eq_true_eq]
  omega

/-- The test of a bit: the word masked is zero. -/
theorem and_bitMask_eq_zero_iff (x : BitVec w) (inside : i < w) :
    x &&& bitMask w i = 0 ↔ x.getLsbD i = false := by
  constructor
  · intro none_
    have at_ := congrArg (fun y : BitVec w => y.getLsbD i) none_
    simpa [BitVec.getLsbD_and, getLsbD_bitMask inside] using at_
  · intro clear
    refine BitVec.eq_of_getLsbD_eq fun k hk => ?_
    rw [BitVec.getLsbD_and, getLsbD_bitMask hk]
    by_cases same : k = i
    · simp [same, clear]
    · simp [same]

theorem getLsbD_or_bitMask (x : BitVec w) (small : k < w) :
    (x ||| bitMask w i).getLsbD k = (decide (k = i) || x.getLsbD k) := by
  rw [BitVec.getLsbD_or, getLsbD_bitMask small, Bool.or_comm]

theorem getLsbD_and_not_bitMask (x : BitVec w) (small : k < w) :
    (x &&& ~~~bitMask w i).getLsbD k = (!decide (k = i) && x.getLsbD k) := by
  rw [BitVec.getLsbD_and, BitVec.getLsbD_not, getLsbD_bitMask small, Bool.and_comm]
  simp [small]

end Xv6Rpi.Theory
