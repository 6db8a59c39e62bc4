/-
# Kernel.BuddyOrder -- the order for a size

`get_order` of `buddy.c`.  The size less one is smeared and one is added, which gives the power of
two at or above it; a search for the lowest bit then gives its logarithm.  For the size 0, and for
sizes over `2^31`, the sum wraps to 0 and the search finds nothing.

`getOrder_eq` says what that comes to for every 32-bit word.  `getOrder_ceiling` reads off that the
order is the least one with room, and what `kmalloc` then returns.
-/
import Xv6Rpi.Kernel.BuddyHeap
import Xv6Rpi.Theory.Smear

namespace Xv6Rpi.Kernel

open Theory

set_option autoImplicit false

/-! ## The code -/

/-- The panic of `get_order`. -/
inductive OrderPanic where
  | tooBig
  deriving DecidableEq, Repr

/-- Round up power of 2, then get the order. -/
def getOrder (v : BitVec 32) : Except OrderPanic Nat :=
  let v := v - 1
  let v := v ||| v >>> 1
  let v := v ||| v >>> 2
  let v := v ||| v >>> 4
  let v := v ||| v >>> 8
  let v := v ||| v >>> 16
  let v := v + 1
  -- the counter is 32 when the loop ends by itself
  let ord := ((List.range 32).find? fun ord => v &&& bitMask 32 ord != 0).getD 32
  if ord < MIN_ORD then .ok MIN_ORD
  else if MAX_ORD < ord then .error .tooBig
  else .ok ord

/-! ## The power of two -/

/-- The bits of the power of two after a word that is all ones up to its highest bit. -/
theorem getLsbD_add_one {x : BitVec 32} {s : Nat} (ones : x.toNat + 1 = 2 ^ s) {k : Nat} (small : k < 32) :
    (x + 1).getLsbD k = decide (k = s) := by
  have sum : x + 1 = BitVec.ofNat 32 (2 ^ s) := by
    rw [← ones, BitVec.ofNat_add, BitVec.ofNat_toNat, BitVec.setWidth_eq]
    rfl
  rw [sum, BitVec.getLsbD_ofNat, decide_eq_true small, Bool.true_and, Nat.testBit_two_pow]
  simp [eq_comm]

/-- The search stops at the only bit, or at 32. -/
theorem find_bit {x : BitVec 32} {s : Nat} (small : s ≤ 32)
    (only : ∀ k < 32, x.getLsbD k = decide (k = s)) :
    ((List.range 32).find? fun ord => x &&& bitMask 32 ord != 0).getD 32 = s := by
  have test : ∀ k < 32, (x &&& bitMask 32 k != 0) = decide (k = s) := by
    intro k inside
    rw [← only k inside, Bool.eq_iff_iff, bne_iff_ne, Ne, and_bitMask_eq_zero_iff x inside,
      Bool.not_eq_false]
  by_cases inside : s < 32
  · have found : (List.range 32).find? (fun ord => x &&& bitMask 32 ord != 0) = some s := by
      rw [List.find?_range_eq_some]
      refine ⟨?_, List.mem_range.2 inside, fun k below => ?_⟩
      · rw [test s inside]
        simp
      · rw [test k (below.trans inside)]
        simpa using below.ne
    rw [found, Option.getD_some]
  · have none_ : (List.range 32).find? (fun ord => x &&& bitMask 32 ord != 0) = none := by
      rw [List.find?_eq_none]
      intro k member
      have inRange := List.mem_range.1 member
      rw [test k inRange]
      simp
      omega
    rw [none_, Option.getD_none]
    omega

/-- **`get_order` in one line**: from the size in bits of what is one less. -/
theorem getOrder_eq (v : BitVec 32) :
    getOrder v = if MAX_ORD < (v - 1).toNat.size then .error .tooBig
      else .ok (max MIN_ORD (v - 1).toNat.size) := by
  have smeared := (((((Smeared.one (v - 1)).round 1 le_rfl).round 2 le_rfl).round 4 le_rfl).round 8
    le_rfl).round 16 le_rfl
  have ones := smeared.toNat_succ (by decide)
  have small : (v - 1).toNat.size ≤ 32 := Nat.size_le.2 (v - 1).isLt
  have searched := find_bit small fun k inside => getLsbD_add_one ones inside
  unfold getOrder
  simp only [searched]
  generalize (v - 1).toNat.size = s at *
  by_cases low : s < MIN_ORD
  · have notBig : ¬ MAX_ORD < s := by
      show ¬ 12 < s
      have low : s < 6 := low
      omega
    rw [if_pos low, if_neg notBig, max_eq_left low.le]
  · rw [if_neg low, max_eq_right (Nat.not_lt.1 low)]

/-- Room for `v` bytes, by the size in bits. -/
theorem size_le_iff {v : BitVec 32} (pos : 1 ≤ v.toNat) (k : Nat) :
    (v - 1).toNat.size ≤ k ↔ v.toNat ≤ 2 ^ k := by
  have less : (v - 1).toNat = v.toNat - 1 := by
    rw [BitVec.toNat_sub]
    have := v.isLt
    show (2 ^ 32 - 1 + v.toNat) % 2 ^ 32 = _
    omega
  rw [Nat.size_le, less]
  omega

/-- A size in range: the least order with room for it. -/
theorem getOrder_least {v : BitVec 32} (pos : 1 ≤ v.toNat) (le : v.toNat ≤ 2 ^ MAX_ORD) :
    ∃ k, getOrder v = .ok k ∧ k ≤ MAX_ORD ∧ IsLeast {k | MIN_ORD ≤ k ∧ v.toNat ≤ 2 ^ k} k := by
  have small := (size_le_iff pos MAX_ORD).2 le
  refine ⟨max MIN_ORD (v - 1).toNat.size, ?_, max_le (by decide) small, ⟨le_max_left _ _, ?_⟩, ?_⟩
  · rw [getOrder_eq, if_neg (Nat.not_lt.2 small)]
  · exact (size_le_iff pos _).1 (le_max_right _ _)
  · rintro k ⟨low, room⟩
    exact max_le low ((size_le_iff pos k).2 room)

/-- Any other size. -/
theorem getOrder_panics {v : BitVec 32} (out : ¬ (1 ≤ v.toNat ∧ v.toNat ≤ 2 ^ MAX_ORD)) :
    getOrder v = .error .tooBig := by
  rw [getOrder_eq, if_pos]
  by_cases pos : 1 ≤ v.toNat
  · rw [← Nat.not_le, size_le_iff pos]
    exact fun le => out ⟨pos, le⟩
  · -- 0 less one is all ones
    obtain rfl : v = 0 := BitVec.eq_of_toNat_eq (by show v.toNat = 0; omega)
    decide

/-! ## What `kmalloc` returns -/

/-- **The order of a size is the ceiling logarithm.**  For 1 to `2^MAX_ORD` it is the least order,
from `MIN_ORD` on, of a block with room; any other word panics.  In every run of the allocator,
`kmalloc` of the order returns an address from which that many bytes lie in the heap, clear of all
live blocks, or `NULL` when no aligned block of the order is clear of them. -/
theorem getOrder_ceiling :
    (∀ v : BitVec 32, 1 ≤ v.toNat → v.toNat ≤ 2 ^ MAX_ORD →
      ∃ k, getOrder v = .ok k ∧ IsLeast {k | MIN_ORD ≤ k ∧ v.toNat ≤ 2 ^ k} k) ∧
    (∀ v : BitVec 32, ¬ (1 ≤ v.toNat ∧ v.toNat ≤ 2 ^ MAX_ORD) → getOrder v = .error .tooBig) ∧
    ∀ vstart vend, Region vstart vend → ∀ km, ∃ km0, Kmem.kmemInit2 vstart vend km = .ok km0 ∧
      ∀ calls c seen, Machine.run Client.step ⟨km0, ∅⟩ calls = some (c, seen) →
      ∀ v : BitVec 32, ∀ k, getOrder v = .ok k → ∃ mem km', c.km.kmalloc k = .ok (mem, km') ∧
        (mem = 0 ∧ (∀ start, ¬ c.Room k start) ∨
          mem ≠ 0 ∧ c.km.startHeap ≤ mem ∧ mem + v.toNat ≤ c.km.end_ ∧
            ∀ x ∈ c.live, ∀ i < v.toNat, ¬ Covers x (mem + i)) := by
  refine ⟨fun v pos le => ?_, fun v => getOrder_panics, fun vstart vend region km => ?_⟩
  · obtain ⟨k, order, -, least⟩ := getOrder_least pos le
    exact ⟨k, order, least⟩
  · obtain ⟨N, P, km0, ready, heap, -, -⟩ := kmemInit2_spec region km
    refine ⟨km0, ready, fun calls c seen ran v k order => ?_⟩
    obtain ⟨inv, -⟩ := (Client.Inv.start heap).run ran
    have inRange : 1 ≤ v.toNat ∧ v.toNat ≤ 2 ^ MAX_ORD := by
      by_contra out
      rw [getOrder_panics out] at order
      cases order
    obtain ⟨k', order', high, ⟨low, room⟩, -⟩ := getOrder_least inRange.1 inRange.2
    obtain rfl : k = k' := Except.ok.inj (order.symm.trans order')
    obtain ⟨mem, km', got, ⟨null, none_⟩ | ⟨nonzero, -, above, below, apart⟩⟩ :=
      inv.kmalloc_room low high
    · exact ⟨mem, km', got, Or.inl ⟨null, none_⟩⟩
    · refine ⟨mem, km', got, Or.inr ⟨nonzero, above, by omega, fun x live i inside covers => ?_⟩⟩
      exact apart x live (mem + i) ⟨⟨Nat.le_add_right mem i, by show mem + i < mem + 2 ^ k; omega⟩, covers⟩

/-- A pipe, in the heap of `main`: 580 bytes, from a block of order 10. -/
theorem getOrder_ceiling_pipe :
    ∃ km0 mem km', Kmem.kmemInit2 (KERNBASE + INIT_KERNMAP) (KERNBASE + PHYSTOP)
        noHeap = .ok km0 ∧ getOrder 580 = .ok 10 ∧
      IsLeast {k | MIN_ORD ≤ k ∧ 580 ≤ 2 ^ k} 10 ∧ km0.kmalloc 10 = .ok (mem, km') ∧
      (mem = 0 ∨ mem + 580 ≤ km0.end_) ∧ getOrder 0 = .error .tooBig := by
  obtain ⟨least, panics, runs⟩ := getOrder_ceiling
  obtain ⟨k, order, isLeast⟩ := least 580 (by decide) (by decide)
  have ten : getOrder 580 = .ok 10 := by decide
  obtain rfl : k = 10 := Except.ok.inj (order.symm.trans ten)
  obtain ⟨km0, ready, allocates⟩ := runs _ _ region_main noHeap
  obtain ⟨mem, km', got, result⟩ := allocates [] ⟨km0, ∅⟩ [] rfl 580 10 ten
  refine ⟨km0, mem, km', ready, ten, isLeast, got, ?_, panics 0 (by decide)⟩
  exact result.imp (fun null => null.1) fun some_ => some_.2.2.1

end Xv6Rpi.Kernel
