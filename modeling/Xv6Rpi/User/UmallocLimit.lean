/-
# User.UmallocLimit -- how much may be asked of malloc

`malloc` counts in units of 8 bytes, and `morecore` turns the units back into bytes, both in 32
bits; `sbrk` then takes what it is given for an `int`.  Up to `MAXBYTES` nothing is lost on the way.
Above, `sbrk` is asked for a negative amount, or for nothing at all, or the units wrap to one.
-/
import Xv6Rpi.User.UmallocRun

namespace Xv6Rpi.User.Umalloc

open Theory Kernel

set_option autoImplicit false

namespace Heap

/-- The units that `morecore` records in the new header. -/
def recorded (nu : Nat) : Nat := if nu < 4096 then 4096 else nu

/-- The argument of `sbrk`, in a register. -/
def asked (nu : Nat) : BitVec 32 := BitVec.ofNat 32 (recorded nu * 8)

/-- What is asked for, read as an `int`, is what is recorded. -/
theorem asked_units {nbytes : Nat} (fits : nbytes ≤ MAXBYTES) :
    (asked (units nbytes)).toInt = 8 * recorded (units nbytes) := by
  have fits : nbytes ≤ 2147483632 := fits
  have few : units nbytes * 8 < 2147483648 := by
    rw [units]
    omega
  have few : recorded (units nbytes) * 8 < 2147483648 := by
    rw [recorded]
    split <;> omega
  have isNat : (asked (units nbytes)).toNat = recorded (units nbytes) * 8 :=
    Nat.mod_eq_of_lt (by omega)
  rw [BitVec.toInt_eq_toNat_of_lt (by omega), isNat]
  push_cast
  omega

/-- Beyond the limit, units that do not wrap are too many for an `int`. -/
theorem asked_units_lt {nbytes : Nat} (beyond : MAXBYTES < nbytes) (noWrap : nbytes + 7 < 4294967296) :
    (asked (units nbytes)).toInt < 8 * recorded (units nbytes) := by
  have isUnits : units nbytes = (nbytes + 7) / 8 + 1 := by rw [units, Nat.mod_eq_of_lt noWrap]
  have beyond : 2147483632 < nbytes := beyond
  have many : 2147483648 ≤ recorded (units nbytes) * 8 := by
    rw [recorded, isUnits]
    split <;> omega
  have small : (asked (units nbytes)).toInt < 2147483648 := BitVec.toInt_lt
  omega

end Heap

/-- What a call of `malloc` promises: if it has to ask `sbrk`, it asks for all that it is going to
record; and it returns null, or a block with the bytes that were asked for, in memory from `sbrk`. -/
structure Delivers (base nbytes : Nat) (s : Prog) (offers : List (Option Nat)) : Prop where
  asks : 8 * (Heap.recorded (Heap.units nbytes) : Int) ≤ (Heap.asked (Heap.units nbytes)).toInt
  returns : ∃ h ap, Heap.malloc base { s.heap with offers := offers } nbytes = some (h, ap) ∧
    (ap ≠ 0 → ap = (h.block ap).start + 8 ∧ nbytes + 8 ≤ (h.block ap).len ∧
      ∀ x, (h.block ap).Has x → ∃ r ∈ h.mem, r.Has x)

theorem Delivers.of_fits {base nbytes : Nat} {s : Prog} (sound : s.Sound base) (pos : 0 < base)
    (fits : nbytes ≤ MAXBYTES) (offers : List (Option Nat)) : Delivers base nbytes s offers := by
  refine ⟨(Heap.asked_units fits).ge, ?_⟩
  obtain ⟨h, ap, result, -, onBlock⟩ := Prog.sound_malloc sound pos fits offers
  refine ⟨h, ap, result, fun some_ => ?_⟩
  obtain ⟨F, good⟩ := (onBlock some_).good
  have isLive : (ap, nbytes) ∈ (⟨h, (ap, nbytes) :: s.live⟩ : Prog).live := List.mem_cons_self
  obtain ⟨start, large⟩ := good.large _ isLive
  exact ⟨start, large, good.inside (ap, nbytes) isLive⟩

/-- The largest requests wrap to one unit, which has room for nothing. -/
theorem malloc_wraps {nbytes : Nat} (wraps : 4294967296 ≤ nbytes + 7) (small : nbytes < 4294967296) :
    ∃ h ap, Heap.malloc 4088 { (Prog.start 4088 (fun _ => 0) fun _ => 0).heap with offers := [some 8192] }
      nbytes = some (h, ap) ∧ ap ≠ 0 ∧ (h.block ap).len = 8 := by
  have one : Heap.units nbytes = Heap.units 0 := by
    simp only [Heap.units]
    omega
  have same : ∀ h : Heap, Heap.malloc 4088 h nbytes = Heap.malloc 4088 h 0 := fun h => by
    rw [Heap.malloc, Heap.malloc, one]
  have shown : (Heap.malloc 4088 { (Prog.start 4088 (fun _ => 0) fun _ => 0).heap with
      offers := [some 8192] } 0).map (fun r => (r.2, (r.1.block r.2).len)) = some (40960, 8) := by
    decide +kernel
  obtain ⟨⟨h, ap⟩, result, isPair⟩ := Option.map_eq_some_iff.1 shown
  obtain ⟨isAp, len⟩ := Prod.mk.inj isPair
  refine ⟨h, ap, ?_, fun null => absurd (isAp.symm.trans null) (by decide), len⟩
  rw [same]
  exact result

/-- **`malloc` delivers exactly the requests up to `MAXBYTES`**: in every sound state and whatever
`sbrk` answers, and for no larger request. -/
theorem malloc_delivers_iff (nbytes : BitVec 32) :
    (∀ base s, 0 < base → s.Sound base → ∀ offers, Delivers base nbytes.toNat s offers) ↔
      nbytes.toNat ≤ MAXBYTES := by
  constructor
  · intro delivers
    by_contra beyond
    have beyond := Nat.not_le.1 beyond
    have sound := Prog.sound_start 4088 (fun _ => 0) fun _ => 0
    obtain ⟨asks, h, ap, result, onBlock⟩ := delivers 4088 _ (by decide) sound [some 8192]
    by_cases noWrap : nbytes.toNat + 7 < 4294967296
    · exact absurd asks (not_le.2 (Heap.asked_units_lt beyond noWrap))
    · obtain ⟨h', ap', result', some_, tiny⟩ := malloc_wraps (Nat.not_lt.1 noWrap) nbytes.isLt
      obtain ⟨rfl, rfl⟩ := Prod.mk.inj (Option.some.inj (result.symm.trans result'))
      have large := (onBlock some_).2.1
      omega
  · intro fits base s pos sound offers
    exact .of_fits sound pos fits offers

/-- A block without room for a byte, for a request of almost 4 GB; a request of 2 GB for which
`sbrk` is asked to shrink the process; and one for which it is asked for nothing. -/
theorem malloc_underallocates :
    (∃ h ap, Heap.malloc 4088 { (Prog.start 4088 (fun _ => 0) fun _ => 0).heap with
      offers := [some 8192] } 4294967295 = some (h, ap) ∧ ap ≠ 0 ∧ (h.block ap).len = 8) ∧
    (Heap.asked (Heap.units 2147483633)).toInt = -2147483648 ∧
    (Heap.asked (Heap.units 4294967288)).toInt = 0 ∧
    Heap.recorded (Heap.units 4294967288) = 536870912 :=
  ⟨malloc_wraps (by decide) (by decide), by decide, by decide, by decide⟩

end Xv6Rpi.User.Umalloc
