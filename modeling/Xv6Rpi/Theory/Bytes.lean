/-
# Theory.Bytes -- fixed-size byte blocks with little-endian fields and bits

A block of `n` bytes is a function on `Fin n`.  Everything that stores into a
block is `paint` (replace one range of bytes by a function of the offset in it),
so one reading lemma, `get_paint`, carries all field lemmas:

* `u16`, `u32`: little-endian fields, read from the bytes at an offset;
* `byteAt`: the bytes such a field is written as (`u16_of_bytes`, `u32_of_bytes`);
* `bit`, `setBit`, `clearBit`: a block read as a bitmap, eight bits a byte.
-/
import Xv6Rpi.Theory.Bits
import Mathlib.Data.List.GetD
import Mathlib.Tactic.Ring

namespace Xv6Rpi.Theory

set_option autoImplicit false

abbrev Byte : Type := BitVec 8

/-- A block of `n` bytes. -/
abbrev Bytes (n : Nat) : Type := Fin n → Byte

namespace Bytes

variable {n : Nat}

/-- The byte at an offset; zero past the end. -/
def get (b : Bytes n) (i : Nat) : Byte := if h : i < n then b ⟨i, h⟩ else 0

/-- Replace the `len` bytes from `off` on by `f 0 .. f (len - 1)`. -/
def paint (b : Bytes n) (off len : Nat) (f : Nat → Byte) : Bytes n := fun j =>
  if off ≤ j.val ∧ j.val < off + len then f (j.val - off) else b j

/-- Copy a list of bytes into the block at `off`. -/
def splice (b : Bytes n) (off : Nat) (src : List Byte) : Bytes n :=
  b.paint off src.length fun i => src.getD i 0

/-- The `len` bytes from `off` on. -/
def slice (b : Bytes n) (off len : Nat) : List Byte := (List.range len).map fun i => b.get (off + i)

def zero : Bytes n := fun _ => 0

theorem ext_get {b c : Bytes n} (same : ∀ i, i < n → b.get i = c.get i) : b = c := by
  funext j
  have := same j.val j.isLt
  simpa [get] using this

@[simp] theorem get_zero (i : Nat) : (zero : Bytes n).get i = 0 := by
  unfold get zero
  split <;> rfl

theorem get_paint (b : Bytes n) (off len : Nat) (f : Nat → Byte) (i : Nat) :
    (b.paint off len f).get i =
      if off ≤ i ∧ i < off + len ∧ i < n then f (i - off) else b.get i := by
  unfold get paint
  by_cases inside : i < n <;> simp [inside]

theorem get_paint_of_mem {b : Bytes n} {off len : Nat} {f : Nat → Byte} {i : Nat}
    (lower : off ≤ i) (upper : i < off + len) (inside : i < n) :
    (b.paint off len f).get i = f (i - off) := by
  rw [get_paint, if_pos ⟨lower, upper, inside⟩]

theorem get_paint_of_not_mem {b : Bytes n} {off len : Nat} {f : Nat → Byte} {i : Nat}
    (outside : i < off ∨ off + len ≤ i) : (b.paint off len f).get i = b.get i := by
  rw [get_paint, if_neg (by omega)]

@[simp] theorem length_slice (b : Bytes n) (off len : Nat) : (b.slice off len).length = len := by
  simp [slice]

/-! ## Little-endian fields -/

/-- Byte `k` of a number, least significant first. -/
def byteAt (x k : Nat) : Byte := BitVec.ofNat 8 (x / 256 ^ k)

@[simp] theorem toNat_byteAt (x k : Nat) : (byteAt x k).toNat = x / 256 ^ k % 256 := by
  simp [byteAt]

/-- The 16-bit field at `off`. -/
def u16 (b : Bytes n) (off : Nat) : Nat := (b.get off).toNat + 256 * (b.get (off + 1)).toNat

/-- The 32-bit field at `off`. -/
def u32 (b : Bytes n) (off : Nat) : Nat :=
  (b.get off).toNat + 256 * ((b.get (off + 1)).toNat +
    256 * ((b.get (off + 2)).toNat + 256 * (b.get (off + 3)).toNat))

theorem u32_lt (b : Bytes n) (off : Nat) : b.u32 off < 4294967296 := by
  have b0 := (b.get off).isLt
  have b1 := (b.get (off + 1)).isLt
  have b2 := (b.get (off + 2)).isLt
  have b3 := (b.get (off + 3)).isLt
  unfold u32
  omega

theorem u16_congr {b c : Bytes n} {off : Nat} (same : ∀ k, k < 2 → b.get (off + k) = c.get (off + k)) :
    b.u16 off = c.u16 off := by
  have s0 := same 0 (by omega)
  have s1 := same 1 (by omega)
  simp only [Nat.add_zero] at s0
  simp only [u16, s0, s1]

theorem u32_congr {b c : Bytes n} {off : Nat} (same : ∀ k, k < 4 → b.get (off + k) = c.get (off + k)) :
    b.u32 off = c.u32 off := by
  have s0 := same 0 (by omega)
  have s1 := same 1 (by omega)
  have s2 := same 2 (by omega)
  have s3 := same 3 (by omega)
  simp only [Nat.add_zero] at s0
  simp only [u32, s0, s1, s2, s3]

theorem u16_of_bytes {b : Bytes n} {off x : Nat} (small : x < 65536)
    (bytes : ∀ k, k < 2 → b.get (off + k) = byteAt x k) : b.u16 off = x := by
  have b0 := bytes 0 (by omega)
  have b1 := bytes 1 (by omega)
  simp only [Nat.add_zero] at b0
  simp only [u16, b0, b1, toNat_byteAt]
  omega

theorem u32_of_bytes {b : Bytes n} {off x : Nat} (small : x < 4294967296)
    (bytes : ∀ k, k < 4 → b.get (off + k) = byteAt x k) : b.u32 off = x := by
  have b0 := bytes 0 (by omega)
  have b1 := bytes 1 (by omega)
  have b2 := bytes 2 (by omega)
  have b3 := bytes 3 (by omega)
  simp only [Nat.add_zero] at b0
  simp only [u32, b0, b1, b2, b3, toNat_byteAt]
  omega

/-- Store a 32-bit field at `off`. -/
def put32 (b : Bytes n) (off x : Nat) : Bytes n := b.paint off 4 (byteAt x)

theorem u32_put32_same {b : Bytes n} {off x : Nat} (small : x < 4294967296) (fits : off + 4 ≤ n) :
    (b.put32 off x).u32 off = x := by
  refine u32_of_bytes small fun k hk => ?_
  rw [put32, get_paint_of_mem (by omega) (by omega) (by omega)]
  congr 1
  omega

theorem get_put32_of_ne {b : Bytes n} {off x i : Nat} (outside : i < off ∨ off + 4 ≤ i) :
    (b.put32 off x).get i = b.get i :=
  get_paint_of_not_mem outside

theorem u32_put32_of_ne {b : Bytes n} {off off' x : Nat} (apart : off' + 4 ≤ off ∨ off + 4 ≤ off') :
    (b.put32 off x).u32 off' = b.u32 off' :=
  u32_congr fun k hk => get_put32_of_ne (by omega)

/-! ## Bitmaps -/

/-- Bit `i` of the block, bit `i % 8` of byte `i / 8`. -/
def bit (b : Bytes n) (i : Nat) : Bool := (b.get (i / 8)).getLsbD (i % 8)

/-- The mask `1 << (i % 8)`. -/
def mask (i : Nat) : Byte := bitMask 8 (i % 8)

def setBit (b : Bytes n) (i : Nat) : Bytes n := b.paint (i / 8) 1 fun _ => b.get (i / 8) ||| mask i

def clearBit (b : Bytes n) (i : Nat) : Bytes n :=
  b.paint (i / 8) 1 fun _ => b.get (i / 8) &&& ~~~mask i

/-- The test the code makes of a bit: the byte masked is zero. -/
theorem masked_eq_zero_iff (b : Bytes n) (i : Nat) :
    b.get (i / 8) &&& mask i = 0 ↔ b.bit i = false :=
  and_bitMask_eq_zero_iff _ (Nat.mod_lt i (by omega))

theorem get_setBit_of_ne {b : Bytes n} {i k : Nat} (ne : k ≠ i / 8) :
    (b.setBit i).get k = b.get k :=
  get_paint_of_not_mem (by omega)

theorem bit_setBit {b : Bytes n} {i j : Nat} (inside : i < 8 * n) :
    (b.setBit i).bit j = (decide (j = i) || b.bit j) := by
  have jBound : j % 8 < 8 := Nat.mod_lt _ (by omega)
  unfold bit
  by_cases sameByte : j / 8 = i / 8
  · rw [sameByte, setBit, get_paint_of_mem (by omega) (by omega) (by omega), mask,
      getLsbD_or_bitMask _ jBound]
    have : j % 8 = i % 8 ↔ j = i := by omega
    simp [this]
  · rw [get_setBit_of_ne sameByte]
    have ne : j ≠ i := by rintro rfl; exact sameByte rfl
    simp [ne]

theorem bit_clearBit {b : Bytes n} {i j : Nat} (inside : i < 8 * n) :
    (b.clearBit i).bit j = (!decide (j = i) && b.bit j) := by
  have jBound : j % 8 < 8 := Nat.mod_lt _ (by omega)
  unfold bit
  by_cases sameByte : j / 8 = i / 8
  · rw [sameByte, clearBit, get_paint_of_mem (by omega) (by omega) (by omega), mask,
      getLsbD_and_not_bitMask _ jBound]
    have : j % 8 = i % 8 ↔ j = i := by omega
    simp [this]
  · rw [clearBit, get_paint_of_not_mem (by omega)]
    have ne : j ≠ i := by rintro rfl; exact sameByte rfl
    simp [ne]

end Bytes

end Xv6Rpi.Theory
