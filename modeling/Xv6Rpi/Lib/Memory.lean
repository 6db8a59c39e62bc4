/-
# Lib.Memory -- moving and setting memory

`memmove` and `memset` of `lib/string.c`, and the `memmove` that programs get from `ulib.c`, over a
memory of 32-bit addresses.  Pointers wrap; the loops run as often as their counters say.

Each loop has a closed form.  A forward copy onto the bytes still to be read repeats the first
`dst - src` of them (`copyUp_eq`), a backward copy is a forward one in a mirror.  The kernel chooses
the direction so that nothing is repeated; the library of the programs always goes forward, which
`ulib_memmove_iff` compares with the kernel byte by byte.
-/
import Mathlib.Data.BitVec
import Mathlib.Tactic.Abel
import Xv6Rpi.Theory.Bytes
import Xv6Rpi.Theory.Window

namespace Xv6Rpi.Lib

open Theory

set_option autoImplicit false

/-! ## The code -/

abbrev Addr : Type := BitVec 32

abbrev Ram : Type := Addr → Byte

/-- `while(n-- > 0) *d++ = *s++;`, whatever the addresses are. -/
def copyUp {A : Type} [DecidableEq A] [Add A] [OfNat A 1] : Nat → A → A → (A → Byte) → A → Byte
  | 0, _, _, m => m
  | n + 1, d, s, m => copyUp n (d + 1) (s + 1) (Function.update m d (m s))

/-- `while(n-- > 0) *--d = *--s;` -/
def copyDown : Nat → Addr → Addr → Ram → Ram
  | 0, _, _, m => m
  | n + 1, d, s, m => copyDown n (d - 1) (s - 1) (Function.update m (d - 1) (m (s - 1)))

/-- `memmove` of the kernel, with the address it returns. -/
def memmove (dst src : Addr) (n : BitVec 32) (m : Ram) : Addr × Ram :=
  if src < dst ∧ dst < src + n then (dst, copyDown n.toNat (dst + n) (src + n) m)
  else (dst, copyUp n.toNat dst src m)

/-- `memmove` of `ulib.c`; its `n` is signed. -/
def Ulib.memmove (vdst vsrc : Addr) (n : BitVec 32) (m : Ram) : Addr × Ram :=
  (vdst, copyUp n.toInt.toNat vdst vsrc m)

/-- A store of a word, the low byte first; an address that is not a multiple of 4 faults. -/
def Ram.putWord (m : Ram) (p : Addr) (val : BitVec 32) : Option Ram :=
  if p.toNat % 4 = 0 then
    some (Function.update (Function.update (Function.update (Function.update m
      p (val.extractLsb' 0 8)) (p + 1) (val.extractLsb' 8 8)) (p + 2) (val.extractLsb' 16 8))
      (p + 3) (val.extractLsb' 24 8))
  else none

/-- Set bytes before a whole word: `for (; (n > 0) && ((uint)p % 4); n--, p++) *p = c;` -/
def setBefore (c : Byte) : Nat → Addr → Ram → Nat × Addr × Ram
  | 0, p, m => (0, p, m)
  | n + 1, p, m =>
    if p.toNat % 4 ≠ 0 then setBefore c n (p + 1) (Function.update m p c) else (n + 1, p, m)

/-- Set memory 4 bytes a time: `for (; n >= 4; n -= 4, p4++) *p4 = val;` -/
def setWords (val : BitVec 32) : Nat → Addr → Ram → Option (Nat × Addr × Ram)
  | n + 4, p, m =>
    match m.putWord p val with
    | none => none
    | some m' => setWords val n (p + 4) m'
  | n, p, m => some (n, p, m)

/-- Set the leftover one byte a time: `for (; n > 0; n--, p++) *p = c;` -/
def setLeftover (c : Byte) : Nat → Addr → Ram → Ram
  | 0, _, m => m
  | n + 1, p, m => setLeftover c n (p + 1) (Function.update m p c)

/-- The word that `memset` stores: `(c << 24) | (c << 16) | (c << 8) | c`. -/
def spread (c : Byte) : BitVec 32 :=
  c.setWidth 32 <<< 24 ||| c.setWidth 32 <<< 16 ||| c.setWidth 32 <<< 8 ||| c.setWidth 32

/-- `memset` of the kernel; a count below 0 is as good as none. -/
def memset (dst : Addr) (v n : BitVec 32) (m : Ram) : Option (Addr × Ram) :=
  let c : Byte := (v &&& 0xff).setWidth 8
  let (n, p, m) := setBefore c n.toInt.toNat dst m
  match setWords (spread c) n p m with
  | none => none
  | some (n, p, m) => some (dst, setLeftover c n p m)

/-! ## Copying -/

variable {m : Ram} {d s dst src : Addr} {n : Nat}

/-- The byte a forward copy reads next: the one just stored when the copy has come around. -/
theorem update_next {i : Nat} (small : i + 1 < 2 ^ 32) :
    Function.update m d (m s) (s + 1 + BitVec.ofNat 32 (i % (d - s).toNat)) =
      m (s + BitVec.ofNat 32 ((i + 1) % (d - s).toNat)) := by
  have le : i % (d - s).toNat ≤ i := Nat.mod_le _ _
  have address : s + 1 + BitVec.ofNat 32 (i % (d - s).toNat) =
      s + BitVec.ofNat 32 (i % (d - s).toNat + 1) := by
    rw [show (1 : Addr) = BitVec.ofNat 32 1 from rfl, add_ofNat_add, Nat.add_comm 1]
  have around := add_ofNat_eq_iff s d (k := i % (d - s).toNat + 1) (by omega)
  rw [address, ← Nat.mod_add_mod]
  by_cases last : i % (d - s).toNat + 1 = (d - s).toNat
  · rw [around.2 last, Function.update_self, last, Nat.mod_self]
    simp
  · rw [Function.update_of_ne (mt around.1 last)]
    by_cases same : (d - s).toNat = 0
    · rw [same, Nat.mod_zero, Nat.mod_zero]
    · have inside : i % (d - s).toNat < (d - s).toNat := Nat.mod_lt _ (Nat.pos_of_ne_zero same)
      rw [Nat.mod_eq_of_lt (a := i % (d - s).toNat + 1) (by omega)]

/-- **A forward copy** repeats what it has written. -/
theorem copyUp_eq (fits : n ≤ 2 ^ 32) :
    copyUp n d s m = fill m d n fun i => m (s + BitVec.ofNat 32 (i % (d - s).toNat)) := by
  induction n generalizing d s m with
  | zero => rw [copyUp, fill_zero]
  | succ n ih =>
    have distance : d + 1 - (s + 1) = d - s := by bv_omega
    calc copyUp (n + 1) d s m = copyUp n (d + 1) (s + 1) (Function.update m d (m s)) := rfl
      _ = fill (Function.update m d (m s)) (d + 1) n fun i =>
            Function.update m d (m s) (s + 1 + BitVec.ofNat 32 (i % (d - s).toNat)) := by
          rw [ih (by omega), distance]
      _ = fill (Function.update m d (m s)) (d + 1) n fun i =>
            m (s + BitVec.ofNat 32 ((i + 1) % (d - s).toNat)) :=
          fill_congr fun i inside => update_next (by omega)
      _ = fill m d (n + 1) fun i => m (s + BitVec.ofNat 32 (i % (d - s).toNat)) := by
          rw [← fill_update (by decide) fits]
          simp

/-- A backward copy is a forward one in the mirror. -/
theorem copyDown_eq_copyUp (a : Addr) :
    copyDown n d s m a = copyUp n (1 - d) (1 - s) (fun b => m (-b)) (-a) := by
  induction n generalizing d s m with
  | zero => simp [copyDown, copyUp]
  | succ n ih =>
    have step : ∀ x : Addr, 1 - x + 1 = 1 - (x - 1) := by
      intro x
      bv_omega
    have mirror : ∀ x : Addr, -(1 - x) = x - 1 := by
      intro x
      bv_omega
    rw [copyDown, ih, copyUp, step, step, mirror]
    congr 1
    funext b
    by_cases here : b = 1 - d
    · rw [here, mirror, Function.update_self, Function.update_self]
    · rw [Function.update_of_ne here, Function.update_of_ne]
      intro eq
      apply here
      bv_omega

/-- The same stretch, counted from its end. -/
theorem mirror_lt (len x : BitVec 32) :
    (len - 1 - x).toNat < len.toNat ↔ x.toNat < len.toNat := by
  bv_omega

section Move

variable {len : BitVec 32} (dstFits : dst.toNat + len.toNat ≤ 2 ^ 32)
  (srcFits : src.toNat + len.toNat ≤ 2 ^ 32)
include dstFits srcFits

/-- Forward, when the destination does not begin inside the source. -/
theorem copyUp_moves (clear : ¬ (src < dst ∧ dst < src + len)) :
    copyUp len.toNat dst src m = fill m dst len.toNat fun i => m (src + BitVec.ofNat 32 i) := by
  have far : (dst - src).toNat = 0 ∨ len.toNat ≤ (dst - src).toNat := by
    bv_omega
  rw [copyUp_eq len.isLt.le]
  apply fill_congr
  intro i inside
  rcases far with same | le
  · rw [same, Nat.mod_zero]
  · rw [Nat.mod_eq_of_lt (by omega)]

/-- Backward, when it does. -/
theorem copyDown_moves (inside : src < dst ∧ dst < src + len) :
    copyDown len.toNat (dst + len) (src + len) m =
      fill m dst len.toNat fun i => m (src + BitVec.ofNat 32 i) := by
  have distance : 1 - (dst + len) - (1 - (src + len)) = src - dst := by abel
  have far : len.toNat ≤ (src - dst).toNat := by
    bv_omega
  funext a
  -- offsets from the end, in the mirror
  have offset : -a - (1 - (dst + len)) = len - 1 - (a - dst) := by abel
  have flipped := mirror_lt len (a - dst)
  rw [copyDown_eq_copyUp, copyUp_eq len.isLt.le, distance]
  simp only [fill, offset, flipped]
  by_cases here : (a - dst).toNat < len.toNat
  · rw [if_pos here, if_pos here, Nat.mod_eq_of_lt (lt_of_lt_of_le (flipped.2 here) far)]
    simp only [BitVec.ofNat_toNat, BitVec.setWidth_eq]
    congr 1
    abel
  · rw [if_neg here, if_neg here, BitVec.neg_neg]

/-- **`memmove` moves**, whichever way. -/
theorem memmove_eq :
    memmove dst src len m = (dst, fill m dst len.toNat fun i => m (src + BitVec.ofNat 32 i)) := by
  unfold memmove
  by_cases inside : src < dst ∧ dst < src + len
  · rw [if_pos inside, copyDown_moves dstFits srcFits inside]
  · rw [if_neg inside, copyUp_moves dstFits srcFits inside]

end Move

/-! ## Setting -/

section Set

variable {c : Byte} {p : Addr}

/-- The last loop of `memset`. -/
theorem setLeftover_eq (fits : n ≤ 2 ^ 32) : setLeftover c n p m = fill m p n fun _ => c := by
  induction n generalizing p m with
  | zero => rw [setLeftover, fill_zero]
  | succ n ih =>
    rw [setLeftover, ih (by omega), ← fill_update (by decide) fits]
    rfl

/-- The first loop: it stops at a word, or at the end. -/
theorem setBefore_eq (fits : n ≤ 2 ^ 32) : ∃ k rest, n = k + rest ∧
    setBefore c n p m = (rest, p + BitVec.ofNat 32 k, fill m p k fun _ => c) ∧
      (rest = 0 ∨ (p + BitVec.ofNat 32 k).toNat % 4 = 0) := by
  induction n generalizing p m with
  | zero =>
    refine ⟨0, 0, rfl, ?_, Or.inl rfl⟩
    simp [setBefore, fill_zero]
  | succ n ih =>
    by_cases whole : p.toNat % 4 = 0
    · refine ⟨0, n + 1, by omega, ?_, Or.inr ?_⟩
      · simp [setBefore, whole, fill_zero]
      · simpa using whole
    · obtain ⟨k, rest, count, done, stops⟩ := ih (p := p + 1) (m := Function.update m p c) (by omega)
      have next : p + 1 + BitVec.ofNat 32 k = p + BitVec.ofNat 32 (k + 1) := by
        rw [show (1 : Addr) = BitVec.ofNat 32 1 from rfl, add_ofNat_add, Nat.add_comm 1]
      rw [next] at done stops
      refine ⟨k + 1, rest, by omega, ?_, stops⟩
      rw [setBefore, if_pos whole, done, ← fill_update (by decide) (by omega)]
      rfl

theorem spread_bytes : ∀ c : Byte, (spread c).extractLsb' 0 8 = c ∧ (spread c).extractLsb' 8 8 = c ∧
    (spread c).extractLsb' 16 8 = c ∧ (spread c).extractLsb' 24 8 = c := by
  decide +kernel

/-- A store of the word sets four bytes. -/
theorem putWord_spread (aligned : p.toNat % 4 = 0) :
    m.putWord p (spread c) = some (fill m p 4 fun _ => c) := by
  obtain ⟨one, two, three, four⟩ := spread_bytes c
  have third : p + 1 + 1 = p + 2 := by bv_omega
  have fourth : p + 2 + 1 = p + 3 := by bv_omega
  rw [← setLeftover_eq (by decide), Ram.putWord, if_pos aligned, one, two, three, four]
  simp only [setLeftover, third, fourth]

/-- The second loop: all whole words. -/
theorem setWords_eq (q rest : Nat) (fits : 4 * q + rest ≤ 2 ^ 32) (few : rest < 4)
    (aligned : q = 0 ∨ p.toNat % 4 = 0) :
    setWords (spread c) (4 * q + rest) p m =
      some (rest, p + BitVec.ofNat 32 (4 * q), fill m p (4 * q) fun _ => c) := by
  induction q generalizing p m with
  | zero =>
    have short : setWords (spread c) rest p m = some (rest, p, m) := by
      match rest, few with
      | 0, _ | 1, _ | 2, _ | 3, _ => rfl
    simpa [fill_zero] using short
  | succ q ih =>
    have aligned : p.toNat % 4 = 0 := aligned.resolve_left (Nat.succ_ne_zero q)
    have next : (p + 4).toNat % 4 = 0 := by bv_omega
    have further : p + 4 + BitVec.ofNat 32 (4 * q) = p + BitVec.ofNat 32 (4 * (q + 1)) := by
      rw [show (4 : Addr) = BitVec.ofNat 32 4 from rfl, add_ofNat_add, Nat.mul_add, Nat.add_comm 4]
    have joined := fill_add (m := m) (d := p) (n := 4 * q) (f := fun _ => c) (k := 4) (by decide)
      (by omega)
    rw [show 4 * (q + 1) + rest = 4 * q + rest + 4 by omega, setWords, putWord_spread aligned]
    simp only
    rw [ih (by omega) (Or.inr next), further, show 4 * (q + 1) = 4 + 4 * q by omega, ← joined]
    rfl

/-- **`memset` sets**, by bytes, words and bytes, and does not fault. -/
theorem memset_eq (v len : BitVec 32) :
    memset dst v len m =
      some (dst, fill m dst len.toInt.toNat fun _ => (v &&& 0xff).setWidth 8) := by
  generalize isByte : ((v &&& 0xff).setWidth 8 : Byte) = c
  have fits : len.toInt.toNat < 2 ^ 31 := by
    have := BitVec.toInt_lt (x := len)
    omega
  obtain ⟨k, rest, count, before, stops⟩ := setBefore_eq (c := c) (p := dst) (m := m)
    (n := len.toInt.toNat) (by omega)
  have words := setWords_eq (c := c) (p := dst + BitVec.ofNat 32 k) (m := fill m dst k fun _ => c)
    (rest / 4) (rest % 4) (by omega) (Nat.mod_lt _ (by decide))
    (stops.imp (fun none_ => by rw [none_]) id)
  rw [Nat.div_add_mod] at words
  have whole := fill_add (m := m) (d := dst) (f := fun _ => c) (k := k) (n := 4 * (rest / 4))
    (by omega) (by omega)
  have all := fill_add (m := m) (d := dst) (f := fun _ => c) (k := k + 4 * (rest / 4))
    (n := rest % 4) (by omega) (by omega)
  unfold memset
  simp only [isByte, before, words]
  rw [setLeftover_eq (by omega), add_ofNat_add, whole, all, Nat.add_assoc, Nat.div_add_mod, count]

end Set

/-! ## What they promise -/

/-- The `n` bytes from `dst` on are `f 0 .. f (n - 1)`, and every other byte is as it was. -/
structure Sets (m : Ram) (dst : Addr) (n : Nat) (f : Nat → Byte) (m' : Ram) : Prop where
  inside : ∀ i < n, m' (dst + BitVec.ofNat 32 i) = f i
  outside : ∀ a, (∀ i < n, a ≠ dst + BitVec.ofNat 32 i) → m' a = m a

theorem sets_fill (fits : n ≤ 2 ^ 32) (f : Nat → Byte) : Sets m dst n f (fill m dst n f) where
  inside _ inside := fill_inside fits inside
  outside _ outside := fill_outside outside

/-- A count that is not negative. -/
theorem toNat_toInt {len : BitVec 32} (nonneg : 0 ≤ len.toInt) : len.toInt.toNat = len.toNat := by
  have value := BitVec.toInt_eq_toNat_cond len
  have below := len.isLt
  split at value <;> omega

/-- **`memmove` and `memset` of the kernel.**  Whatever the overlap of two ranges that do not wrap,
the destination gets the bytes the source had, and nothing else changes.  For any alignment and any
count that is not negative, `memset` sets exactly so many bytes to the low byte of its argument. -/
theorem memmove_memset_set :
    (∀ (m : Ram) (dst src n : BitVec 32), dst.toNat + n.toNat ≤ 2 ^ 32 →
      src.toNat + n.toNat ≤ 2 ^ 32 → ∃ m', memmove dst src n m = (dst, m') ∧
        Sets m dst n.toNat (fun i => m (src + BitVec.ofNat 32 i)) m') ∧
    ∀ (m : Ram) (dst v n : BitVec 32), 0 ≤ n.toInt → ∃ m', memset dst v n m = some (dst, m') ∧
      Sets m dst n.toNat (fun _ => (v &&& 0xff).setWidth 8) m' := by
  constructor
  · intro m dst src n dstFits srcFits
    exact ⟨_, memmove_eq dstFits srcFits, sets_fill n.isLt.le _⟩
  · intro m dst v n nonneg
    refine ⟨_, memset_eq v n, ?_⟩
    rw [toNat_toInt nonneg]
    exact sets_fill n.isLt.le _

/-- Four bytes move up by one, and six bytes from an odd address on are set. -/
theorem memmove_memset_set_six :
    (∃ m', memmove 1 0 4 (fun a => a.setWidth 8) = (1, m') ∧ m' 4 = 3 ∧ m' 5 = 5) ∧
      ∃ m', memset 3 0x1ff 6 (fun a => a.setWidth 8) = some (3, m') ∧ m' 8 = 0xff ∧ m' 9 = 9 := by
  obtain ⟨moves, sets⟩ := memmove_memset_set
  obtain ⟨m, moved, inM, outM⟩ := moves (fun a => a.setWidth 8) 1 0 4 (by decide) (by decide)
  obtain ⟨m', set, inS, outS⟩ := sets (fun a => a.setWidth 8) 3 0x1ff 6 (by decide)
  exact ⟨⟨m, moved, inM 3 (by decide), outM 5 (by decide)⟩,
    ⟨m', set, inS 5 (by decide), outS 9 (by decide)⟩⟩

/-- **The two `memmove`s** leave the same memory exactly if the destination does not begin inside the
source, above its start, or the source repeats its first `dst - src` bytes. -/
theorem ulib_memmove_iff (m : Ram) (dst src n : BitVec 32) (nonneg : 0 ≤ n.toInt)
    (dstFits : dst.toNat + n.toNat ≤ 2 ^ 32) (srcFits : src.toNat + n.toNat ≤ 2 ^ 32) :
    (Ulib.memmove dst src n m).2 = (memmove dst src n m).2 ↔
      ¬ (src < dst ∧ dst < src + n) ∨
        ∀ i < n.toNat, m (src + BitVec.ofNat 32 i) =
          m (src + BitVec.ofNat 32 (i % (dst - src).toNat)) := by
  rw [memmove_eq dstFits srcFits, Ulib.memmove, toNat_toInt nonneg]
  by_cases clear : ¬ (src < dst ∧ dst < src + n)
  · exact iff_of_true (copyUp_moves dstFits srcFits clear) (Or.inl clear)
  · rw [or_iff_right clear]
    simp only [copyUp_eq n.isLt.le, fill_eq_iff n.isLt.le]
    exact forall₂_congr fun i _ => eq_comm

/-- Down by one, in a memory of different bytes. -/
theorem ulib_memmove_down : (Ulib.memmove 0 1 4 fun a => a.setWidth 8).2 =
    (memmove 0 1 4 fun a => a.setWidth 8).2 :=
  (ulib_memmove_iff (fun a => a.setWidth 8) 0 1 4 (by decide) (by decide) (by decide)).2
    (Or.inl (by decide))

/-- **Up by one**, the library of the programs stores its first byte twice. -/
theorem ulib_memmove_repeats : ∃ (m : Ram) (dst src n : BitVec 32), 0 ≤ n.toInt ∧
    dst.toNat + n.toNat ≤ 2 ^ 32 ∧ src.toNat + n.toNat ≤ 2 ^ 32 ∧
      (Ulib.memmove dst src n m).2 2 = 0 ∧ (memmove dst src n m).2 2 = 1 ∧
      (Ulib.memmove dst src n m).2 ≠ (memmove dst src n m).2 := by
  refine ⟨fun a => a.setWidth 8, 1, 0, 2, by decide, by decide, by decide, by decide, by decide, ?_⟩
  intro same
  exact absurd (congrFun same 2) (by decide)

end Xv6Rpi.Lib
