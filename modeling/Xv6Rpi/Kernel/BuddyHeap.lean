/-
# Kernel.BuddyHeap -- the buddy allocator keeps a canonical tiling

`HeapInv N P H km` ties the allocator to the abstract forest of `Theory.Dyadic`: the
available blocks and the held blocks `H` tile the `P` pages of the heap, and no two
buddies are both available.  One lemma each says what `_kfree`, `_kmalloc` and
`kmem_init2` do to `H`; a client that frees only what it was given keeps its live
blocks equal to `H` (`Client.Inv`), in every run.

* `buddy_safe`: no panic, live and available blocks tile the heap exactly;
* `buddy_canonical`: the bitmaps are a function of the live blocks, and `kmalloc`
  fails only if no aligned block is clear of them.
-/
import Mathlib.Data.Finset.Insert
import Mathlib.Data.Finset.Basic
import Xv6Rpi.Kernel.BuddyInv
import Xv6Rpi.Theory.Machine

namespace Xv6Rpi.Kernel

open Theory
open Theory.Dyadic (Blocks Forest Tiles Clear buddy)

set_option autoImplicit false

/-- The heap: whole pages, with marks for all of them. -/
structure Sized (N P : Nat) (km : Kmem) : Prop where
  positive : 0 < km.startHeap
  aligned : km.startHeap % 4096 = 0
  pages : km.end_ - km.startHeap = 4096 * P
  room : P ≤ 32 * N
  marks : (km.end_ - km.start) >>> 17 + 1 = N

structure HeapInv (N P : Nat) (H : Blocks) (km : Kmem) : Prop where
  wf : Wf N km
  forest : Forest 6 P (km.free N) H
  sized : Sized N P km

theorem Sized.congr {N P : Nat} {km km' : Kmem} (sized : Sized N P km)
    (same : km'.bounds = km.bounds) : Sized N P km' := by
  simp only [Kmem.bounds, Prod.mk.injEq] at same
  obtain ⟨start, startHeap, end_⟩ := same
  exact ⟨startHeap ▸ sized.positive, startHeap ▸ sized.aligned, startHeap ▸ end_ ▸ sized.pages,
    sized.room, start ▸ end_ ▸ sized.marks⟩

section Addresses

variable {km km' : Kmem}

theorem blkid2mem_congr (same : km'.bounds = km.bounds) (order b : Nat) :
    km'.blkid2mem order b = km.blkid2mem order b := by
  simp only [Kmem.bounds, Prod.mk.injEq] at same
  unfold Kmem.blkid2mem
  rw [same.2.1]

variable (km) (k b : Nat)

theorem mem2blkid_blkid2mem (order : Nat) : km.mem2blkid order (km.blkid2mem order b) = b := by
  unfold Kmem.mem2blkid Kmem.blkid2mem
  rw [Nat.add_sub_cancel_left, Nat.shiftRight_eq_div_pow]
  exact Nat.mul_div_cancel_left b (Nat.two_pow_pos order)

theorem blkid2mem_inj {order a : Nat} (same : km.blkid2mem order a = km.blkid2mem order b) :
    a = b := by
  rw [← mem2blkid_blkid2mem km a order, same, mem2blkid_blkid2mem]

/-- A block begins where its first half does. -/
theorem blkid2mem_first : km.blkid2mem (k + 1 + MIN_ORD) b = km.blkid2mem (k + MIN_ORD) (2 * b) := by
  unfold Kmem.blkid2mem
  rw [show k + 1 + MIN_ORD = k + MIN_ORD + 1 by omega, pow_succ, Nat.mul_assoc]

theorem blkid2mem_second : km.blkid2mem (k + 1 + MIN_ORD) b + 2 ^ (k + MIN_ORD) =
    km.blkid2mem (k + MIN_ORD) (2 * b + 1) := by
  rw [blkid2mem_first]
  unfold Kmem.blkid2mem
  rw [Nat.mul_add, Nat.mul_one, Nat.add_assoc]

/-- `blk_id & ~1` is the first half of the block above. -/
theorem blkid2mem_parent : km.blkid2mem (k + MIN_ORD) (b >>> 1 <<< 1) =
    km.blkid2mem (k + 1 + MIN_ORD) (b / 2) := by
  rw [blkid2mem_first, Nat.shiftRight_eq_div_pow, Nat.shiftLeft_eq, Nat.mul_comm]

end Addresses

/-- Two buddies are in the same mark. -/
theorem buddy_mark (b : Nat) : buddy b >>> 5 = b >>> 5 := by
  rw [shiftRight_five, shiftRight_five, Dyadic.buddy_eq]
  split <;> omega

theorem available_buddy (km : Kmem) {N k b : Nat} (hk : k ≤ 6) (hb : b < 32 * width N k) :
    available (km.getMark (k + MIN_ORD) (b >>> 5)).bitmap (b ^^^ 1) = true ↔
      (k, buddy b) ∈ km.free N := by
  have small : buddy b < 32 * width N k := by
    have := mark_lt hb
    rw [← buddy_mark, shiftRight_five] at this
    omega
  rw [mem_free, buddy_mark]
  exact ⟨fun bit => ⟨hk, small, bit⟩, fun free => free.2.2⟩

namespace HeapInv

variable {N P : Nat} {H : Blocks} {km : Kmem} {k b : Nat}

theorem bounded (inv : HeapInv N P H km) (held : (k, b) ∈ H) : k ≤ 6 ∧ b < 32 * width N k := by
  obtain ⟨hk, hb⟩ := inv.forest.tiles.bounded k b (Or.inr held)
  refine ⟨hk, lt_of_lt_of_le hb ?_⟩
  unfold width
  rw [← Nat.mul_assoc]
  exact Nat.mul_le_mul_right _ inv.sized.room

/-- A held block is marked unavailable. -/
theorem not_available (inv : HeapInv N P H km) (held : (k, b) ∈ H) :
    available (km.getMark (k + MIN_ORD) (b >>> 5)).bitmap b = false := by
  obtain ⟨hk, hb⟩ := inv.bounded held
  apply Bool.eq_false_iff.2
  exact fun bit => inv.forest.apart (k, b) ⟨hk, hb, bit⟩ held

/-- A block whose buddy is not available goes back into the bitmap. -/
theorem putBlk (inv : HeapInv N P H km) (held : (k, b) ∈ H)
    (alone : k = 6 ∨ (k, buddy b) ∉ km.free N) :
    ∃ km', km.markBlk (k + MIN_ORD) b = .ok km' ∧ HeapInv N P (H \ {(k, b)}) km' ∧
      km'.bounds = km.bounds := by
  obtain ⟨hk, hb⟩ := inv.bounded held
  have notFree : (k, b) ∉ km.free N := fun free => inv.forest.apart _ free held
  obtain ⟨km', marked, wf, bounds, freeEq, -⟩ := markBlk_spec inv.wf hk hb notFree
  refine ⟨km', marked, ⟨wf, ?_, inv.sized.congr bounds⟩, bounds⟩
  rw [freeEq]
  exact inv.forest.put held alone

/-- **`_kfree` gives a held block back.** -/
theorem kfreeAt : ∀ (n : Nat) {k b : Nat} {H : Blocks} {km : Kmem}, n + k = 6 →
    HeapInv N P H km → (k, b) ∈ H →
    ∃ km', Kmem.kfreeAt n (km.blkid2mem (k + MIN_ORD) b) km = .ok km' ∧
      HeapInv N P (H \ {(k, b)}) km' ∧ km'.bounds = km.bounds := by
  intro n
  induction n with
  | zero =>
    intro k b H km level inv held
    obtain rfl : k = 6 := by omega
    have off := inv.not_available held
    have order : (6 : Nat) + MIN_ORD = MAX_ORD := rfl
    rw [order] at off
    rw [order, Kmem.kfreeAt, mem2blkid_blkid2mem]
    simp only [off, Bool.false_eq_true, if_false]
    exact inv.putBlk held (Or.inl rfl)
  | succ n ih =>
    intro k b H km level inv held
    have order : MAX_ORD - (n + 1) = k + MIN_ORD := by
      show 12 - (n + 1) = k + 6
      omega
    obtain ⟨hk, hb⟩ := inv.bounded held
    have off := inv.not_available held
    have buddyFree := available_buddy km hk hb
    rw [Kmem.kfreeAt, order, mem2blkid_blkid2mem]
    simp only [off, Bool.false_eq_true, if_false]
    by_cases free : (k, buddy b) ∈ km.free N
    · rw [if_neg (by rw [buddyFree.2 free]; decide)]
      obtain ⟨km', unmarked, wf, bounds, freeEq, -⟩ := unmarkBlk_spec inv.wf free
      obtain ⟨joined, out⟩ := inv.forest.merge (by omega) held free
      rw [← freeEq] at joined
      obtain ⟨km'', freed, inv'', bounds'⟩ :=
        ih (by omega) ⟨wf, joined, inv.sized.congr bounds⟩ (Or.inl rfl)
      rw [Set.insert_sdiff_self_of_notMem fun whole => out whole.1] at inv''
      refine ⟨km'', ?_, inv'', bounds'.trans bounds⟩
      have unmarked' : km.unmarkBlk (k + MIN_ORD) (b ^^^ 1) = .ok km' := unmarked
      simp only [unmarked', blkid2mem_parent]
      exact freed
    · have bitOff : available (km.getMark (k + MIN_ORD) (b >>> 5)).bitmap (b ^^^ 1) = false :=
        Bool.eq_false_iff.2 fun bit => free (buddyFree.1 bit)
      rw [if_pos bitOff]
      exact inv.putBlk held (Or.inr free)

theorem blkid2mem_ne_zero (inv : HeapInv N P H km) (order b : Nat) : km.blkid2mem order b ≠ 0 := by
  have positive := inv.sized.positive
  unfold Kmem.blkid2mem
  omega

/-- `get_blk` moves an available block to the held ones. -/
theorem getBlk (inv : HeapInv N P H km) (hk : k ≤ 6) (some_ : km.head (k + MIN_ORD) ≠ NIL) :
    ∃ b km', km.getBlk (k + MIN_ORD) = .ok (km.blkid2mem (k + MIN_ORD) b, km') ∧ Clear H k b ∧
      HeapInv N P (insert (k, b) H) km' ∧ km'.bounds = km.bounds := by
  obtain ⟨b, km', free, got, wf, bounds, freeEq⟩ := getBlk_spec inv.wf hk some_
  refine ⟨b, km', got, inv.forest.clear_of_free free, ⟨wf, ?_, inv.sized.congr bounds⟩, bounds⟩
  rw [freeEq]
  exact inv.forest.take free

/-- **`_kmalloc` takes a clear block**, or finds no available block large enough. -/
theorem kmallocAt : ∀ (n : Nat) {k : Nat} {km : Kmem}, n + k = 6 → HeapInv N P H km →
    (Kmem.kmallocAt n km = .ok (0, km) ∧ ∀ j, k ≤ j → ∀ b, (j, b) ∉ km.free N) ∨
      ∃ b km', Kmem.kmallocAt n km = .ok (km.blkid2mem (k + MIN_ORD) b, km') ∧ Clear H k b ∧
        HeapInv N P (insert (k, b) H) km' ∧ km'.bounds = km.bounds := by
  intro n
  induction n with
  | zero =>
    intro k km level inv
    obtain rfl : k = 6 := by omega
    have order : MAX_ORD = (6 : Nat) + MIN_ORD := rfl
    rw [Kmem.kmallocAt, order]
    by_cases empty : km.head (6 + MIN_ORD) = NIL
    · rw [if_neg (not_not.2 empty)]
      refine Or.inl ⟨rfl, fun j above b free => ?_⟩
      obtain rfl : j = 6 := le_antisymm free.1 above
      exact (head_eq_nil_iff inv.wf le_rfl).1 empty b free
    · rw [if_pos empty]
      exact Or.inr (inv.getBlk le_rfl empty)
  | succ n ih =>
    intro k km level inv
    have order : MAX_ORD - (n + 1) = k + MIN_ORD := by
      show 12 - (n + 1) = k + 6
      omega
    rw [Kmem.kmallocAt, order]
    by_cases empty : km.head (k + MIN_ORD) = NIL
    · rw [if_neg (not_not.2 empty)]
      have none_ := (head_eq_nil_iff inv.wf (by omega)).1 empty
      rcases ih (k := k + 1) (by omega) inv with ⟨failed, noneAbove⟩ | ⟨b, km', got, clear, inv', bounds⟩
      · refine Or.inl ⟨by simp only [failed, if_true], fun j above b => ?_⟩
        by_cases same : j = k
        · subst same
          exact none_ b
        · exact noneAbove j (by omega) b
      · -- cut the parent in two and give the second half back
        have half : 2 * b / 2 = b := Nat.mul_div_cancel_left b two_pos
        have forest := inv'.forest
        rw [← half] at forest
        have whole := clear _ (Dyadic.first_cell (k + 1) b) (k + 1)
        rw [Dyadic.first_cell] at whole
        obtain ⟨cut, out⟩ := forest.split (half.symm ▸ whole)
        rw [Dyadic.buddy_even] at cut out
        obtain ⟨km'', freed, inv3, bounds'⟩ := HeapInv.kfreeAt (n + 1) level
          (⟨inv'.wf, cut, inv'.sized⟩ : HeapInv N P _ km') (Or.inr (Or.inl rfl))
        rw [Set.insert_comm, Set.insert_sdiff_self_of_notMem (by simp [out])] at inv3
        refine Or.inr ⟨2 * b, km'', ?_, ?_, inv3, bounds'.trans bounds⟩
        · have nonzero := inv.blkid2mem_ne_zero (k + 1 + MIN_ORD) b
          rw [blkid2mem_congr bounds, ← blkid2mem_second] at freed
          simp only [got, if_neg nonzero, freed]
          rw [blkid2mem_first]
        · intro c cell
          apply clear
          rw [Dyadic.div_pow_succ, cell]
          omega
    · rw [if_pos empty]
      exact Or.inr (inv.getBlk (by omega) empty)

/-- A failed `_kmalloc` means that no aligned block is clear of the held ones. -/
theorem no_clear_block (inv : HeapInv N P H km) (none_ : ∀ j, k ≤ j → ∀ b, (j, b) ∉ km.free N)
    (hk : k ≤ 6) (hb : b < P * 2 ^ (6 - k)) : ¬ Clear H k b := by
  intro clear
  obtain ⟨j, -, free⟩ := inv.forest.exists_free_above k b hk hb clear
  exact none_ (k + j) (Nat.le_add_right k j) _ free

end HeapInv

/-! ## Initialisation -/

/-- What `main` promises of the memory it hands over: page-aligned at its end, marks
that 16-bit links can name, no wrap-around. -/
structure Region (vstart vend : Nat) : Prop where
  ordered : vstart ≤ vend
  aligned : vend % 4096 = 0
  fits : vend - vstart < 1023 * 131072
  marksBelow : vstart + 1048576 ≤ 4294967296
  below : vend < 4294967296

abbrev KERNBASE : Nat := 0x80000000
abbrev INIT_KERNMAP : Nat := 0x100000
abbrev PHYSTOP : Nat := 0x08000000

/-- The memory `main` hands over. -/
theorem region_main : Region (KERNBASE + INIT_KERNMAP) (KERNBASE + PHYSTOP) := by
  constructor <;> decide

/-- The levels from `m` on are set up. -/
structure Inited (N m : Nat) (km : Kmem) : Prop where
  orders : ∀ k, m ≤ k → k ≤ 6 → km.orders k = ⟨NIL, N * (2 ^ (6 - k) - 1)⟩
  bitmaps : ∀ p < N * (2 ^ (7 - m) - 1), (km.marks p).bitmap = 0

section Init

variable {N : Nat}

/-- The loop over one order's marks. -/
theorem setMarks_spec (o : Nat) (mk : Mark) : ∀ (n : Nat) (km : Kmem),
    let km' := (List.range n).foldl (fun km j => km.setMark o j mk) km
    km'.bounds = km.bounds ∧ km'.orders = km.orders ∧
      ∀ p, km'.marks p = if (km.orders (o - MIN_ORD)).offset ≤ p ∧
        p < (km.orders (o - MIN_ORD)).offset + n then mk else km.marks p := by
  intro n
  induction n with
  | zero =>
    intro km
    refine ⟨rfl, rfl, fun p => ?_⟩
    rw [if_neg (by omega)]
    rfl
  | succ n ih =>
    intro km
    obtain ⟨bounds, orders, marks⟩ := ih km
    simp only [List.range_succ, List.foldl_append, List.foldl_cons, List.foldl_nil]
    generalize (List.range n).foldl (fun km j => km.setMark o j mk) km = km' at *
    refine ⟨bounds, orders, fun p => ?_⟩
    simp only [Kmem.setMark, upd_apply, orders, marks]
    by_cases last : p = (km.orders (o - MIN_ORD)).offset + n
    · rw [if_pos last, if_pos (by omega)]
    · rw [if_neg last]
      refine if_congr ?_ rfl rfl
      omega

theorem marks_succ {m : Nat} (hm : m ≤ 6) :
    N * (2 ^ (7 - m) - 1) = N * (2 ^ (6 - m) - 1) + N * 2 ^ (6 - m) := by
  rw [← Nat.mul_add, show 7 - m = 6 - m + 1 by omega, pow_succ]
  have := Nat.two_pow_pos (6 - m)
  congr 1
  omega

/-- One order is set up: none of its blocks is available. -/
theorem Inited.step {m : Nat} {km : Kmem} (inited : Inited N (m + 1) km) (hm : m ≤ 6) :
    Inited N m (km.initOrder m (N * (2 ^ (6 - m) - 1)) (N * 2 ^ (6 - m))) ∧
      (km.initOrder m (N * (2 ^ (6 - m) - 1)) (N * 2 ^ (6 - m))).bounds = km.bounds := by
  obtain ⟨bounds, orders, marks⟩ := setMarks_spec (m + MIN_ORD) ⟨mkLnks NIL NIL, 0⟩ (N * 2 ^ (6 - m))
    { km with orders := upd km.orders m { head := NIL, offset := N * (2 ^ (6 - m) - 1) } }
  refine ⟨⟨fun k above hk => ?_, fun p hp => ?_⟩, bounds⟩
  · refine (congrFun orders k).trans ?_
    by_cases same : k = m
    · subst same
      simp
    · simp only [upd_ne km.orders _ same]
      exact inited.orders k (by omega) hk
  · refine (congrArg Mark.bitmap (marks p)).trans ?_
    simp only [Nat.add_sub_cancel, upd_same]
    split
    case isTrue => rfl
    case isFalse outside =>
      apply inited.bitmaps
      have total := marks_succ (N := N) hm
      rw [show 7 - (m + 1) = 6 - m by omega]
      omega

theorem initOrders_spec : ∀ (m : Nat) (km : Kmem), m ≤ 7 → Inited N m km →
    ∃ km', Kmem.initOrders m (N * (2 ^ (7 - m) - 1)) (N * 2 ^ (7 - m)) km = (N * 127, km') ∧
      Inited N 0 km' ∧ km'.bounds = km.bounds := by
  intro m
  induction m with
  | zero => exact fun km _ inited => ⟨km, rfl, inited, rfl⟩
  | succ m ih =>
    intro km hm inited
    obtain ⟨inited', bounds⟩ := inited.step (by omega)
    obtain ⟨km', rest, done, bounds'⟩ := ih _ (by omega) inited'
    refine ⟨km', ?_, done, bounds'.trans bounds⟩
    have double : (N * 2 ^ (6 - m)) <<< 1 = N * 2 ^ (7 - m) := by
      rw [Nat.shiftLeft_eq, Nat.mul_assoc, ← pow_add, show 6 - m + 1 = 7 - m by omega]
    rw [Kmem.initOrders, show 7 - (m + 1) = 6 - m by omega, ← marks_succ (by omega), double]
    exact rest

/-- Marks none of which is available, no list has a member. -/
theorem Inited.wf {km : Kmem} (inited : Inited N 0 km) (fits : N * 64 ≤ 65535) :
    Wf N km ∧ km.free N = ∅ := by
  have layout : Layout N km := fun k hk => by rw [inited.orders k (Nat.zero_le k) hk]
  have zero : ∀ k ≤ 6, ∀ i < width N k, (km.getMark (k + MIN_ORD) i).bitmap = 0 := by
    intro k hk i hi
    unfold Kmem.getMark
    rw [Nat.add_sub_cancel, layout k hk]
    apply inited.bitmaps
    exact offset_lt hi
  constructor
  · refine ⟨fun _ => [], ⟨fits, layout, fun _ _ _ member => absurd member List.not_mem_nil, ?_⟩, ?_⟩
    · intro k hk
      refine ⟨NIL, ⟨?_, ?_⟩, by simp⟩
      · simp only [Kmem.nextAt, if_true, Kmem.head, Nat.add_sub_cancel,
          inited.orders k (Nat.zero_le k) hk]
      · simp only [Kmem.prevAt, if_true]
    · intro k hk i hi
      exact iff_of_false List.not_mem_nil (not_not.2 (zero k hk i hi))
  · apply Set.eq_empty_of_forall_notMem
    intro x free
    obtain ⟨hk, hb, bit⟩ := free
    rw [zero x.1 hk _ (mark_lt hb), not_available_zero] at bit
    exact Bool.false_ne_true bit

/-- The pages, all held. -/
theorem forest_pages (P : Nat) : Forest 6 P ∅ {x | x.1 = 6 ∧ x.2 < P} := by
  refine ⟨⟨?_, ?_, ?_⟩, fun x none_ => absurd none_ (Set.notMem_empty x), fun _ _ _ both => both.1⟩
  · intro k b member
    rcases member with none_ | ⟨top, small⟩
    · exact absurd none_ (Set.notMem_empty _)
    · obtain rfl : k = 6 := top
      exact ⟨le_rfl, by simpa using small⟩
  · intro c inside
    refine ⟨6, Or.inr ⟨rfl, ?_⟩⟩
    show c / 2 ^ 6 < P
    omega
  · intro c j k first second
    rcases first with none_ | ⟨top, -⟩
    · exact absurd none_ (Set.notMem_empty _)
    · rcases second with none_ | ⟨top', -⟩
      · exact absurd none_ (Set.notMem_empty _)
      · exact top.trans top'.symm

/-- The last loop of `kmem_init2` gives every page of its list back. -/
theorem freePages_spec {P : Nat} : ∀ (l : List Nat) {km : Kmem}, l.Nodup →
    HeapInv N P {x | x.1 = 6 ∧ x.2 ∈ l} km →
    ∃ km', Kmem.freePages (l.map fun j => km.startHeap + 4096 * j) km = .ok km' ∧
      HeapInv N P ∅ km' ∧ km'.bounds = km.bounds := by
  intro l
  induction l with
  | nil =>
    intro km _ inv
    refine ⟨km, rfl, ?_, rfl⟩
    have none_ : {x : Nat × Nat | x.1 = 6 ∧ x.2 ∈ ([] : List Nat)} = ∅ := by
      ext x
      simp
    rwa [none_] at inv
  | cons j l ih =>
    intro km nodup inv
    obtain ⟨out, nodup'⟩ := List.nodup_cons.1 nodup
    obtain ⟨km', freed, inv', bounds⟩ := HeapInv.kfreeAt 0 rfl inv ⟨rfl, List.mem_cons_self⟩
    have rest : {x : Nat × Nat | x.1 = 6 ∧ x.2 ∈ j :: l} = insert (6, j) {x | x.1 = 6 ∧ x.2 ∈ l} := by
      ext ⟨k, b⟩
      simp [and_or_left]
    rw [rest, Set.insert_sdiff_self_of_notMem fun member => out member.2] at inv'
    obtain ⟨km'', restFreed, done, bounds'⟩ := ih nodup' inv'
    refine ⟨km'', ?_, done, bounds'.trans bounds⟩
    have start : km'.startHeap = km.startHeap := by
      simp only [Kmem.bounds, Prod.mk.injEq] at bounds
      exact bounds.2.1
    have page : km.kfree (km.startHeap + 4096 * j) MAX_ORD = .ok km' := by
      have aligned := inv.sized.aligned
      unfold Kmem.kfree
      rw [if_neg (by show ¬ (12 < 12 ∨ 12 < 6 ∨ (km.startHeap + 4096 * j) % 4096 ≠ 0); omega)]
      exact freed
    rw [start] at restFreed
    simp only [List.map_cons, Kmem.freePages, page]
    exact restFreed

theorem le_alignPage (x : Nat) : x ≤ Kmem.alignPage x := by
  unfold Kmem.alignPage
  omega

/-- **`kmem_init2` makes every page available** and puts the marks below the heap. -/
theorem kmemInit2_laid {vstart vend : Nat} (region : Region vstart vend) (km : Kmem) :
    ∃ N P km0, Kmem.kmemInit2 vstart vend km = .ok km0 ∧ HeapInv N P ∅ km0 ∧
      km0.start = vstart ∧ km0.startHeap = Kmem.alignPage (vstart + N * 127 * 8) ∧
      km0.end_ = vend := by
  obtain ⟨ordered, aligned, fits, marksBelow, below⟩ := region
  have len : (vend + 4294967296 - vstart) % 4294967296 = vend - vstart := by omega
  generalize marksIs : (vend - vstart) >>> 17 + 1 = N
  have marksEq : (vend - vstart) / 131072 + 1 = N := by
    rw [← marksIs, Nat.shiftRight_eq_div_pow]
  have fewMarks : N ≤ 1023 := by omega
  obtain ⟨km1, ordersEq, inited, bounds⟩ := initOrders_spec (N := N) 7
    { km with start := vstart, end_ := vend } le_rfl
    ⟨fun k above hk => absurd above (by omega), fun p hp => absurd hp (by simp)⟩
  simp only [Kmem.bounds, Prod.mk.injEq] at bounds
  obtain ⟨startIs, -, endIs⟩ := bounds
  have startHeap : Kmem.alignPage (vstart + N * 127 * 8) % 4294967296 =
      Kmem.alignPage (vstart + N * 127 * 8) := by
    apply Nat.mod_eq_of_lt
    unfold Kmem.alignPage
    omega
  generalize heapIs : Kmem.alignPage (vstart + N * 127 * 8) = start at *
  generalize pagesIs : (vend - start + 4095) / 4096 = P
  have heapAligned : start % 4096 = 0 := by
    rw [← heapIs]
    unfold Kmem.alignPage
    omega
  have heapAbove : vstart + N * 127 * 8 ≤ start := heapIs ▸ le_alignPage _
  have sized : Sized N P { km1 with startHeap := start } := by
    refine ⟨?_, heapAligned, ?_, ?_, ?_⟩
    · show 0 < start
      omega
    · show km1.end_ - start = 4096 * P
      rw [endIs]
      omega
    · omega
    · show (km1.end_ - km1.start) >>> 17 + 1 = N
      rw [endIs, startIs]
      exact marksIs
  have inited' : Inited N 0 { km1 with startHeap := start } := ⟨inited.orders, inited.bitmaps⟩
  obtain ⟨wf, noneFree⟩ := inited'.wf (by omega)
  have forest : Forest 6 P (Kmem.free N { km1 with startHeap := start })
      {x | x.1 = 6 ∧ x.2 ∈ List.range P} := by
    rw [noneFree]
    simpa using forest_pages P
  obtain ⟨km0, freed, inv, bounds0⟩ := freePages_spec (List.range P) List.nodup_range
    (⟨wf, forest, sized⟩ : HeapInv N P _ { km1 with startHeap := start })
  simp only [Kmem.bounds, Prod.mk.injEq] at bounds0
  refine ⟨N, P, km0, ?_, inv, bounds0.1.trans startIs, bounds0.2.1.trans heapIs.symm,
    bounds0.2.2.trans endIs⟩
  have ordersEq' : Kmem.initOrders N_ORD 0 N { km with start := vstart, end_ := vend } =
      (N * 127, km1) := by
    simpa using ordersEq
  unfold Kmem.kmemInit2
  simp only [len, marksIs, ordersEq', heapIs, startHeap, pagesIs]
  exact freed

theorem kmemInit2_spec {vstart vend : Nat} (region : Region vstart vend) (km : Kmem) :
    ∃ N P km0, Kmem.kmemInit2 vstart vend km = .ok km0 ∧ HeapInv N P ∅ km0 ∧
      vstart ≤ km0.startHeap ∧ km0.end_ = vend := by
  obtain ⟨N, P, km0, ready, heap, -, heapIs, endIs⟩ := kmemInit2_laid region km
  refine ⟨N, P, km0, ready, heap, ?_, endIs⟩
  rw [heapIs]
  exact (Nat.le_add_right vstart _).trans (le_alignPage _)

end Init

/-! ## Blocks by address -/

/-- Block `x = (address, order)` contains address `a`. -/
def Covers (x : Nat × Nat) (a : Nat) : Prop := x.1 ≤ a ∧ a < x.1 + 2 ^ x.2

namespace Kmem

/-- The number of marks of an order. -/
def nmarks (km : Kmem) (order : Nat) : Nat :=
  ((km.end_ - km.start) >>> (MAX_ORD + 5) + 1) * 2 ^ (MAX_ORD - order)

/-- Block `x = (address, order)` is marked available. -/
def Available (km : Kmem) (x : Nat × Nat) : Prop :=
  MIN_ORD ≤ x.2 ∧ x.2 ≤ MAX_ORD ∧ ∃ b < 32 * km.nmarks x.2, x.1 = km.blkid2mem x.2 b ∧
    available (km.getMark x.2 (b >>> 5)).bitmap b = true

/-- Block `b` of level `k`, as the code's clients name it. -/
def block (km : Kmem) (k b : Nat) : Nat × Nat := (km.blkid2mem (k + MIN_ORD) b, k + MIN_ORD)

end Kmem

section Blocks

variable {N P : Nat} {km : Kmem} {k b : Nat}

theorem block_inj {j a : Nat} (same : km.block j a = km.block k b) : j = k ∧ a = b := by
  obtain ⟨address, order⟩ := Prod.mk.inj same
  obtain rfl : j = k := Nat.add_right_cancel order
  exact ⟨rfl, blkid2mem_inj km b address⟩

theorem covers_block (km : Kmem) (k b a : Nat) :
    Covers (km.block k b) a ↔ km.startHeap ≤ a ∧ (a - km.startHeap) / 64 / 2 ^ k = b := by
  have size : 64 * 2 ^ k = 2 ^ (k + MIN_ORD) := by
    rw [pow_add, Nat.mul_comm]
    rfl
  have positive := Nat.two_pow_pos (k + MIN_ORD)
  rw [Nat.div_div_eq_div_mul, size, Nat.div_eq_iff positive, Nat.mul_comm b]
  simp only [Covers, Kmem.block, Kmem.blkid2mem]
  generalize 2 ^ (k + MIN_ORD) = w at *
  omega

/-- Every block covers its own address. -/
theorem covers_self (x : Nat × Nat) : Covers x x.1 := by
  have := Nat.two_pow_pos x.2
  exact ⟨le_rfl, by omega⟩

theorem Sized.nmarks (sized : Sized N P km) (hk : k ≤ 6) :
    km.nmarks (k + MIN_ORD) = width N k := by
  unfold Kmem.nmarks width
  rw [show MAX_ORD + 5 = 17 from rfl, sized.marks, show MAX_ORD - (k + MIN_ORD) = 6 - k by
    show 12 - (k + 6) = 6 - k
    omega]

theorem Sized.available_iff (sized : Sized N P km) (x : Nat × Nat) :
    km.Available x ↔ ∃ k b, (k, b) ∈ km.free N ∧ x = km.block k b := by
  obtain ⟨mem, order⟩ := x
  constructor
  · intro avail
    obtain ⟨low, high, b, small, address, bit⟩ := avail
    have low : 6 ≤ order := low
    have high : order ≤ 12 := high
    have level : order - 6 + MIN_ORD = order := by
      show order - 6 + 6 = order
      omega
    refine ⟨order - 6, b, ⟨by show order - 6 ≤ 6; omega, ?_, ?_⟩, ?_⟩
    · show b < 32 * width N (order - 6)
      rw [← sized.nmarks (by omega), level]
      exact small
    · show available (km.getMark (order - 6 + MIN_ORD) (b >>> 5)).bitmap b = true
      rw [level]
      exact bit
    · rw [Kmem.block, level, ← address]
  · intro found
    obtain ⟨k, b, ⟨hk, hb, bit⟩, same⟩ := found
    obtain ⟨rfl, rfl⟩ := Prod.mk.inj same
    have hk : k ≤ 6 := hk
    refine ⟨Nat.le_add_left _ _, by show k + 6 ≤ 12; omega, b, ?_, rfl, bit⟩
    show b < 32 * km.nmarks (k + MIN_ORD)
    rw [sized.nmarks hk]
    exact hb

theorem blocks_of_page (hk : k ≤ 6) : 2 ^ (k + MIN_ORD) * 2 ^ (6 - k) = 4096 := by
  rw [← pow_add, show k + MIN_ORD + (6 - k) = 12 by show k + 6 + (6 - k) = 12; omega]
  rfl

/-- A block of the heap is aligned and lies inside. -/
theorem Sized.block_inside (sized : Sized N P km) (hk : k ≤ 6) (hb : b < P * 2 ^ (6 - k)) :
    (km.block k b).1 % 2 ^ (km.block k b).2 = 0 ∧ km.startHeap ≤ (km.block k b).1 ∧
      (km.block k b).1 + 2 ^ (km.block k b).2 ≤ km.end_ := by
  have page := blocks_of_page hk
  simp only [Kmem.block, Kmem.blkid2mem]
  refine ⟨?_, Nat.le_add_right _ _, ?_⟩
  · rw [Nat.add_mul_mod_self_left]
    apply Nat.mod_eq_zero_of_dvd
    apply Nat.dvd_trans _ (Nat.dvd_of_mod_eq_zero sized.aligned)
    exact Dvd.intro _ page
  · have last : 2 ^ (k + MIN_ORD) * b + 2 ^ (k + MIN_ORD) ≤ 4096 * P :=
      calc 2 ^ (k + MIN_ORD) * b + 2 ^ (k + MIN_ORD) = 2 ^ (k + MIN_ORD) * (b + 1) := by
            rw [Nat.mul_add, Nat.mul_one]
        _ ≤ 2 ^ (k + MIN_ORD) * (P * 2 ^ (6 - k)) := Nat.mul_le_mul_left _ hb
        _ = 4096 * P := by rw [← page, Nat.mul_left_comm, Nat.mul_comm P, Nat.mul_comm]
    have := sized.pages
    have := Nat.two_pow_pos (k + MIN_ORD)
    omega

/-- `kfree` on a block of the heap, past its checks of order and alignment. -/
theorem Sized.kfree_block (sized : Sized N P km) (hk : k ≤ 6) (hb : b < P * 2 ^ (6 - k)) :
    km.kfree (km.blkid2mem (k + MIN_ORD) b) (k + MIN_ORD) =
      Kmem.kfreeAt (6 - k) (km.blkid2mem (k + MIN_ORD) b) km := by
  have aligned : km.blkid2mem (k + MIN_ORD) b % 2 ^ (k + MIN_ORD) = 0 :=
    (sized.block_inside hk hb).1
  unfold Kmem.kfree
  rw [if_neg, show MAX_ORD - (k + MIN_ORD) = 6 - k by show 12 - (k + 6) = 6 - k; omega]
  intro refused
  rcases refused with above | below | unaligned
  · have above : 12 < k + 6 := above
    omega
  · have below : k + 6 < 6 := below
    omega
  · exact unaligned aligned

end Blocks

/-! ## Clients -/

/-- The number of an order in range. -/
theorem exists_level {order : Nat} (low : MIN_ORD ≤ order) (high : order ≤ MAX_ORD) :
    ∃ k ≤ 6, order = k + MIN_ORD := by
  have high : order ≤ 12 := high
  have low : 6 ≤ order := low
  exact ⟨order - 6, by omega, by show order = order - 6 + 6; omega⟩

inductive HeapCall where
  | kmalloc (order : Nat)
  | kfree (mem order : Nat)

inductive HeapObs where
  | returned (order mem : Nat)
  | panicked (p : KmemPanic)
  deriving DecidableEq

/-- The allocator with the live blocks, as (address, order). -/
structure Client where
  km : Kmem
  live : Finset (Nat × Nat)

namespace Client

/-- One call.  A client asks for orders in range and frees live blocks only. -/
def step (c : Client) : HeapCall → Option (Client × List HeapObs)
  | .kmalloc order =>
    if MIN_ORD ≤ order ∧ order ≤ MAX_ORD then
      match c.km.kmalloc order with
      | .error p => some (c, [.panicked p])
      | .ok (mem, km) =>
        some (⟨km, if mem = 0 then c.live else insert (mem, order) c.live⟩,
          [.returned order mem])
    else none
  | .kfree mem order =>
    if (mem, order) ∈ c.live then
      match c.km.kfree mem order with
      | .error p => some (c, [.panicked p])
      | .ok km => some (⟨km, c.live.erase (mem, order)⟩, [])
    else none

/-- The live blocks by level and block number. -/
def held (c : Client) : Blocks := {x | c.km.block x.1 x.2 ∈ c.live}

structure Inv (N P : Nat) (km0 : Kmem) (c : Client) : Prop where
  heap : HeapInv N P c.held c.km
  placed : ∀ x ∈ c.live, ∃ k b, x = c.km.block k b
  bounds : c.km.bounds = km0.bounds

variable {N P : Nat} {km0 : Kmem} {c : Client}

theorem block_congr {km km' : Kmem} (same : km'.bounds = km.bounds) (k b : Nat) :
    km'.block k b = km.block k b := by
  unfold Kmem.block
  rw [blkid2mem_congr same]

theorem held_insert {km' : Kmem} (same : km'.bounds = c.km.bounds) (k b : Nat) :
    held ⟨km', insert (c.km.block k b) c.live⟩ = insert (k, b) c.held := by
  ext ⟨j, a⟩
  simp only [held, Set.mem_ofPred_eq, Finset.mem_insert, Set.mem_insert_iff, Prod.mk.injEq,
    block_congr same]
  refine or_congr ⟨block_inj, fun both => ?_⟩ Iff.rfl
  rw [both.1, both.2]

theorem held_erase {km' : Kmem} (same : km'.bounds = c.km.bounds) (k b : Nat) :
    held ⟨km', c.live.erase (c.km.block k b)⟩ = c.held \ {(k, b)} := by
  ext ⟨j, a⟩
  simp only [held, Set.mem_ofPred_eq, Finset.mem_erase, Set.mem_sdiff, Set.mem_singleton_iff,
    Prod.mk.injEq, block_congr same]
  rw [and_comm]
  refine and_congr Iff.rfl (not_congr ⟨block_inj, fun both => ?_⟩)
  rw [both.1, both.2]

/-- What a call of `kmalloc` does. -/
theorem Inv.kmalloc (inv : Inv N P km0 c) {k : Nat} (hk : k ≤ 6) :
    (c.km.kmalloc (k + MIN_ORD) = .ok (0, c.km) ∧ ∀ b < P * 2 ^ (6 - k), ¬ Clear c.held k b) ∨
      ∃ b km', c.km.kmalloc (k + MIN_ORD) = .ok (c.km.blkid2mem (k + MIN_ORD) b, km') ∧
        b < P * 2 ^ (6 - k) ∧ Clear c.held k b ∧
        Inv N P km0 ⟨km', insert (c.km.block k b) c.live⟩ := by
  have unfolded : c.km.kmalloc (k + MIN_ORD) = Kmem.kmallocAt (6 - k) c.km := by
    unfold Kmem.kmalloc
    rw [if_neg (by show ¬ (12 < k + 6 ∨ k + 6 < 6); omega),
      show MAX_ORD - (k + MIN_ORD) = 6 - k by show 12 - (k + 6) = 6 - k; omega]
  rw [unfolded]
  rcases HeapInv.kmallocAt (6 - k) (k := k) (by omega) inv.heap with
    ⟨failed, none_⟩ | ⟨b, km', got, clear, heap, bounds⟩
  · exact Or.inl ⟨failed, fun b hb => inv.heap.no_clear_block none_ hk hb⟩
  · have small := (heap.forest.tiles.bounded k b (Or.inr (Or.inl rfl))).2
    refine Or.inr ⟨b, km', got, small, clear, ?_, ?_, bounds.trans inv.bounds⟩
    · rw [held_insert bounds]
      exact heap
    · intro x member
      simp only [block_congr bounds]
      rcases Finset.mem_insert.1 member with same | old
      · exact ⟨k, b, same⟩
      · exact inv.placed x old

/-- What a call of `kfree` does to a live block. -/
theorem Inv.kfree (inv : Inv N P km0 c) {mem order : Nat} (live : (mem, order) ∈ c.live) :
    ∃ km', c.km.kfree mem order = .ok km' ∧ Inv N P km0 ⟨km', c.live.erase (mem, order)⟩ := by
  obtain ⟨k, b, same⟩ := inv.placed _ live
  have member : (k, b) ∈ c.held := by
    show c.km.block k b ∈ c.live
    rwa [← same]
  obtain ⟨hk, hb⟩ := inv.heap.forest.tiles.bounded k b (Or.inr member)
  obtain ⟨km', freed, heap, bounds⟩ := HeapInv.kfreeAt (6 - k) (by omega) inv.heap member
  rw [← held_erase bounds] at heap
  rw [same]
  refine ⟨km', ?_, heap, ?_, bounds.trans inv.bounds⟩
  · obtain ⟨rfl, rfl⟩ := Prod.mk.inj same
    rw [inv.heap.sized.kfree_block hk hb]
    exact freed
  · intro x inside
    simp only [block_congr bounds]
    exact inv.placed x (Finset.mem_of_mem_erase inside)

/-- What `kmalloc` has returned are blocks of the heap. -/
def Returned (P : Nat) (km0 : Kmem) (seen : List HeapObs) : Prop :=
  ∀ order mem, .returned order mem ∈ seen → mem ≠ 0 →
    ∃ k ≤ 6, ∃ b < P * 2 ^ (6 - k), km0.block k b = (mem, order)

/-- **One call keeps the invariant**, does not panic and returns a block of the heap. -/
theorem Inv.step (inv : Inv N P km0 c) {call : HeapCall} {c' : Client} {more : List HeapObs}
    (called : c.step call = some (c', more)) :
    Inv N P km0 c' ∧ (∀ p, HeapObs.panicked p ∉ more) ∧ Returned P km0 more := by
  cases call with
  | kmalloc order =>
    rw [Client.step] at called
    split at called
    case isTrue range =>
      obtain ⟨k, hk, rfl⟩ := exists_level range.1 range.2
      rcases inv.kmalloc hk with ⟨failed, -⟩ | ⟨b, km', got, hb, -, inv'⟩
      · simp only [failed, if_true, Option.some.injEq, Prod.mk.injEq] at called
        obtain ⟨rfl, rfl⟩ := called
        refine ⟨inv, by simp, fun _ _ shown nonzero => absurd ?_ nonzero⟩
        exact (HeapObs.returned.inj (List.mem_singleton.1 shown)).2
      · simp only [got, if_neg (inv.heap.blkid2mem_ne_zero _ b), Option.some.injEq,
          Prod.mk.injEq] at called
        obtain ⟨rfl, rfl⟩ := called
        refine ⟨inv', by simp, fun _ _ shown _ => ⟨k, hk, b, hb, ?_⟩⟩
        obtain ⟨rfl, rfl⟩ := HeapObs.returned.inj (List.mem_singleton.1 shown)
        rw [← block_congr inv.bounds]
        rfl
    case isFalse => cases called
  | kfree mem order =>
    rw [Client.step] at called
    split at called
    case isTrue live =>
      obtain ⟨km', freed, inv'⟩ := inv.kfree live
      simp only [freed, Option.some.injEq, Prod.mk.injEq] at called
      obtain ⟨rfl, rfl⟩ := called
      exact ⟨inv', by simp, fun _ _ shown => absurd shown List.not_mem_nil⟩
    case isFalse => cases called

/-- The invariant in every run. -/
theorem Inv.run (inv : Inv N P km0 c) {calls : List HeapCall} {c' : Client} {seen : List HeapObs}
    (ran : Machine.run Client.step c calls = some (c', seen)) :
    Inv N P km0 c' ∧ (∀ p, HeapObs.panicked p ∉ seen) ∧ Returned P km0 seen := by
  refine Machine.run_keeps (I := fun seen c =>
      Inv N P km0 c ∧ (∀ p, HeapObs.panicked p ∉ seen) ∧ Returned P km0 seen)
    (fun seen c call c' more holds called => ?_) calls [] c c' seen
    ⟨inv, fun p => List.not_mem_nil, fun _ _ shown => absurd shown List.not_mem_nil⟩ ran
  obtain ⟨inv, fine, returned⟩ := holds
  obtain ⟨inv', fine', returned'⟩ := inv.step called
  refine ⟨inv', fun p member => (List.mem_append.1 member).elim (fine p) (fine' p), ?_⟩
  exact fun order mem shown => (List.mem_append.1 shown).elim (returned order mem) (returned' order mem)

/-- Right after `kmem_init2` nothing is live. -/
theorem Inv.start (heap : HeapInv N P ∅ km0) : Inv N P km0 ⟨km0, ∅⟩ := by
  refine ⟨?_, fun x none_ => absurd none_ (Finset.notMem_empty x), rfl⟩
  have none_ : held ⟨km0, ∅⟩ = ∅ := by
    ext x
    simp [held]
  rwa [none_]

/-- The blocks of the heap: live or available. -/
def InHeap (c : Client) (x : Nat × Nat) : Prop := x ∈ c.live ∨ c.km.Available x

/-- Live and available blocks cover the heap exactly, without overlap. -/
structure Tiled (c : Client) : Prop where
  inside : ∀ x, c.InHeap x →
    x.1 % 2 ^ x.2 = 0 ∧ c.km.startHeap ≤ x.1 ∧ x.1 + 2 ^ x.2 ≤ c.km.end_
  apart : ∀ x ∈ c.live, ¬ c.km.Available x
  disjoint : ∀ x y a, c.InHeap x → c.InHeap y → Covers x a → Covers y a → x = y
  cover : ∀ a, c.km.startHeap ≤ a → a < c.km.end_ → ∃ x, c.InHeap x ∧ Covers x a

theorem Inv.inHeap_iff (inv : Inv N P km0 c) (x : Nat × Nat) :
    c.InHeap x ↔ ∃ k b, (k, b) ∈ c.km.free N ∪ c.held ∧ x = c.km.block k b := by
  constructor
  · intro member
    rcases member with live | avail
    · obtain ⟨k, b, rfl⟩ := inv.placed x live
      exact ⟨k, b, Or.inr live, rfl⟩
    · obtain ⟨k, b, free, same⟩ := (inv.heap.sized.available_iff x).1 avail
      exact ⟨k, b, Or.inl free, same⟩
  · intro found
    obtain ⟨k, b, free | live, rfl⟩ := found
    · exact Or.inr ((inv.heap.sized.available_iff _).2 ⟨k, b, free, rfl⟩)
    · exact Or.inl live

theorem Inv.tiled (inv : Inv N P km0 c) : c.Tiled where
  inside x member := by
    obtain ⟨k, b, inTiling, rfl⟩ := (inv.inHeap_iff x).1 member
    obtain ⟨hk, hb⟩ := inv.heap.forest.tiles.bounded k b inTiling
    exact inv.heap.sized.block_inside hk hb
  apart x live avail := by
    obtain ⟨k, b, free, rfl⟩ := (inv.heap.sized.available_iff x).1 avail
    exact inv.heap.forest.apart (k, b) free live
  disjoint x y a inX inY coversX coversY := by
    obtain ⟨j, d, inTiling, rfl⟩ := (inv.inHeap_iff x).1 inX
    obtain ⟨k, b, inTiling', rfl⟩ := (inv.inHeap_iff y).1 inY
    obtain ⟨rfl, rfl⟩ := inv.heap.forest.eq_of_cell inTiling inTiling'
      ((covers_block ..).1 coversX).2 ((covers_block ..).1 coversY).2
    rfl
  cover a low high := by
    have pages := inv.heap.sized.pages
    obtain ⟨k, inTiling⟩ := inv.heap.forest.tiles.cover ((a - c.km.startHeap) / 64)
      (by show _ < P * 64; omega)
    exact ⟨_, (inv.inHeap_iff _).2 ⟨k, _, inTiling, rfl⟩, (covers_block ..).2 ⟨low, rfl⟩⟩

/-- A block is clear of the held ones when it shares no address with a live one. -/
theorem Inv.clear_iff (inv : Inv N P km0 c) (k b : Nat) :
    Clear c.held k b ↔ ∀ x ∈ c.live, ∀ a, ¬ (Covers (c.km.block k b) a ∧ Covers x a) := by
  constructor
  · intro clear x live a both
    obtain ⟨j, d, rfl⟩ := inv.placed x live
    have cell := ((covers_block ..).1 both.1).2
    have cell' := ((covers_block ..).1 both.2).2
    refine clear _ cell j ?_
    rw [cell']
    exact live
  · intro apart cell inside j held
    -- the first address of the cell
    refine apart _ held (c.km.startHeap + 64 * cell) ⟨?_, ?_⟩
    · rw [covers_block, Nat.add_sub_cancel_left, Nat.mul_div_cancel_left _ (by decide)]
      exact ⟨Nat.le_add_right _ _, inside⟩
    · rw [covers_block, Nat.add_sub_cancel_left, Nat.mul_div_cancel_left _ (by decide)]
      exact ⟨Nat.le_add_right _ _, rfl⟩

/-- An aligned stretch of the heap is one of its blocks. -/
theorem Inv.aligned_block (inv : Inv N P km0 c) {k mem : Nat} (hk : k ≤ 6)
    (aligned : mem % 2 ^ (k + MIN_ORD) = 0) (low : c.km.startHeap ≤ mem)
    (high : mem + 2 ^ (k + MIN_ORD) ≤ c.km.end_) :
    ∃ b < P * 2 ^ (6 - k), c.km.block k b = (mem, k + MIN_ORD) := by
  have page := blocks_of_page hk
  have startAligned : 2 ^ (k + MIN_ORD) ∣ c.km.startHeap :=
    Nat.dvd_trans (Dvd.intro _ page) (Nat.dvd_of_mod_eq_zero inv.heap.sized.aligned)
  obtain ⟨b, offset⟩ := Nat.dvd_sub (Nat.dvd_of_mod_eq_zero aligned) startAligned
  refine ⟨b, ?_, ?_⟩
  · have pages := inv.heap.sized.pages
    have last : 2 ^ (k + MIN_ORD) * (b + 1) ≤ 2 ^ (k + MIN_ORD) * (P * 2 ^ (6 - k)) :=
      calc 2 ^ (k + MIN_ORD) * (b + 1) = mem - c.km.startHeap + 2 ^ (k + MIN_ORD) := by
            rw [Nat.mul_add, Nat.mul_one, offset]
        _ ≤ 4096 * P := by omega
        _ = 2 ^ (k + MIN_ORD) * (P * 2 ^ (6 - k)) := by
            rw [← page, Nat.mul_assoc, Nat.mul_comm P]
    exact Nat.le_of_mul_le_mul_left last (Nat.two_pow_pos _)
  · unfold Kmem.block Kmem.blkid2mem
    rw [← offset, Nat.add_sub_cancel' low]

/-- **The bitmaps are a function of the live blocks.** -/
theorem Inv.bitmap_eq {c' : Client} (inv : Inv N P km0 c) (inv' : Inv N P km0 c')
    (sameLive : c'.live = c.live) {k i : Nat} (hk : k ≤ 6) (hi : i < width N k) :
    (c'.km.getMark (k + MIN_ORD) i).bitmap = (c.km.getMark (k + MIN_ORD) i).bitmap := by
  have sameHeld : c'.held = c.held := by
    ext x
    simp only [held, Set.mem_ofPred_eq, block_congr (inv'.bounds.trans inv.bounds.symm), sameLive]
  have sameFree : ∀ b, (k, b) ∈ c'.km.free N ↔ (k, b) ∈ c.km.free N := by
    intro b
    rw [inv'.heap.forest.mem_free_iff, inv.heap.forest.mem_free_iff, sameHeld]
  apply BitVec.eq_of_getLsbD_eq
  intro n hn
  rw [Bool.eq_iff_iff, ← mem_free_bit hk hi hn, ← mem_free_bit hk hi hn]
  exact sameFree _

end Client

/-- An aligned block of the heap, clear of the live ones. -/
def Client.Room (c : Client) (order start : Nat) : Prop :=
  start % 2 ^ order = 0 ∧ c.km.startHeap ≤ start ∧ start + 2 ^ order ≤ c.km.end_ ∧
    ∀ x ∈ c.live, ∀ a, ¬ (Covers (start, order) a ∧ Covers x a)

/-- **`kmalloc` returns such a block, if there is one.** -/
theorem Client.Inv.kmalloc_room {N P : Nat} {km0 : Kmem} {c : Client} (inv : Client.Inv N P km0 c)
    {order : Nat} (low : MIN_ORD ≤ order) (high : order ≤ MAX_ORD) :
    ∃ mem km', c.km.kmalloc order = .ok (mem, km') ∧
      (mem = 0 ∧ (∀ start, ¬ c.Room order start) ∨ mem ≠ 0 ∧ c.Room order mem) := by
  obtain ⟨k, hk, rfl⟩ := exists_level low high
  rcases inv.kmalloc hk with ⟨failed, none_⟩ | ⟨b, km', got, hb, clear, -⟩
  · refine ⟨0, c.km, failed, Or.inl ⟨rfl, fun start room => ?_⟩⟩
    obtain ⟨aligned, low, high, apart⟩ := room
    obtain ⟨b, hb, same⟩ := inv.aligned_block hk aligned low high
    rw [← same] at apart
    exact none_ b hb ((inv.clear_iff k b).2 apart)
  · obtain ⟨aligned, inLow, inHigh⟩ := inv.heap.sized.block_inside hk hb
    refine ⟨_, km', got, Or.inr ⟨inv.heap.blkid2mem_ne_zero _ b, ?_⟩⟩
    exact ⟨aligned, inLow, inHigh, (inv.clear_iff k b).1 clear⟩

/-- **Buddy allocator safety and conservation.**  `kmem_init2` succeeds whatever the
memory holds.  In every run of calls after it no call panics, live and available
blocks tile the heap, and a block `kmalloc` returns is aligned, inside the heap and
disjoint from all live ones. -/
theorem buddy_safe {vstart vend : Nat} (region : Region vstart vend) (km : Kmem) :
    ∃ km0, Kmem.kmemInit2 vstart vend km = .ok km0 ∧ km0.end_ = vend ∧
      ∀ calls c seen, Machine.run Client.step ⟨km0, ∅⟩ calls = some (c, seen) →
        (∀ p, HeapObs.panicked p ∉ seen) ∧ c.km.bounds = km0.bounds ∧ c.Tiled ∧
          ∀ order mem c', c.step (.kmalloc order) = some (c', [.returned order mem]) → mem ≠ 0 →
            mem % 2 ^ order = 0 ∧ c.km.startHeap ≤ mem ∧ mem + 2 ^ order ≤ c.km.end_ ∧
              (∀ x ∈ c.live, ∀ a, ¬ (Covers (mem, order) a ∧ Covers x a)) ∧
              c'.live = insert (mem, order) c.live := by
  obtain ⟨N, P, km0, ready, heap, -, endIs⟩ := kmemInit2_spec region km
  refine ⟨km0, ready, endIs, fun calls c seen ran => ?_⟩
  obtain ⟨inv, fine, -⟩ := (Client.Inv.start heap).run ran
  refine ⟨fine, inv.bounds, inv.tiled, fun order mem c' called nonzero => ?_⟩
  rw [Client.step] at called
  split at called
  case isFalse => cases called
  case isTrue range =>
    obtain ⟨mem', km', got, null | ⟨-, aligned, low, high, apart⟩⟩ := inv.kmalloc_room range.1 range.2
    all_goals
      simp only [got, Option.some.injEq, Prod.mk.injEq, List.cons.injEq,
        HeapObs.returned.injEq] at called
      obtain ⟨rfl, ⟨-, rfl⟩, -⟩ := called
    · exact absurd null.1 nonzero
    · exact ⟨aligned, low, high, apart, if_neg nonzero⟩

/-- A page of marks and a heap of three pages. -/
theorem region_pages : Region 0x80100000 0x80104000 := by
  constructor <;> decide

/-- A page is split for 64 and for 128 bytes, and is whole again when both are free. -/
def splitAndMerge : List HeapCall :=
  [.kmalloc 6, .kmalloc 7, .kfree 0x80101000 6, .kfree 0x80101080 7, .kmalloc 12]

theorem splitAndMerge_ran {km0 : Kmem} (ready : Kmem.kmemInit2 0x80100000 0x80104000 noHeap = .ok km0) :
    ∃ c c' c'', Machine.run Client.step ⟨km0, ∅⟩ splitAndMerge =
        some (c, [.returned 6 0x80101000, .returned 7 0x80101080, .returned 12 0x80101000]) ∧
      c.step (.kmalloc 6) = some (c', [.returned 6 0x80102000]) ∧
      Machine.run Client.step ⟨km0, ∅⟩ [.kmalloc 12] = some (c'', [.returned 12 0x80101000]) ∧
      c.live = {(0x80101000, 12)} ∧ c''.live = {(0x80101000, 12)} := by
  have shown : (Kmem.kmemInit2 0x80100000 0x80104000 noHeap).toOption.any (fun km0 =>
      (Machine.run Client.step ⟨km0, ∅⟩ splitAndMerge).any fun r =>
        decide (r.2 = [.returned 6 0x80101000, .returned 7 0x80101080, .returned 12 0x80101000] ∧
          r.1.live = {(0x80101000, 12)}) &&
        (r.1.step (.kmalloc 6)).any (fun r' => decide (r'.2 = [.returned 6 0x80102000])) &&
        (Machine.run Client.step ⟨km0, ∅⟩ [.kmalloc 12]).any fun r' =>
          decide (r'.2 = [.returned 12 0x80101000] ∧ r'.1.live = {(0x80101000, 12)})) = true := by
    decide +kernel
  rw [ready] at shown
  simp only [Except.toOption, Option.any_some, Option.any_eq_true, Bool.and_eq_true,
    decide_eq_true_eq] at shown
  obtain ⟨⟨c, _⟩, ran, ⟨⟨rfl, live⟩, ⟨c', _⟩, next, rfl⟩, ⟨c'', _⟩, ran', rfl, live'⟩ := shown
  exact ⟨c, c', c'', ran, next, ran', live, live'⟩

/-- After `splitAndMerge` 64 bytes are taken from the next page. -/
theorem buddy_safe_split : ∃ km0 c c', Kmem.kmemInit2 0x80100000 0x80104000 noHeap = .ok km0 ∧
    Machine.run Client.step ⟨km0, ∅⟩ splitAndMerge =
      some (c, [.returned 6 0x80101000, .returned 7 0x80101080, .returned 12 0x80101000]) ∧
    c.Tiled ∧ c.live = {(0x80101000, 12)} ∧
    c.step (.kmalloc 6) = some (c', [.returned 6 0x80102000]) ∧
    (∀ a, ¬ (Covers (0x80102000, 6) a ∧ Covers (0x80101000, 12) a)) ∧
    c'.live = {(0x80102000, 6), (0x80101000, 12)} := by
  obtain ⟨km0, ready, -, runs⟩ := buddy_safe region_pages noHeap
  obtain ⟨c, c', -, ran, next, -, live, -⟩ := splitAndMerge_ran ready
  obtain ⟨-, -, tiled, returns⟩ := runs _ c _ ran
  obtain ⟨-, -, -, apart, live'⟩ := returns 6 _ c' next (by decide)
  rw [live] at apart live'
  exact ⟨km0, c, c', ready, ran, tiled, live, next, apart _ (Finset.mem_singleton_self _), live'⟩

/-- **Buddy canonical form and completeness.**  In every run after `kmem_init2` no two
buddies below `MAX_ORD` are both available, runs with the same live blocks have the
same bitmaps, and `kmalloc` returns `NULL` exactly if no aligned block of the heap
is clear of the live ones. -/
theorem buddy_canonical {vstart vend : Nat} (region : Region vstart vend) (km : Kmem) :
    ∃ km0, Kmem.kmemInit2 vstart vend km = .ok km0 ∧
      ∀ calls c seen, Machine.run Client.step ⟨km0, ∅⟩ calls = some (c, seen) →
        (∀ order b, MIN_ORD ≤ order → order < MAX_ORD → b < 32 * c.km.nmarks order →
          ¬ (available (c.km.getMark order (b >>> 5)).bitmap b = true ∧
            available (c.km.getMark order ((b ^^^ 1) >>> 5)).bitmap (b ^^^ 1) = true)) ∧
        (∀ calls' c' seen', Machine.run Client.step ⟨km0, ∅⟩ calls' = some (c', seen') →
          c'.live = c.live → ∀ order i, MIN_ORD ≤ order → order ≤ MAX_ORD →
            i < c.km.nmarks order →
            (c'.km.getMark order i).bitmap = (c.km.getMark order i).bitmap) ∧
        ∀ order, MIN_ORD ≤ order → order ≤ MAX_ORD →
          ∃ mem km', c.km.kmalloc order = .ok (mem, km') ∧
            (mem = 0 ↔ ¬ ∃ start, start % 2 ^ order = 0 ∧ c.km.startHeap ≤ start ∧
              start + 2 ^ order ≤ c.km.end_ ∧
              ∀ x ∈ c.live, ∀ a, ¬ (Covers (start, order) a ∧ Covers x a)) := by
  obtain ⟨N, P, km0, ready, heap, -, -⟩ := kmemInit2_spec region km
  refine ⟨km0, ready, fun calls c seen ran => ?_⟩
  obtain ⟨inv, -⟩ := (Client.Inv.start heap).run ran
  refine ⟨fun order b low high small both => ?_, fun calls' c' seen' ran' sameLive order i low high
    small => ?_, fun order low high => ?_⟩
  · obtain ⟨k, hk, rfl⟩ := exists_level low high.le
    have below : k + 6 < 12 := high
    rw [inv.heap.sized.nmarks hk] at small
    have own : (k, b) ∈ c.km.free N := ⟨hk, small, both.1⟩
    have other := both.2
    rw [show b ^^^ 1 = buddy b from rfl, buddy_mark] at other
    exact inv.heap.forest.not_both_free (by omega) own ((available_buddy _ hk small).1 other)
  · obtain ⟨k, hk, rfl⟩ := exists_level low high
    obtain ⟨inv', -⟩ := (Client.Inv.start heap).run ran'
    rw [inv.heap.sized.nmarks hk] at small
    exact inv.bitmap_eq inv' sameLive hk small
  · obtain ⟨mem, km', got, ⟨null, none_⟩ | ⟨nonzero, room⟩⟩ := inv.kmalloc_room low high
    · exact ⟨mem, km', got, iff_of_true null fun found => none_ found.choose found.choose_spec⟩
    · exact ⟨mem, km', got, iff_of_false nonzero (not_not.2 ⟨mem, room⟩)⟩

/-- After `splitAndMerge` the bitmaps are as if the page had been asked for at once, and a page can
be had exactly if one is clear of it. -/
theorem buddy_canonical_split : ∃ km0 c c', Kmem.kmemInit2 0x80100000 0x80104000 noHeap = .ok km0 ∧
    Machine.run Client.step ⟨km0, ∅⟩ splitAndMerge =
      some (c, [.returned 6 0x80101000, .returned 7 0x80101080, .returned 12 0x80101000]) ∧
    Machine.run Client.step ⟨km0, ∅⟩ [.kmalloc 12] = some (c', [.returned 12 0x80101000]) ∧
    (∀ order i, MIN_ORD ≤ order → order ≤ MAX_ORD → i < c.km.nmarks order →
      (c'.km.getMark order i).bitmap = (c.km.getMark order i).bitmap) ∧
    ∃ mem km', c.km.kmalloc 12 = .ok (mem, km') ∧
      (mem = 0 ↔ ¬ ∃ start, start % 2 ^ 12 = 0 ∧ c.km.startHeap ≤ start ∧
        start + 2 ^ 12 ≤ c.km.end_ ∧
        ∀ a, ¬ (Covers (start, 12) a ∧ Covers (0x80101000, 12) a)) := by
  obtain ⟨km0, ready, runs⟩ := buddy_canonical region_pages noHeap
  obtain ⟨c, -, c', ran, -, ran', live, live'⟩ := splitAndMerge_ran ready
  obtain ⟨-, same, complete⟩ := runs _ c _ ran
  obtain ⟨mem, km', got, null⟩ := complete 12 (by decide) (by decide)
  simp only [live, Finset.mem_singleton, forall_eq] at null
  exact ⟨km0, c, c', ready, ran, ran', same _ c' _ ran' (live'.trans live.symm), mem, km', got, null⟩

end Xv6Rpi.Kernel
