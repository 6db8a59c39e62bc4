/-
# Kernel.BuddyDouble -- which double frees the buddy allocator detects

`_kfree` looks for a double free at one place, the availability bit of the block at its
own order.  Once the block has been merged with its buddy that bit is clear, and so is
the buddy's: the second `kfree` marks the block available next to the larger block that
already contains it.

* `kfree_detects_iff`: a second `kfree` panics exactly if the block has order `MAX_ORD`
  or the block of the next order around it overlaps a live one, that is, if it is not
  merged; otherwise it returns and changes the state;
* `kfree_misses`: one allocation freed twice after boot.
-/
import Xv6Rpi.Kernel.BuddyHeap

namespace Xv6Rpi.Kernel

open Theory
open Theory.Dyadic (Blocks Forest Clear buddy)

set_option autoImplicit false

section Bits

variable {N P k b : Nat} {H : Blocks} {km : Kmem}

/-- `_kfree` finds an available block at its own order. -/
theorem kfreeAt_available (free : (k, b) ∈ km.free N) :
    Kmem.kfreeAt (6 - k) (km.blkid2mem (k + MIN_ORD) b) km = .error .kfreeDoubleFree := by
  obtain ⟨hk, -, on⟩ := mem_free.1 free
  cases above : 6 - k with
  | zero =>
    obtain rfl : k = 6 := by omega
    have order : (6 : Nat) + MIN_ORD = MAX_ORD := rfl
    rw [order] at on
    rw [order, Kmem.kfreeAt, mem2blkid_blkid2mem]
    simp only [on, if_true]
  | succ n =>
    have order : MAX_ORD - (n + 1) = k + MIN_ORD := by
      show 12 - (n + 1) = k + 6
      omega
    rw [Kmem.kfreeAt, order, mem2blkid_blkid2mem]
    simp only [on, if_true]

/-- A block inside a larger free block is not available, and neither is its buddy. -/
theorem HeapInv.not_free_of_above (inv : HeapInv N P H km) {j : Nat}
    (above : (k + (j + 1), b / 2 ^ (j + 1)) ∈ km.free N) {a : Nat} (half : a / 2 = b / 2) :
    (k, a) ∉ km.free N := by
  intro free
  have cell : a * 2 ^ k / 2 ^ (k + (j + 1)) = b / 2 ^ (j + 1) := by
    rw [Dyadic.div_pow_add, Dyadic.first_cell, Nat.add_comm j 1, Dyadic.div_pow_add,
      Dyadic.div_pow_add, pow_one, half]
  have := (inv.forest.eq_of_cell (Or.inl free) (Or.inl above) (Dyadic.first_cell k a) cell).1
  omega

/-- `_kfree` marks a block available that a larger free block contains. -/
theorem HeapInv.kfreeAt_merged (inv : HeapInv N P H km) {j : Nat} (top : k + (j + 1) ≤ 6)
    (hb : b < 32 * width N k) (above : (k + (j + 1), b / 2 ^ (j + 1)) ∈ km.free N) :
    ∃ km', Kmem.kfreeAt (6 - k) (km.blkid2mem (k + MIN_ORD) b) km = .ok km' ∧ km' ≠ km := by
  have hk : k ≤ 6 := by omega
  have notFree : (k, b) ∉ km.free N := inv.not_free_of_above above rfl
  have off : available (km.getMark (k + MIN_ORD) (b >>> 5)).bitmap b = false :=
    Bool.eq_false_iff.2 fun bit => notFree ⟨hk, hb, bit⟩
  have buddyOff : available (km.getMark (k + MIN_ORD) (b >>> 5)).bitmap (b ^^^ 1) = false := by
    apply Bool.eq_false_iff.2
    intro bit
    exact inv.not_free_of_above above (Dyadic.buddy_div b) ((available_buddy _ hk hb).1 bit)
  obtain ⟨km', marked, -, -, freeIs, -⟩ := markBlk_spec inv.wf hk hb notFree
  refine ⟨km', ?_, fun same => ?_⟩
  · obtain ⟨n, levels⟩ : ∃ n, 6 - k = n + 1 := ⟨5 - k, by omega⟩
    have order : MAX_ORD - (n + 1) = k + MIN_ORD := by
      show 12 - (n + 1) = k + 6
      omega
    rw [levels, Kmem.kfreeAt, order, mem2blkid_blkid2mem]
    simp only [off, buddyOff, Bool.false_eq_true, if_false, if_true]
    exact marked
  · apply notFree
    rw [← same, freeIs]
    exact Or.inl rfl

end Bits

/-- The block of the next order that contains a block. -/
def around (x : Nat × Nat) : Nat × Nat := (x.1 / 2 ^ (x.2 + 1) * 2 ^ (x.2 + 1), x.2 + 1)

namespace Client

variable {N P : Nat} {km0 : Kmem} {c : Client}

/-- The block of the next level around a block. -/
theorem Inv.around_block (inv : Inv N P km0 c) {k : Nat} (below : k < 6) (b : Nat) :
    around (c.km.block k b) = c.km.block (k + 1) (b / 2) := by
  have page := blocks_of_page (k := k + 1) (by omega)
  obtain ⟨start, aligned⟩ : 2 ^ (k + 1 + MIN_ORD) ∣ c.km.startHeap :=
    (Dvd.intro _ page).trans (Nat.dvd_of_mod_eq_zero inv.heap.sized.aligned)
  have orders : k + MIN_ORD + 1 = k + 1 + MIN_ORD := by omega
  have double : 2 ^ (k + 1 + MIN_ORD) = 2 ^ (k + MIN_ORD) * 2 := by rw [← orders, pow_succ]
  simp only [around, Kmem.block, Kmem.blkid2mem, orders, aligned, Prod.mk.injEq, and_true]
  rw [Nat.mul_add_div (Nat.two_pow_pos _), Nat.add_mul, Nat.mul_comm start]
  rw [double, Nat.mul_div_mul_left _ _ (Nat.two_pow_pos _), Nat.mul_comm (b / 2)]

/-- **A second `kfree`** of a block that overlaps no live one. -/
theorem Inv.kfree_clear (inv : Inv N P km0 c) {k b : Nat} (hk : k ≤ 6) (hb : b < P * 2 ^ (6 - k))
    (clear : Clear c.held k b) :
    (k = 6 ∨ ¬ Clear c.held (k + 1) (b / 2)) ∧
        c.km.kfree (c.km.blkid2mem (k + MIN_ORD) b) (k + MIN_ORD) = .error .kfreeDoubleFree ∨
      ¬ (k = 6 ∨ ¬ Clear c.held (k + 1) (b / 2)) ∧
        ∃ km', c.km.kfree (c.km.blkid2mem (k + MIN_ORD) b) (k + MIN_ORD) = .ok km' ∧
          km' ≠ c.km := by
  rw [inv.heap.sized.kfree_block hk hb]
  have freeIff : (k, b) ∈ c.km.free N ↔ k = 6 ∨ ¬ Clear c.held (k + 1) (b / 2) := by
    rw [inv.heap.forest.mem_free_iff]
    exact ⟨fun free => free.2.2.2, fun largest => ⟨hk, hb, clear, largest⟩⟩
  obtain ⟨j, top, above⟩ := inv.heap.forest.exists_free_above k b hk hb clear
  cases j with
  | zero =>
    have free : (k, b) ∈ c.km.free N := by simpa using above
    exact Or.inl ⟨freeIff.1 free, kfreeAt_available free⟩
  | succ j =>
    have notFree : (k, b) ∉ c.km.free N := inv.heap.not_free_of_above above rfl
    have marks : b < 32 * width N k := by
      have room := Nat.mul_le_mul_right (2 ^ (6 - k)) inv.heap.sized.room
      rw [Nat.mul_assoc] at room
      exact hb.trans_le room
    exact Or.inr ⟨mt freeIff.2 notFree, inv.heap.kfreeAt_merged top marks above⟩

end Client

/-- **Double frees that are detected.**  In every run after `kmem_init2`, take a block that
`kmalloc` returned, that was freed since and that overlaps no live block.  `kfree` panics
on it exactly if its order is `MAX_ORD` or the block of the next order around it overlaps
a live one; else it returns and has changed the allocator's state. -/
theorem kfree_detects_iff {vstart vend : Nat} (region : Region vstart vend) (km : Kmem) :
    ∃ km0, Kmem.kmemInit2 vstart vend km = .ok km0 ∧
      ∀ calls c seen, Machine.run Client.step ⟨km0, ∅⟩ calls = some (c, seen) →
        ∀ mem order, HeapObs.returned order mem ∈ seen → mem ≠ 0 →
          (∀ x ∈ c.live, ∀ a, ¬ (Covers (mem, order) a ∧ Covers x a)) →
          (c.km.kfree mem order = .error .kfreeDoubleFree ↔
            order = MAX_ORD ∨ ∃ x ∈ c.live, ∃ a, Covers (around (mem, order)) a ∧ Covers x a) ∧
          (c.km.kfree mem order ≠ .error .kfreeDoubleFree →
            ∃ km', c.km.kfree mem order = .ok km' ∧ km' ≠ c.km) := by
  obtain ⟨N, P, km0, ready, heap, -, -⟩ := kmemInit2_spec region km
  refine ⟨km0, ready, fun calls c seen ran mem order shown nonzero apart => ?_⟩
  obtain ⟨inv, -, returned⟩ := (Client.Inv.start heap).run ran
  obtain ⟨k, hk, b, hb, same⟩ := returned order mem shown nonzero
  rw [← Client.block_congr inv.bounds] at same
  rw [← same] at apart ⊢
  have condition : order = MAX_ORD ∨
      (∃ x ∈ c.live, ∃ a, Covers (around (c.km.block k b)) a ∧ Covers x a) ↔
      (k = 6 ∨ ¬ Clear c.held (k + 1) (b / 2)) := by
    obtain ⟨-, rfl⟩ := Prod.mk.inj same
    have top : k + MIN_ORD = MAX_ORD ↔ k = 6 := by
      show k + 6 = 12 ↔ k = 6
      omega
    rw [top]
    by_cases isTop : k = 6
    · simp [isTop]
    · rw [inv.around_block (by omega), inv.clear_iff]
      simp [isTop]
  obtain ⟨rfl, rfl⟩ := Prod.mk.inj same
  rw [condition]
  rcases inv.kfree_clear hk hb ((inv.clear_iff k b).2 apart) with ⟨met, found⟩ | ⟨unmet, km', freed, changed⟩
  · exact ⟨iff_of_true found met, fun missed => absurd found missed⟩
  · refine ⟨iff_of_false (fun found => ?_) unmet, fun _ => ⟨km', freed, changed⟩⟩
    rw [freed] at found
    cases found

section FreedTwice

variable {N P : Nat} {km0 : Kmem}

/-- One block is allocated and freed. -/
theorem HeapInv.once_freed (heap : HeapInv N P ∅ km0) (pages : 0 < P) {k : Nat} (hk : k ≤ 6) :
    ∃ mem c, mem ≠ 0 ∧ Machine.run Client.step ⟨km0, ∅⟩
        [.kmalloc (k + MIN_ORD), .kfree mem (k + MIN_ORD)] =
      some (c, [.returned (k + MIN_ORD) mem]) ∧ c.live = ∅ := by
  have inv := Client.Inv.start heap
  have range : MIN_ORD ≤ k + MIN_ORD ∧ k + MIN_ORD ≤ MAX_ORD := by
    refine ⟨Nat.le_add_left _ _, ?_⟩
    show k + 6 ≤ 12
    omega
  rcases inv.kmalloc hk with ⟨-, none_⟩ | ⟨b, km', got, -, -, inv'⟩
  · -- nothing is held yet
    refine absurd (fun _ _ _ held => ?_) (none_ 0 (Nat.mul_pos pages (Nat.two_pow_pos _)))
    exact absurd held (Finset.notMem_empty _)
  · have nonzero := heap.blkid2mem_ne_zero (k + MIN_ORD) b
    obtain ⟨km'', freed, -⟩ := inv'.kfree (Finset.mem_insert_self _ _)
    refine ⟨_, ⟨km'', ∅⟩, nonzero, ?_, rfl⟩
    have got : km0.kmalloc (k + MIN_ORD) = .ok (km0.blkid2mem (k + MIN_ORD) b, km') := got
    have freed : km'.kfree (km0.blkid2mem (k + MIN_ORD) b) (k + MIN_ORD) = .ok km'' := freed
    simp [Machine.run, Client.step, range, got, freed, nonzero]

/-- The heap of `main` has a page. -/
theorem main_has_page (km : Kmem) : ∃ N P km0, 0 < P ∧ HeapInv N P ∅ km0 ∧
    Kmem.kmemInit2 (KERNBASE + INIT_KERNMAP) (KERNBASE + PHYSTOP) km = .ok km0 := by
  obtain ⟨N, P, km0, ready, heap, startIs, heapIs, endIs⟩ := kmemInit2_laid region_main km
  refine ⟨N, P, km0, ?_, heap, ready⟩
  have marks := heap.sized.marks
  have pages := heap.sized.pages
  rw [endIs] at marks pages
  rw [startIs] at marks
  rw [heapIs] at pages
  obtain rfl : 1017 = N := marks
  unfold Kmem.alignPage at pages
  have pages : 0x88000000 - (0x80100000 + 1017 * 127 * 8 + 4095) / 4096 * 4096 = 4096 * P := pages
  omega

end FreedTwice

/-- A page freed twice is detected. -/
theorem kfree_detects_iff_page : ∃ km0 mem c, Kmem.kmemInit2 (KERNBASE + INIT_KERNMAP)
      (KERNBASE + PHYSTOP) noHeap = .ok km0 ∧
    Machine.run Client.step ⟨km0, ∅⟩ [.kmalloc 12, .kfree mem 12] = some (c, [.returned 12 mem]) ∧
    c.km.kfree mem 12 = .error .kfreeDoubleFree := by
  obtain ⟨km0, ready, runs⟩ :=
    kfree_detects_iff region_main noHeap
  obtain ⟨N, P, km1, pages, heap, ready'⟩ := main_has_page noHeap
  obtain rfl : km0 = km1 := Except.ok.inj (ready.symm.trans ready')
  obtain ⟨mem, c, nonzero, ran, none_⟩ := heap.once_freed pages (k := 6) le_rfl
  refine ⟨km0, mem, c, ready, ran, ?_⟩
  apply (runs _ c _ ran mem 12 List.mem_cons_self nonzero ?_).1.2
  · exact Or.inl rfl
  · intro x live
    rw [none_] at live
    exact absurd live (Finset.notMem_empty x)

/-- Right after boot: 64 bytes are allocated and freed, which merges them into their page
again, and then freed a second time. -/
theorem kfree_misses : ∃ km0 mem c km', Kmem.kmemInit2 (KERNBASE + INIT_KERNMAP)
      (KERNBASE + PHYSTOP) noHeap = .ok km0 ∧
    Machine.run Client.step ⟨km0, ∅⟩ [.kmalloc 6, .kfree mem 6] = some (c, [.returned 6 mem]) ∧
    mem ≠ 0 ∧ c.live = ∅ ∧ c.km.kfree mem 6 = .ok km' ∧ km' ≠ c.km := by
  obtain ⟨N, P, km0, pages, heap, ready⟩ := main_has_page noHeap
  obtain ⟨mem, c, nonzero, ran, none_⟩ := heap.once_freed pages (k := 0) (by decide)
  obtain ⟨inv, -, returned⟩ := (Client.Inv.start heap).run ran
  have clear : ∀ j a, Clear c.held j a := by
    intro j a cell _ i held
    have held : c.km.block i (cell / 2 ^ i) ∈ c.live := held
    rw [none_] at held
    exact absurd held (Finset.notMem_empty _)
  obtain ⟨k, hk, b, hb, same⟩ := returned 6 mem List.mem_cons_self nonzero
  rw [← Client.block_congr inv.bounds] at same
  obtain ⟨rfl, order⟩ := Prod.mk.inj same
  obtain rfl : k = 0 := by
    have order : k + 6 = 6 := order
    omega
  rcases inv.kfree_clear hk hb (clear 0 b) with ⟨met, -⟩ | ⟨-, km', freed, changed⟩
  · rcases met with top | notClear
    · cases top
    · exact absurd (clear _ _) notClear
  · exact ⟨km0, _, c, km', ready, ran, nonzero, none_, freed, changed⟩

end Xv6Rpi.Kernel
