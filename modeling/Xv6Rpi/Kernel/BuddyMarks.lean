/-
# Kernel.BuddyMarks -- the marks of the buddy allocator, their lists and their set-up

`buddy.c`, below `_kmalloc` and `_kfree`: the array of marks that `kmem_init2` lays out
and the lists that `mark_blk` and `unmark_blk` keep in it.

* `markLists_hold`: in every sequence of `mark_blk` and `unmark_blk` calls that starts
  with empty lists, each order's list visits exactly the marks with a non-zero bitmap,
  with matching back links, and a call changes the links of no other mark;
* `kmemInit2_establishes`: `kmem_init2` lays the marks of all orders out below the heap,
  each order's apart from the others' and enough of them for every block of the heap,
  and makes exactly the pages of the heap available.
-/
import Xv6Rpi.Kernel.BuddyHeap

namespace Xv6Rpi.Kernel

open Theory

set_option autoImplicit false

/-! ## Sequences of calls -/

inductive MarkCall where
  | markBlk (order blkId : Nat)
  | unmarkBlk (order blkId : Nat)

namespace MarkCall

def order : MarkCall → Nat
  | markBlk order _ => order
  | unmarkBlk order _ => order

def blkId : MarkCall → Nat
  | markBlk _ blkId => blkId
  | unmarkBlk _ blkId => blkId

def exec : MarkCall → Kmem → Except KmemPanic Kmem
  | markBlk order blkId => Kmem.markBlk order blkId
  | unmarkBlk order blkId => Kmem.unmarkBlk order blkId

end MarkCall

/-- The marks of an order when `MAX_ORD` has `N`. -/
def marksOf (N order : Nat) : Nat := N * 2 ^ (MAX_ORD - order)

/-- A call on a block id the order has a mark for.  A panic writes nothing. -/
def markStep (N : Nat) (km : Kmem) (call : MarkCall) : Option (Kmem × List KmemPanic) :=
  if MIN_ORD ≤ call.order ∧ call.order ≤ MAX_ORD ∧ call.blkId < 32 * marksOf N call.order then
    match call.exec km with
    | .error p => some (km, [p])
    | .ok km' => some (km', [])
  else none

/-- Along `NEXT_LNK` from `i` on lie the marks of `l`, and `PRE_LNK` of each is the one
before it. -/
def Kmem.Chained (km : Kmem) (order : Nat) : Nat → Nat → List Nat → Prop
  | _, i, [] => i = NIL
  | prev, i, j :: l => i = j ∧ preLnk (km.getMark order j).lnks = prev ∧
      km.Chained order j (nextLnk (km.getMark order j).lnks) l

/-- The list of an order: from its head to `NIL`, exactly the non-zero marks, each once. -/
structure MarkList (N : Nat) (km : Kmem) (order : Nat) (l : List Nat) : Prop where
  chained : km.Chained order NIL (km.head order) l
  once : l.Nodup
  nonzero : ∀ i, i ∈ l ↔ i < marksOf N order ∧ (km.getMark order i).bitmap ≠ 0

section Sequences

variable {N k b : Nat} {km : Kmem}

/-- `mark_blk` panics on an available block. -/
theorem markBlk_available (free : (k, b) ∈ km.free N) :
    km.markBlk (k + MIN_ORD) b = .error .doubleFree := by
  unfold Kmem.markBlk
  simp only [(mem_free.1 free).2.2, if_true]

/-- `unmark_blk` panics on a block that is not available. -/
theorem unmarkBlk_unavailable (hk : k ≤ 6) (hb : b < 32 * width N k) (notFree : (k, b) ∉ km.free N) :
    km.unmarkBlk (k + MIN_ORD) b = .error .doubleAlloc := by
  unfold Kmem.unmarkBlk
  rw [if_pos]
  apply Bool.eq_false_iff.2
  exact fun bit => notFree ⟨hk, hb, bit⟩

theorem marksOf_level (N k : Nat) : marksOf N (k + MIN_ORD) = width N k := by
  unfold marksOf width
  congr 2
  show 12 - (k + 6) = 6 - k
  omega

/-- A linked walk to `NIL` is a chain of the code's links. -/
theorem chained_of_linked {last : Nat} : ∀ (l : List Nat) (a : Nat), (∀ i ∈ l, i ≠ NIL) →
    Ring.Linked (km.nextAt k) (km.prevAt last k) a l NIL →
      km.Chained (k + MIN_ORD) a (km.nextAt k a) l := by
  intro l
  induction l with
  | nil => exact fun a _ linked => linked.1
  | cons x l ih =>
    intro a inside linked
    obtain ⟨toX, fromX, rest⟩ := linked
    have xNe : x ≠ NIL := inside x List.mem_cons_self
    rw [Kmem.prevAt_of_ne km k last xNe] at fromX
    refine ⟨toX, fromX, ?_⟩
    rw [← Kmem.nextAt_of_ne km k xNe]
    exact ih x (fun i member => inside i (List.mem_cons_of_mem _ member)) rest

theorem Wf.markList (wf : Wf N km) (hk : k ≤ 6) : ∃ l, MarkList N km (k + MIN_ORD) l := by
  obtain ⟨L, lists, members⟩ := wf
  obtain ⟨last, ring⟩ := lists.ring k hk
  refine ⟨L k, ?_, (List.nodup_cons.1 ring.nodup).2, fun i => ?_⟩
  · have chained := chained_of_linked (L k) NIL
      (fun i member => (lists.lt_nil (lists.inside k hk i member)).ne) ring.linked
    rwa [Kmem.nextAt, if_pos rfl] at chained
  · rw [marksOf_level]
    constructor
    · intro member
      have hi := lists.inside k hk i member
      exact ⟨hi, (members k hk i hi).1 member⟩
    · exact fun found => (members k hk i found.1).2 found.2

/-- **One call** keeps the lists and leaves the other marks. -/
theorem Wf.markStep (wf : Wf N km) {call : MarkCall} {km' : Kmem} {more : List KmemPanic}
    (called : markStep N km call = some (km', more)) :
    Wf N km' ∧ ∃ k ≤ 6, call.order = k + MIN_ORD ∧ LeavesOthers N k km km' := by
  have stays : ∀ k, LeavesOthers N k km km := fun k =>
    ⟨fun _ _ _ => rfl, fun _ _ _ _ _ => rfl, fun _ _ _ _ => rfl⟩
  unfold Kernel.markStep at called
  split at called
  case isFalse => cases called
  case isTrue valid =>
    obtain ⟨low, high, small⟩ := valid
    obtain ⟨k, hk, level⟩ := exists_level low high
    rw [level, marksOf_level] at small
    cases call with
    | markBlk order b =>
      obtain rfl : order = k + MIN_ORD := level
      have small : b < 32 * width N k := small
      by_cases free : (k, b) ∈ km.free N
      · simp only [MarkCall.exec, markBlk_available free, Option.some.injEq,
          Prod.mk.injEq] at called
        obtain ⟨rfl, -⟩ := called
        exact ⟨wf, k, hk, rfl, stays k⟩
      · obtain ⟨km1, marked, wf', -, -, leaves⟩ := markBlk_spec wf hk small free
        simp only [MarkCall.exec, marked, Option.some.injEq, Prod.mk.injEq] at called
        obtain ⟨rfl, -⟩ := called
        exact ⟨wf', k, hk, rfl, leaves⟩
    | unmarkBlk order b =>
      obtain rfl : order = k + MIN_ORD := level
      have small : b < 32 * width N k := small
      by_cases free : (k, b) ∈ km.free N
      · obtain ⟨km1, unmarked, wf', -, -, leaves⟩ := unmarkBlk_spec wf free
        simp only [MarkCall.exec, unmarked, Option.some.injEq, Prod.mk.injEq] at called
        obtain ⟨rfl, -⟩ := called
        exact ⟨wf', k, hk, rfl, leaves⟩
      · simp only [MarkCall.exec, unmarkBlk_unavailable hk small free, Option.some.injEq,
          Prod.mk.injEq] at called
        obtain ⟨rfl, -⟩ := called
        exact ⟨wf, k, hk, rfl, stays k⟩

theorem Wf.markRun {km' : Kmem} {calls : List MarkCall} {seen : List KmemPanic} (wf : Wf N km)
    (ran : Machine.run (Kernel.markStep N) km calls = some (km', seen)) : Wf N km' :=
  Machine.run_keeps (I := fun _ km => Wf N km)
    (fun _ _ _ _ _ holds called => (holds.markStep called).1) calls [] km km' seen wf ran

end Sequences

/-- **The lists of marks.**  Start with empty lists in the layout of `kmem_init2`, every
mark index below 0xFFFF, and let `mark_blk` and `unmark_blk` be called in any sequence on
valid block ids.  Then each order's list visits exactly its marks with a non-zero bitmap,
each once, with `PRE_LNK` the inverse of `NEXT_LNK`; and no call changes a mark of
another order or a link of a mark off the list. -/
theorem markLists_hold {N : Nat} (small : ∀ order i, MIN_ORD ≤ order → i < marksOf N order → i < 0xFFFF)
    {km0 : Kmem} (empty : Inited N 0 km0) {calls : List MarkCall} {km : Kmem}
    {seen : List KmemPanic} (ran : Machine.run (markStep N) km0 calls = some (km, seen)) :
    (∀ order, MIN_ORD ≤ order → order ≤ MAX_ORD → ∃ l, MarkList N km order l) ∧
      ∀ call km' more, markStep N km call = some (km', more) →
        (∀ order, MIN_ORD ≤ order → order ≤ MAX_ORD → order ≠ call.order →
          km'.head order = km.head order ∧
            ∀ i < marksOf N order, km'.getMark order i = km.getMark order i) ∧
        ∀ l l', MarkList N km call.order l → MarkList N km' call.order l' →
          ∀ i < marksOf N call.order, i ∉ l → i ∉ l' →
            (km'.getMark call.order i).lnks = (km.getMark call.order i).lnks := by
  have fits : N * 64 ≤ 65535 := by
    by_contra large
    have := small MIN_ORD 65535 le_rfl (by show 65535 < N * 64; omega)
    omega
  have wf := ((empty.wf fits).1).markRun ran
  refine ⟨fun order low high => ?_, fun call km' more called => ?_⟩
  · obtain ⟨k, hk, rfl⟩ := exists_level low high
    exact wf.markList hk
  · obtain ⟨-, k, hk, level, leaves⟩ := wf.markStep called
    rw [level]
    refine ⟨fun order low high ne => ?_, fun l l' before after i hi off off' => ?_⟩
    · obtain ⟨j, hj, rfl⟩ := exists_level low high
      have ne : j ≠ k := fun same => ne (by rw [same])
      rw [marksOf_level]
      exact ⟨leaves.heads j hj ne, leaves.marks j hj ne⟩
    · rw [before.nonzero, not_and, not_not] at off
      rw [after.nonzero, not_and, not_not] at off'
      exact leaves.off i (by rwa [← marksOf_level]) (off hi) (off' hi)

/-- Marks 0, 1 and 2 get a block each, and mark 1, in the middle of the list, loses it again. -/
def removeMiddle : List MarkCall := [.markBlk 6 0, .markBlk 6 32, .markBlk 6 64, .unmarkBlk 6 32]

/-- With the marks that `kmem_init2` sets up for a small region. -/
theorem markLists_hold_middle : ∃ km0 km, Kmem.initOrders 7 0 1 noHeap = (127, km0) ∧
    Machine.run (markStep 1) km0 removeMiddle = some (km, []) ∧ MarkList 1 km 6 [2, 0] := by
  obtain ⟨km0, ready, empty, -⟩ := initOrders_spec (N := 1) 7 noHeap le_rfl
    ⟨fun k above hk => absurd above (by omega), fun p hp => absurd hp (by simp)⟩
  have ready : Kmem.initOrders 7 0 1 noHeap = (127, km0) := ready
  have small : ∀ order i, MIN_ORD ≤ order → i < marksOf 1 order → i < 0xFFFF := by
    intro order i _ hi
    have bound : 2 ^ (MAX_ORD - order) ≤ 2 ^ 12 := Nat.pow_le_pow_right (by decide) (Nat.sub_le ..)
    unfold marksOf at hi
    omega
  have shown : (Machine.run (markStep 1) (Kmem.initOrders 7 0 1 noHeap).2 removeMiddle).any (fun r =>
      decide (r.2 = [] ∧ r.1.head 6 = 2 ∧ nextLnk (r.1.getMark 6 2).lnks = 0 ∧
        nextLnk (r.1.getMark 6 0).lnks = NIL)) = true := by
    decide +kernel
  rw [ready] at shown
  obtain ⟨⟨km, _⟩, ran, facts⟩ := (Option.any_eq_true ..).1 shown
  obtain ⟨rfl, isHead, isNext, isLast⟩ := of_decide_eq_true facts
  obtain ⟨l, list⟩ := (markLists_hold small empty ran).1 6 (by decide) (by decide)
  refine ⟨km0, km, ready, ran, ?_⟩
  -- the list is the one that the links give
  have below : ∀ i ∈ l, i < 64 := fun i member => ((list.nonzero i).1 member).1
  have chained := list.chained
  match l, list, below, chained with
  | [], _, _, chained => exact absurd (isHead.symm.trans chained) (by decide)
  | [i], _, _, chained =>
    obtain ⟨rfl, -, chained⟩ := chained
    exact absurd ((isHead ▸ isNext).symm.trans chained) (by decide)
  | [i, j], list, _, chained =>
    obtain ⟨rfl, -, rfl, -⟩ := chained
    rw [isHead, isNext] at list
    exact list
  | i :: j :: k :: l, _, below, chained =>
    obtain ⟨rfl, -, rfl, -, rfl, -⟩ := chained
    rw [isHead, isNext, isLast] at below
    exact absurd (below NIL (by simp)) (by decide)

/-! ## Set-up -/

/-- A region of the memory the kernel manages. -/
structure Managed (vstart vend : Nat) : Prop where
  first : KERNBASE + INIT_KERNMAP ≤ vstart
  ordered : vstart ≤ vend
  last : vend ≤ KERNBASE + PHYSTOP
  words : vstart % 4 = 0
  pages : vend % 4096 = 0

/-- The address `get_mark` computes; `sizeof(struct mark)` is 8. -/
def Kmem.markAddr (km : Kmem) (order idx : Nat) : Nat :=
  km.start + 8 * ((km.orders (order - MIN_ORD)).offset + idx)

section SetUp

variable {N P k : Nat} {km : Kmem}

theorem Managed.region {vstart vend : Nat} (managed : Managed vstart vend) : Region vstart vend := by
  obtain ⟨first, ordered, last, -, pages⟩ := managed
  have first : 0x80100000 ≤ vstart := first
  have last : vend ≤ 0x88000000 := last
  exact ⟨ordered, pages, by omega, by omega, by omega⟩

/-- The orders' marks are apart. -/
theorem Layout.offset_inj (layout : Layout N km) {j i a : Nat} (hj : j ≤ 6) (hk : k ≤ 6)
    (ha : a < width N j) (hi : i < width N k)
    (same : (km.orders j).offset + a = (km.orders k).offset + i) : j = k ∧ a = i := by
  by_cases level : j = k
  · subst level
    exact ⟨rfl, by omega⟩
  · rw [layout j hj, layout k hk] at same
    exact absurd same (offset_apart level hj hk hi ha)

/-- Every address of the heap has a mark at every order. -/
theorem HeapInv.mark_inside {H : Dyadic.Blocks} (inv : HeapInv N P H km) (hk : k ≤ 6) {mem : Nat}
    (low : km.startHeap ≤ mem) (high : mem < km.end_) :
    km.mem2blkid (k + MIN_ORD) mem >>> 5 < width N k := by
  obtain ⟨-, -, pages, room, -⟩ := inv.sized
  apply mark_lt
  have page := blocks_of_page hk
  have bytes : 2 ^ (k + MIN_ORD) * (32 * width N k) = 4096 * (32 * N) := by
    rw [← page, width]
    ring
  unfold Kmem.mem2blkid
  rw [Nat.shiftRight_eq_div_pow]
  apply Nat.div_lt_of_lt_mul
  rw [bytes]
  omega

/-- While nothing is held, exactly the pages are available. -/
theorem HeapInv.mem_free_fresh (inv : HeapInv N P ∅ km) (b : Nat) :
    (k, b) ∈ km.free N ↔ k = 6 ∧ b < P := by
  have clear : ∀ j a, Dyadic.Clear ∅ j a := fun _ _ _ _ _ => Set.notMem_empty _
  rw [inv.forest.mem_free_iff]
  constructor
  · intro free
    obtain ⟨-, small, -, top | merged⟩ := free
    · subst top
      exact ⟨rfl, by simpa using small⟩
    · exact absurd (clear _ _) merged
  · intro page
    obtain ⟨rfl, small⟩ := page
    exact ⟨le_rfl, by simpa using small, clear _ _, Or.inl rfl⟩

end SetUp

/-- **`kmem_init2` establishes the allocator's invariant** in every region of the managed
memory, whatever the memory holds.  The marks of all orders lie below the heap, no two at
one address.  Every address of the heap has a mark of every order, with an index below
`NIL`.  The heap begins at a page, and available are exactly its pages, at `MAX_ORD`. -/
theorem kmemInit2_establishes {vstart vend : Nat} (managed : Managed vstart vend) (km : Kmem) :
    ∃ km0, Kmem.kmemInit2 vstart vend km = .ok km0 ∧ km0.start = vstart ∧ km0.end_ = vend ∧
      km0.startHeap % 4096 = 0 ∧
      (∀ order i, MIN_ORD ≤ order → order ≤ MAX_ORD → i < km0.nmarks order →
        vstart ≤ km0.markAddr order i ∧ km0.markAddr order i + 8 ≤ km0.startHeap) ∧
      (∀ order order' i i', MIN_ORD ≤ order → order ≤ MAX_ORD → MIN_ORD ≤ order' →
        order' ≤ MAX_ORD → i < km0.nmarks order → i' < km0.nmarks order' →
        km0.markAddr order i = km0.markAddr order' i' → order = order' ∧ i = i') ∧
      (∀ order mem, MIN_ORD ≤ order → order ≤ MAX_ORD → km0.startHeap ≤ mem → mem < vend →
        km0.mem2blkid order mem >>> 5 < km0.nmarks order ∧ km0.mem2blkid order mem >>> 5 < NIL) ∧
      (∀ order i, MIN_ORD ≤ order → order < MAX_ORD → i < km0.nmarks order →
        (km0.getMark order i).bitmap = 0) ∧
      ∀ b < 32 * km0.nmarks MAX_ORD, (available (km0.getMark MAX_ORD (b >>> 5)).bitmap b = true ↔
        km0.blkid2mem MAX_ORD b + 4096 ≤ vend) := by
  obtain ⟨N, P, km0, ready, inv, startIs, heapIs, endIs⟩ := kmemInit2_laid managed.region km
  have below : vstart + N * 127 * 8 ≤ km0.startHeap := heapIs ▸ le_alignPage _
  have sized := inv.sized
  obtain ⟨fits, layout⟩ : N * 64 ≤ 65535 ∧ Layout N km0 := by
    obtain ⟨L, lists, -⟩ := inv.wf
    exact ⟨lists.fits, lists.layout⟩
  refine ⟨km0, ready, startIs, endIs, sized.aligned, fun order i low high hi => ?_,
    fun order order' i i' low high low' high' hi hi' same => ?_, fun order mem low high above inside => ?_,
    fun order i low high hi => ?_, fun b hb => ?_⟩
  · obtain ⟨k, hk, rfl⟩ := exists_level low high
    rw [sized.nmarks hk] at hi
    have inArray := offset_lt hi
    unfold Kmem.markAddr
    rw [startIs, Nat.add_sub_cancel, layout k hk]
    omega
  · obtain ⟨j, hj, rfl⟩ := exists_level low high
    obtain ⟨k, hk, rfl⟩ := exists_level low' high'
    rw [sized.nmarks hj] at hi
    rw [sized.nmarks hk] at hi'
    unfold Kmem.markAddr at same
    rw [Nat.add_sub_cancel, Nat.add_sub_cancel] at same
    obtain ⟨rfl, rfl⟩ := layout.offset_inj hj hk hi hi' (by omega)
    exact ⟨rfl, rfl⟩
  · obtain ⟨k, hk, rfl⟩ := exists_level low high
    rw [sized.nmarks hk]
    have covered := inv.mark_inside hk above (by rwa [endIs])
    refine ⟨covered, covered.trans_le ((width_le N k).trans fits)⟩
  · obtain ⟨k, hk, rfl⟩ := exists_level low high.le
    have lower : k + 6 < 12 := high
    rw [sized.nmarks hk] at hi
    apply bitmap_eq_zero hk hi
    intro b free
    have top := ((inv.mem_free_fresh b).1 free).1
    omega
  · have level : MAX_ORD = 6 + MIN_ORD := rfl
    rw [level, sized.nmarks le_rfl] at hb
    have page := inv.mem_free_fresh (k := 6) b
    rw [mem_free] at page
    simp only [le_rfl, hb, true_and] at page
    rw [level, page]
    have pages := sized.pages
    show b < P ↔ km0.startHeap + 4096 * b + 4096 ≤ vend
    rw [← endIs]
    omega

/-- The region of `main`. -/
theorem kmemInit2_establishes_main : Managed (KERNBASE + INIT_KERNMAP) (KERNBASE + PHYSTOP) ∧
    ∃ km0, Kmem.kmemInit2 (KERNBASE + INIT_KERNMAP) (KERNBASE + PHYSTOP)
        noHeap = .ok km0 ∧ km0.startHeap % 4096 = 0 := by
  have managed : Managed (KERNBASE + INIT_KERNMAP) (KERNBASE + PHYSTOP) := by
    constructor <;> decide
  obtain ⟨km0, ready, -, -, aligned, -⟩ :=
    kmemInit2_establishes managed noHeap
  exact ⟨managed, km0, ready, aligned⟩

end Xv6Rpi.Kernel
