/-
# Kernel.Buddy -- the buddy allocator, as the code runs it

`buddy.c`.  The marks of all orders lie in one array at `kmem.start`; order
`MIN_ORD + i` has its own from `orders[i].offset` on.  A mark holds the availability
bits of 32 blocks and two 16-bit indexes that chain the non-empty marks of its order.

The recursion of `_kmalloc` and `_kfree` goes up to `MAX_ORD`; their first argument
here is the number of orders left above.  Addresses are numbers, and only `kmem_init2`,
which computes with any bounds it is given, wraps at 32 bits (its last loop counts up
to `end` and is taken not to).  The allocator stores nothing into the blocks, so the
heap's memory is not part of the state; the marks start with any content.
-/
import Xv6Rpi.Kernel.State

namespace Xv6Rpi.Kernel

open Theory

set_option autoImplicit false

abbrev MAX_ORD : Nat := 12
abbrev MIN_ORD : Nat := 6
abbrev N_ORD : Nat := 7
abbrev NIL : Nat := 65535

structure Mark where
  lnks : BitVec 32
  bitmap : BitVec 32

structure Order where
  head : Nat
  offset : Nat

structure Kmem where
  start : Nat
  startHeap : Nat
  end_ : Nat
  orders : Nat → Order
  marks : Nat → Mark

/-- A heap before it is set up. -/
abbrev noHeap : Kmem := ⟨0, 0, 0, fun _ => ⟨0, 0⟩, fun _ => ⟨0, 0⟩⟩

inductive KmemPanic where
  | doubleAlloc | doubleFree | emptyMark | kmallocOrder | kfreeDoubleFree | kfreeOrder
  deriving DecidableEq, Repr

/-- `PRE_LNK`. -/
def preLnk (lnks : BitVec 32) : Nat := (lnks >>> 16).toNat

/-- `NEXT_LNK`. -/
def nextLnk (lnks : BitVec 32) : Nat := (lnks &&& 65535).toNat

/-- `LNKS`. -/
def mkLnks (pre next : Nat) : BitVec 32 :=
  BitVec.ofNat 32 pre <<< 16 ||| BitVec.ofNat 32 next &&& 65535

namespace Kmem

def head (km : Kmem) (order : Nat) : Nat := (km.orders (order - MIN_ORD)).head

def getMark (km : Kmem) (order idx : Nat) : Mark :=
  km.marks ((km.orders (order - MIN_ORD)).offset + idx)

def setMark (km : Kmem) (order idx : Nat) (mk : Mark) : Kmem :=
  { km with marks := upd km.marks ((km.orders (order - MIN_ORD)).offset + idx) mk }

def setLnks (km : Kmem) (order idx : Nat) (lnks : BitVec 32) : Kmem :=
  km.setMark order idx { km.getMark order idx with lnks := lnks }

def setBitmap (km : Kmem) (order idx : Nat) (bitmap : BitVec 32) : Kmem :=
  km.setMark order idx { km.getMark order idx with bitmap := bitmap }

def setHead (km : Kmem) (order hd : Nat) : Kmem :=
  { km with
    orders := upd km.orders (order - MIN_ORD) { km.orders (order - MIN_ORD) with head := hd } }

def blkid2mem (km : Kmem) (order blkId : Nat) : Nat := km.startHeap + 2 ^ order * blkId

def mem2blkid (km : Kmem) (order mem : Nat) : Nat := (mem - km.startHeap) >>> order

end Kmem

def available (bitmap : BitVec 32) (blkId : Nat) : Bool := bitmap &&& bitMask 32 (blkId % 32) != 0

namespace Kmem

/-- The mark before `idx`, or the order's head if there is none, goes on to `next`. -/
def setNext (km : Kmem) (order prev idx next : Nat) : Kmem :=
  if prev ≠ NIL then
    km.setLnks order prev (mkLnks (preLnk (km.getMark order prev).lnks) next)
  else if km.head order = idx then km.setHead order next
  else km

/-- Fix the pre pointer of the next mark. -/
def setPrev (km : Kmem) (order next prev : Nat) : Kmem :=
  if next ≠ NIL then
    km.setLnks order next (mkLnks prev (nextLnk (km.getMark order next).lnks))
  else km

/-- Delete a mark from its list: the second half of `unmark_blk`. -/
def unlinkMark (km : Kmem) (order idx : Nat) : Kmem :=
  let prev := preLnk (km.getMark order idx).lnks
  let next := nextLnk (km.getMark order idx).lnks
  ((km.setNext order prev idx next).setPrev order next prev).setLnks order idx (mkLnks NIL NIL)

/-- Insert a mark at the head of its list: the second half of `mark_blk`. -/
def pushMark (km : Kmem) (order idx : Nat) : Kmem :=
  ((km.setLnks order idx (mkLnks NIL (km.head order))).setPrev order (km.head order) idx).setHead
    order idx

/-- Mark a block as unavailable. -/
def unmarkBlk (order blkId : Nat) (km : Kmem) : Except KmemPanic Kmem :=
  let bitmap := (km.getMark order (blkId >>> 5)).bitmap
  if available bitmap blkId = false then .error .doubleAlloc
  else
    let cleared := bitmap &&& ~~~bitMask 32 (blkId % 32)
    let km := km.setBitmap order (blkId >>> 5) cleared
    -- if it's the last block in the bitmap, delete from the list
    if cleared = 0 then .ok (km.unlinkMark order (blkId >>> 5)) else .ok km

/-- Mark a block as available. -/
def markBlk (order blkId : Nat) (km : Kmem) : Except KmemPanic Kmem :=
  let bitmap := (km.getMark order (blkId >>> 5)).bitmap
  if available bitmap blkId then .error .doubleFree
  else
    let km := km.setBitmap order (blkId >>> 5) (bitmap ||| bitMask 32 (blkId % 32))
    -- just insert it to the head, no need to keep the list ordered
    if bitmap = 0 then .ok (km.pushMark order (blkId >>> 5)) else .ok km

/-- Get a block. -/
def getBlk (order : Nat) (km : Kmem) : Except KmemPanic (Nat × Kmem) :=
  let mk := km.getMark order (km.head order)
  if mk.bitmap = 0 then .error .emptyMark
  else
    match (List.range 32).find? fun i => mk.bitmap &&& bitMask 32 i != 0 with
    | none => .ok (0, km)
    | some i =>
      let blkId := km.head order * 32 + i
      match km.unmarkBlk order blkId with
      | .error e => .error e
      | .ok km' => .ok (km.blkid2mem order blkId, km')

/-- `_kfree`, with `n` orders above the block's. -/
def kfreeAt : Nat → Nat → Kmem → Except KmemPanic Kmem
  | 0, mem, km =>
    let blkId := km.mem2blkid MAX_ORD mem
    if available (km.getMark MAX_ORD (blkId >>> 5)).bitmap blkId then .error .kfreeDoubleFree
    else km.markBlk MAX_ORD blkId
  | n + 1, mem, km =>
    let order := MAX_ORD - (n + 1)
    let blkId := km.mem2blkid order mem
    let mk := km.getMark order (blkId >>> 5)
    -- blk_id and buddy_id differs in the last bit; buddy must be in the same bit map
    let buddyId := blkId ^^^ 1
    if available mk.bitmap blkId then .error .kfreeDoubleFree
    else if available mk.bitmap buddyId = false then km.markBlk order blkId
    else
      -- our buddy is also free, merge it
      match km.unmarkBlk order buddyId with
      | .error e => .error e
      | .ok km' => kfreeAt n (km'.blkid2mem order (blkId >>> 1 <<< 1)) km'

/-- `_kmalloc`, with `n` orders above the one asked for. -/
def kmallocAt : Nat → Kmem → Except KmemPanic (Nat × Kmem)
  | 0, km => if km.head MAX_ORD ≠ NIL then km.getBlk MAX_ORD else .ok (0, km)
  | n + 1, km =>
    let order := MAX_ORD - (n + 1)
    if km.head order ≠ NIL then km.getBlk order
    else
      -- if currently no block available, try to split a parent
      match kmallocAt n km with
      | .error e => .error e
      | .ok (up, km') =>
        if up = 0 then .ok (up, km')
        else
          match kfreeAt (n + 1) (up + 2 ^ order) km' with
          | .error e => .error e
          | .ok km'' => .ok (up, km'')

/-- Allocate memory that has the size of `1 << order`; 0 is `NULL`. -/
def kmalloc (order : Nat) (km : Kmem) : Except KmemPanic (Nat × Kmem) :=
  if MAX_ORD < order ∨ order < MIN_ORD then .error .kmallocOrder
  else kmallocAt (MAX_ORD - order) km

/-- Free kernel memory. -/
def kfree (mem order : Nat) (km : Kmem) : Except KmemPanic Kmem :=
  if MAX_ORD < order ∨ order < MIN_ORD ∨ mem % 2 ^ order ≠ 0 then .error .kfreeOrder
  else kfreeAt (MAX_ORD - order) mem km

/-- The marks of one order, none of its blocks available. -/
def initOrder (km : Kmem) (i total n : Nat) : Kmem :=
  let km := { km with orders := upd km.orders i { head := NIL, offset := total } }
  (List.range n).foldl (fun km j => km.setMark (i + MIN_ORD) j ⟨mkLnks NIL NIL, 0⟩) km

/-- The marks of all orders, from the highest down; each order doubles required
marks.  Returns their total number. -/
def initOrders : Nat → Nat → Nat → Kmem → Nat × Kmem
  | 0, total, _, km => (total, km)
  | i + 1, total, n, km => initOrders i (total + n) (n <<< 1) (km.initOrder i total n)

/-- Free the pages of the heap, one after the other. -/
def freePages : List Nat → Kmem → Except KmemPanic Kmem
  | [], km => .ok km
  | mem :: l, km =>
    match km.kfree mem MAX_ORD with
    | .error e => .error e
    | .ok km' => freePages l km'

/-- `align_up(x, 1 << MAX_ORD)`. -/
def alignPage (x : Nat) : Nat := (x + 4095) / 4096 * 4096

def kmemInit2 (vstart vend : Nat) (km : Kmem) : Except KmemPanic Kmem :=
  let len := (vend + 4294967296 - vstart) % 4294967296
  let n := len >>> (MAX_ORD + 5) + 1
  let r := initOrders N_ORD 0 n { km with start := vstart, end_ := vend }
  -- sizeof(struct mark) is 8
  let startHeap := alignPage (vstart + r.1 * 8) % 4294967296
  let pages := (vend - startHeap + 4095) / 4096
  freePages ((List.range pages).map fun j => startHeap + 4096 * j) { r.2 with startHeap := startHeap }

end Kmem

end Xv6Rpi.Kernel
