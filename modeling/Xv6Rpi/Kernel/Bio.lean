/-
# Kernel.Bio -- the buffer cache and the memory disk, as the code runs them

`bio.c` and `memide.c`.  The cache's list runs over `BufPtr`, with the sentinel
`&bcache.head` as `none`; both search loops of `bget` are `Ring.walk`s along it.
A search that finds its buffer busy sleeps: the code is resumed once no busy
buffer holds the sector, and then runs `bgetNow`, which is the rest of `bget`
(`goto loop` included: the sector may have been recycled meanwhile).
-/
import Xv6Rpi.Kernel.State
import Xv6Rpi.Theory.Ring

namespace Xv6Rpi.Kernel

open Theory

set_option autoImplicit false

namespace Bio

/-- Change one buffer. -/
def setBuf (c : Bio) (b : BufId) (x : Buf) : Bio := { c with bufs := upd c.bufs b x }

/-- One round of `binit`'s loop: the buffer is put behind the head. -/
def binitStep (c : Bio) (b : BufId) : Bio :=
  { c with
    bufs := upd c.bufs b { c.bufs b with dev := NODEV }
    next := upd (upd c.next (some b) (c.next none)) none (some b)
    prev := upd (upd c.prev (some b) none) (c.next none) (some b) }

/-- `binit` over zeroed memory. -/
def binit (disk : Disk) (disksize : Nat) : Bio :=
  (List.finRange NBUF).foldl binitStep (KState.zeroed disk disksize).bio

/-- Is the sector already cached?  The first loop of `bget`. -/
def cached (c : Bio) (dev sector : Nat) : Option BufPtr :=
  (Ring.walk c.next none
    (fun p => p.any fun b => (c.bufs b).dev == dev && (c.bufs b).sector == sector)
    (NBUF + 1) (c.next none)).map Option.join

/-- A non-busy and clean buffer, least recently used first.  The second loop of
`bget`. -/
def victim (c : Bio) : Option BufPtr :=
  (Ring.walk c.prev none
    (fun p => p.any fun b => !(c.bufs b).busy && !(c.bufs b).dirty)
    (NBUF + 1) (c.prev none)).map Option.join

/-- `bget` would sleep on this sector: the buffer that holds it is busy. -/
def inUse (c : Bio) (dev sector : Nat) : Bool :=
  match c.cached dev sector with
  | some (some b) => (c.bufs b).busy
  | _ => false

end Bio

def setBio (c : Bio) : K Unit := Act.modify fun s => { s with bio := c }

/-- The part of `bget` that does not sleep. -/
def bgetNow (dev sector : Nat) : K BufId := fun s =>
  match s.bio.cached dev sector with
  | none => .fail .loop s
  | some (some b) =>
    .done b { s with bio := s.bio.setBuf b { s.bio.bufs b with busy := true } }
  | some none =>
    match s.bio.victim with
    | none => .fail .loop s
    | some none => .fail .bget s
    | some (some b) =>
      let x := { s.bio.bufs b with
        dev := dev, sector := sector, busy := true, valid := false, dirty := false }
      .done b { s with bio := s.bio.setBuf b x }

/-- Look through buffer cache for sector on device dev.  If not found, allocate
fresh block.  In either case, return B_BUSY buffer. -/
def bget (dev sector : Nat) : K BufId := do
  Act.await fun s => !s.bio.inUse dev sector
  bgetNow dev sector

/-- Sync buf with disk.  If B_DIRTY is set, write buf to disk, clear B_DIRTY, set
B_VALID.  Else if B_VALID is not set, read buf from disk, set B_VALID. -/
def iderw (b : BufId) : K Unit := fun s =>
  let x := s.bio.bufs b
  if x.busy = false then .fail .iderwBusy s
  else if x.valid = true ∧ x.dirty = false then .fail .iderwNothing s
  else if x.dev ≠ ROOTDEV then .fail .iderwDev s
  else if s.bio.disksize ≤ x.sector then .fail .iderwRange s
  else if x.dirty then
    let c := s.bio.setBuf b { x with dirty := false, valid := true }
    let s' := { s with bio := { c with disk := upd c.disk x.sector x.data } }
    .event (.write x.sector x.data) s' (.done () s')
  else
    .done () { s with bio := s.bio.setBuf b { x with data := s.bio.disk x.sector, valid := true } }

/-- Return a B_BUSY buf with the contents of the indicated disk sector. -/
def bread (dev sector : Nat) : K BufId := do
  let b ← bget dev sector
  let s ← Act.get
  Act.runIf (!(s.bio.bufs b).valid) (iderw b)
  return b

/-- Write b's contents to disk.  Must be B_BUSY. -/
def bwrite (b : BufId) : K Unit := do
  let s ← Act.get
  Act.failIf (!(s.bio.bufs b).busy) .bwrite
  setBio (s.bio.setBuf b { s.bio.bufs b with dirty := true })
  iderw b

/-- Release a B_BUSY buffer.  Move to the head of the MRU list. -/
def brelse (b : BufId) : K Unit := do
  let s ← Act.get
  Act.failIf (!(s.bio.bufs b).busy) .brelse
  let c := s.bio
  let c := { c with prev := upd c.prev (c.next (some b)) (c.prev (some b)) }
  let c := { c with next := upd c.next (c.prev (some b)) (c.next (some b)) }
  let c := { c with next := upd c.next (some b) (c.next none) }
  let c := { c with prev := upd c.prev (some b) none }
  let c := { c with prev := upd c.prev (c.next none) (some b) }
  let c := { c with next := upd c.next none (some b) }
  setBio (c.setBuf b { c.bufs b with busy := false })

/-- The data of a buffer. -/
def bdata (b : BufId) : K Block := fun s => .done (s.bio.bufs b).data s

/-- The holder stores into the buffer. -/
def setData (b : BufId) (d : Block) : K Unit := fun s =>
  .done () { s with bio := s.bio.setBuf b { s.bio.bufs b with data := d } }

end Xv6Rpi.Kernel
