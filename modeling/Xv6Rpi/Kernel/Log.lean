/-
# Kernel.Log -- the redo log, as the code runs it

`log.c`, with `readsb` of `fs.c`.  The header block is 44 bytes, `n` and then
`LOGSIZE` sectors, all 32-bit.  `n` and `log.size` are signed in the code: a
negative `n` read from the disk runs no round of any loop, so it is kept as 0, and
`log.size - 1` is compared as an integer.  A header with `n > LOGSIZE` makes
`read_head` store past the end of `log.lh.sector`.
-/
import Xv6Rpi.Kernel.Bio

namespace Xv6Rpi.Kernel

open Theory

set_option autoImplicit false

/-- The value of 32 bits as an `int`. -/
def int32 (x : Nat) : Int := if x < 2147483648 then x else x - 4294967296

/-- `memmove(sb, bp->data, sizeof(*sb))`. -/
def Superblock.ofBlock (b : Block) : Superblock := ⟨b.u32 0, b.u32 4, b.u32 8, b.u32 12⟩

/-- Read the super block. -/
def readsb (dev : Nat) : K Superblock := do
  let bp ← bread dev 1
  let d ← bdata bp
  brelse bp
  return Superblock.ofBlock d

/-- `n` of a header block. -/
def headCount (b : Block) : Nat := (int32 (b.u32 0)).toNat

/-- `sector[i]` of a header block. -/
def headSector (b : Block) (i : Nat) : Nat := b.u32 (4 + 4 * i)

/-- The stores of `write_head` into the header block. -/
def encodeHead (b : Block) (lh : LogHeader) : Block :=
  (List.range lh.n).foldl (fun b i => b.put32 (4 + 4 * i) (lh.sector i)) (b.put32 0 lh.n)

def setLog (f : Log → Log) : K Unit := Act.modify fun s => { s with log := f s.log }

def setLogCount (n : Nat) : K Unit := setLog fun l => { l with lh := { l.lh with n := n } }

/-- Copy one committed block from log to its home location. -/
def installBlock (tail : Nat) : K Unit := do
  let s ← Act.get
  let lbuf ← bread s.log.dev (s.log.start + tail + 1)
  let dbuf ← bread s.log.dev (s.log.lh.sector tail)
  let d ← bdata lbuf
  setData dbuf d
  bwrite dbuf
  brelse lbuf
  brelse dbuf

/-- Copy committed blocks from log to their home location. -/
def installTrans : K Unit := do
  let s ← Act.get
  Act.forEach installBlock (List.range s.log.lh.n)

/-- Read the log header from disk into the in-memory log header. -/
def readHead : K Unit := do
  let s ← Act.get
  let buf ← bread s.log.dev s.log.start
  let d ← bdata buf
  Act.failIf (LOGSIZE < headCount d) .overrun
  setLog fun l =>
    { l with lh :=
        { n := headCount d
          sector := fun i => if i < headCount d then headSector d i else l.lh.sector i } }
  brelse buf

/-- Write in-memory log header to disk.  This is the true point at which the
current transaction commits. -/
def writeHead : K Unit := do
  let s ← Act.get
  let buf ← bread s.log.dev s.log.start
  let d ← bdata buf
  setData buf (encodeHead d s.log.lh)
  bwrite buf
  brelse buf

def recoverFromLog : K Unit := do
  readHead
  installTrans
  setLogCount 0
  writeHead

def initlog : K Unit := do
  -- sizeof(struct logheader)
  Act.failIf (BSIZE ≤ 4 + 4 * LOGSIZE) .initlog
  let sb ← readsb ROOTDEV
  setLog fun l =>
    { l with
      start := (sb.size + 4294967296 - sb.nlog) % 4294967296
      size := sb.nlog
      dev := ROOTDEV }
  recoverFromLog

def beginTrans : K Unit := do
  Act.await fun s => s.log.busy.isNone
  Act.modify fun s => { s with log := { s.log with busy := some s.mem.proc } }

def commitTrans : K Unit := do
  let s ← Act.get
  Act.runIf (0 < s.log.lh.n) do
    writeHead
    installTrans
    setLogCount 0
    writeHead
  setLog fun l => { l with busy := none }

/-- The test of `log_write` for a full log. -/
def Log.full (l : Log) : Bool := LOGSIZE ≤ l.lh.n || int32 l.size - 1 ≤ l.lh.n

/-- The first slot that holds the sector already (log absorption), or the next
free one. -/
def LogHeader.slot (lh : LogHeader) (sector : Nat) : Nat :=
  ((List.range lh.n).find? fun i => lh.sector i == sector).getD lh.n

/-- Append the block to the log and record the block number, but don't write the
log header (which would commit the write). -/
def logWrite (b : BufId) : K Unit := do
  let s ← Act.get
  Act.emit (.logWrite s.mem.proc s.log.busy)
  Act.failIf s.log.full .tooBig
  Act.failIf s.log.busy.isNone .outsideTrans
  let x := s.bio.bufs b
  let i := s.log.lh.slot x.sector
  setLog fun l => { l with lh := { l.lh with sector := upd l.lh.sector i x.sector } }
  let lbuf ← bread x.dev (s.log.start + i + 1)
  let d ← bdata b
  setData lbuf d
  bwrite lbuf
  brelse lbuf
  Act.runIf (i == s.log.lh.n) (setLogCount (s.log.lh.n + 1))
  Act.modify fun s => { s with bio := s.bio.setBuf b { s.bio.bufs b with dirty := true } }

end Xv6Rpi.Kernel
