/-
# Kernel.Fs -- blocks, inodes, files, directories and paths, as the code runs them

`fs.c`.  Names and paths are lists of bytes without the terminating NUL; a name
buffer of `DIRSIZ` bytes is read by the code only through `strncmp` and `strncpy`,
so a name is kept as `skipelem` cuts it.  Shorts are kept in `0 .. 65535` and wrap
there.  An `ip->ref` the code decrements is never 0 then.

`readi` returns the bytes it copies to the user or kernel buffer; `none` is -1.  The
only device is the console: the bytes of its input are left out, a read is told how
many it gets (`Mem.console`) and sleeps until there are any.
-/
import Xv6Rpi.Kernel.Log

namespace Xv6Rpi.Kernel

open Theory

set_option autoImplicit false

/-! ## On-disk layout -/

/-- `IBLOCK`: block containing inode `i`. -/
def IBLOCK (i : Nat) : Nat := i / IPB + 2

/-- `BBLOCK`: block containing the bit for block `b`. -/
def BBLOCK (b ninodes : Nat) : Nat := b / BPB + ninodes / IPB + 3

/-- The inode with number `i` in its block. -/
def Dinode.ofBlock (b : Block) (i : Nat) : Dinode where
  type := b.u16 (64 * (i % IPB))
  major := b.u16 (64 * (i % IPB) + 2)
  minor := b.u16 (64 * (i % IPB) + 4)
  nlink := b.u16 (64 * (i % IPB) + 6)
  size := b.u32 (64 * (i % IPB) + 8)
  addrs := fun k => b.u32 (64 * (i % IPB) + 12 + 4 * k.val)

/-- Byte `o` of an inode on disk. -/
def Dinode.byte (d : Dinode) (o : Nat) : Byte :=
  if o < 2 then Bytes.byteAt d.type o
  else if o < 4 then Bytes.byteAt d.major (o - 2)
  else if o < 6 then Bytes.byteAt d.minor (o - 4)
  else if o < 8 then Bytes.byteAt d.nlink (o - 6)
  else if o < 12 then Bytes.byteAt d.size (o - 8)
  else if h : (o - 12) / 4 < NDIRECT + 1 then Bytes.byteAt (d.addrs ⟨(o - 12) / 4, h⟩) ((o - 12) % 4)
  else 0

/-- Store an inode into its block. -/
def putDinode (b : Block) (i : Nat) (d : Dinode) : Block := b.paint (64 * (i % IPB)) 64 d.byte

/-! ## Blocks -/

/-- Zero a block. -/
def bzero (dev bno : Nat) : K Unit := do
  let bp ← bread dev bno
  setData bp Bytes.zero
  logWrite bp
  brelse bp

/-- The first of the first `n` bits of a bitmap block that is clear. -/
def freeBit (d : Block) (n : Nat) : Option Nat :=
  (List.range (min BPB n)).find? fun bi => d.get (bi / 8) &&& Bytes.mask bi == 0

/-- The loop of `balloc` over the bitmap blocks, each given by its number. -/
def ballocIn (dev : Nat) (sb : Superblock) : List Nat → K Nat
  | [] => Act.fail .balloc
  | k :: ks => do
      let b := BPB * k
      let bp ← bread dev (BBLOCK b sb.ninodes)
      let d ← bdata bp
      match freeBit d (sb.size - b) with
      | some bi =>
        Act.emit (.balloc (b + bi))
        -- mark block in use
        setData bp (d.setBit bi)
        logWrite bp
        brelse bp
        bzero dev (b + bi)
        return b + bi
      | none =>
        brelse bp
        ballocIn dev sb ks

/-- Allocate a zeroed disk block. -/
def balloc (dev : Nat) : K Nat := do
  let sb ← readsb dev
  ballocIn dev sb (List.range ((sb.size + BPB - 1) / BPB))

/-- Free a disk block. -/
def bfree (dev b : Nat) : K Unit := do
  let sb ← readsb dev
  let bp ← bread dev (BBLOCK b sb.ninodes)
  let bi := b % BPB
  let d ← bdata bp
  Act.failIf (d.get (bi / 8) &&& Bytes.mask bi == 0) .freeFree
  setData bp (d.clearBit bi)
  logWrite bp
  brelse bp

/-! ## Inodes -/

/-- The inode-cache entry. -/
def inode (ip : InodeId) : K Inode := do
  let s ← Act.get
  return s.mem.icache ip

def setInode (ip : InodeId) (f : Inode → Inode) : K Unit :=
  Act.modify fun s =>
    { s with mem := { s.mem with icache := upd s.mem.icache ip (f (s.mem.icache ip)) } }

/-- Assignments to the copy of the disk inode. -/
def setDinode (ip : InodeId) (f : Dinode → Dinode) : K Unit :=
  setInode ip fun i => { i with d := f i.d }

/-- Find the inode with number `inum` on device `dev` and return the in-memory copy.
Does not lock the inode and does not read it from disk. -/
def iget (dev inum : Nat) : K InodeId := do
  let s ← Act.get
  match (List.finRange NINODE).find? fun ip =>
      0 < (s.mem.icache ip).ref && (s.mem.icache ip).dev == dev &&
        (s.mem.icache ip).inum == inum with
  | some ip =>
    setInode ip fun i => { i with ref := i.ref + 1 }
    return ip
  | none =>
    -- recycle an inode cache entry
    match (List.finRange NINODE).find? fun ip => (s.mem.icache ip).ref == 0 with
    | none => Act.fail .iget
    | some ip =>
      setInode ip fun i =>
        { i with dev := dev, inum := inum, ref := 1, busy := false, valid := false }
      return ip

/-- The loop of `ialloc` over the inode numbers. -/
def iallocIn (dev type : Nat) : List Nat → K InodeId
  | [] => Act.fail .ialloc
  | inum :: l => do
      let bp ← bread dev (IBLOCK inum)
      let d ← bdata bp
      if (Dinode.ofBlock d inum).type = 0 then do
        setData bp (putDinode d inum { Dinode.zeroed with type := type })
        -- mark it allocated on the disk
        logWrite bp
        brelse bp
        iget dev inum
      else do
        brelse bp
        iallocIn dev type l

/-- Allocate a new inode with the given type on device `dev`. -/
def ialloc (dev type : Nat) : K InodeId := do
  let sb ← readsb dev
  iallocIn dev type ((List.range (sb.ninodes - 1)).map (· + 1))

/-- Copy a modified in-memory inode to disk. -/
def iupdate (ip : InodeId) : K Unit := do
  let i ← inode ip
  let bp ← bread i.dev (IBLOCK i.inum)
  let d ← bdata bp
  setData bp (putDinode d i.inum i.d)
  logWrite bp
  brelse bp

/-- Increment reference count for `ip`. -/
def idup (ip : InodeId) : K InodeId := do
  setInode ip fun i => { i with ref := i.ref + 1 }
  return ip

/-- Read the inode from disk: the second half of `ilock`. -/
def iload (ip : InodeId) : K Unit := do
  let i ← inode ip
  let bp ← bread i.dev (IBLOCK i.inum)
  let d ← bdata bp
  setDinode ip fun _ => Dinode.ofBlock d i.inum
  brelse bp
  setInode ip fun i => { i with valid := true }
  Act.failIf ((Dinode.ofBlock d i.inum).type == 0) .ilockType

/-- Lock the given inode.  Reads the inode from disk if necessary. -/
def ilock (ip : InodeId) : K Unit := do
  let i ← inode ip
  Act.failIf (i.ref < 1) .ilock
  Act.await fun s => !(s.mem.icache ip).busy
  setInode ip fun i => { i with busy := true }
  let i ← inode ip
  Act.runIf (!i.valid) (iload ip)

/-- Unlock the given inode. -/
def iunlock (ip : InodeId) : K Unit := do
  let i ← inode ip
  Act.failIf (!i.busy || i.ref < 1) .iunlock
  setInode ip fun i => { i with busy := false }

/-- Free one direct block: a round of the first loop of `itrunc`. -/
def itruncDirect (ip : InodeId) (k : Fin (NDIRECT + 1)) : K Unit := do
  let i ← inode ip
  Act.runIf (i.d.addrs k != 0) do
    bfree i.dev (i.d.addrs k)
    setDinode ip fun d => { d with addrs := upd d.addrs k 0 }

/-- Free one block the indirect block names: a round of the second loop. -/
def itruncIndirect (dev : Nat) (bp : BufId) (j : Nat) : K Unit := do
  let a ← bdata bp
  Act.runIf (a.u32 (4 * j) != 0) (bfree dev (a.u32 (4 * j)))

/-- Slot `NDIRECT` of `addrs`, the indirect block. -/
abbrev INDIRECT : Fin (NDIRECT + 1) := ⟨NDIRECT, by decide⟩

/-- Truncate inode (discard contents). -/
def itrunc (ip : InodeId) : K Unit := do
  Act.forEach (itruncDirect ip) ((List.finRange NDIRECT).map Fin.castSucc)
  let i ← inode ip
  Act.runIf (i.d.addrs INDIRECT != 0) do
    let bp ← bread i.dev (i.d.addrs INDIRECT)
    Act.forEach (itruncIndirect i.dev bp) (List.range NINDIRECT)
    brelse bp
    bfree i.dev (i.d.addrs INDIRECT)
    setDinode ip fun d => { d with addrs := upd d.addrs INDIRECT 0 }
  setDinode ip fun d => { d with size := 0 }
  iupdate ip

/-- Truncate and free an inode without links: the first half of `iput`. -/
def ifree (ip : InodeId) : K Unit := do
  let i ← inode ip
  Act.failIf i.busy .iputBusy
  setInode ip fun i => { i with busy := true }
  itrunc ip
  setDinode ip fun d => { d with type := 0 }
  iupdate ip
  setInode ip fun i => { i with busy := false, valid := false }

/-- Drop a reference to an in-memory inode. -/
def iput (ip : InodeId) : K Unit := do
  let i ← inode ip
  Act.runIf (i.ref == 1 && i.valid && i.d.nlink == 0) (ifree ip)
  setInode ip fun i => { i with ref := i.ref - 1 }

/-- Common idiom: unlock, then put. -/
def iunlockput (ip : InodeId) : K Unit := do
  iunlock ip
  iput ip

/-! ## Inode content -/

/-- `addrs[k]` of an inode, allocating the block if there is none. -/
def addrOf (ip : InodeId) (k : Fin (NDIRECT + 1)) : K Nat := do
  let i ← inode ip
  if i.d.addrs k = 0 then do
    let addr ← balloc i.dev
    setDinode ip fun d => { d with addrs := upd d.addrs k addr }
    return addr
  else return i.d.addrs k

/-- Entry `j` of the indirect block in buffer `bp`, allocating the block if there is
none. -/
def indirectOf (dev : Nat) (bp : BufId) (j : Nat) : K Nat := do
  let a ← bdata bp
  if a.u32 (4 * j) = 0 then do
    let addr ← balloc dev
    let a ← bdata bp
    setData bp (a.put32 (4 * j) addr)
    logWrite bp
    return addr
  else return a.u32 (4 * j)

/-- Return the disk block address of the `bn`th block in inode `ip`.  If there is no
such block, `bmap` allocates one. -/
def bmap (ip : InodeId) (bn : Nat) : K Nat :=
  if h : bn < NDIRECT then addrOf ip ⟨bn, Nat.lt_succ_of_lt h⟩
  else if bn - NDIRECT < NINDIRECT then do
    -- load indirect block, allocating if necessary
    let i ← inode ip
    let ind ← addrOf ip INDIRECT
    let bp ← bread i.dev ind
    let addr ← indirectOf i.dev bp (bn - NDIRECT)
    brelse bp
    return addr
  else Act.fail .bmap

/-- The loop of `readi`: `left` bytes from `off` on, at most one block a round. -/
def readLoop (ip : InodeId) : Nat → Nat → Nat → K (List Byte)
  | 0, _, _ => return []
  | fuel + 1, off, left =>
    if left = 0 then return []
    else do
      let i ← inode ip
      let b ← bmap ip (off / BSIZE)
      let bp ← bread i.dev b
      let d ← bdata bp
      let m := min left (BSIZE - off % BSIZE)
      brelse bp
      let rest ← readLoop ip fuel (off + m) (left - m)
      return d.slice (off % BSIZE) m ++ rest

/-- `consoleread`: sleeps with the inode unlocked. -/
def consoleread (ip : InodeId) (n : Nat) : K Nat := do
  iunlock ip
  Act.await fun s => n == 0 || s.mem.console.isSome
  let s ← Act.get
  let r := if n = 0 then 0 else min n (s.mem.console.getD 0)
  Act.modify fun s => { s with mem := { s.mem with console := if n = 0 then s.mem.console else none } }
  ilock ip
  return r

/-- `consolewrite`. -/
def consolewrite (ip : InodeId) (n : Nat) : K Nat := do
  iunlock ip
  ilock ip
  return n

/-- Read data from inode.  `off` and `n` are 32-bit. -/
def readi (ip : InodeId) (off n : Nat) : K (Option (List Byte)) := do
  let i ← inode ip
  if i.d.type = T_DEV then
    if i.d.major = CONSOLE then do
      let r ← consoleread ip n
      return some (List.replicate r 0)
    else return none
  else if i.d.size < off ∨ 4294967296 ≤ off + n then return none
  else
    let n := if i.d.size < off + n then i.d.size - off else n
    some <$> readLoop ip (n + 1) off n

/-- The loop of `writei`, one block a round. -/
def writeLoop (ip : InodeId) : Nat → Nat → List Byte → K Unit
  | 0, _, _ => return
  | fuel + 1, off, src =>
    if src = [] then return
    else do
      let i ← inode ip
      let b ← bmap ip (off / BSIZE)
      let bp ← bread i.dev b
      let m := min src.length (BSIZE - off % BSIZE)
      let d ← bdata bp
      setData bp (d.splice (off % BSIZE) (src.take m))
      logWrite bp
      brelse bp
      writeLoop ip fuel (off + m) (src.drop m)

/-- Write data to inode; the result is the number of bytes, `none` is -1. -/
def writei (ip : InodeId) (src : List Byte) (off : Nat) : K (Option Nat) := do
  let i ← inode ip
  if i.d.type = T_DEV then
    if i.d.major = CONSOLE then some <$> consolewrite ip src.length
    else return none
  else if i.d.size < off ∨ 4294967296 ≤ off + src.length then return none
  else if MAXFILE * BSIZE < off + src.length then return none
  else do
    writeLoop ip (src.length + 1) off src
    let i ← inode ip
    Act.runIf (0 < src.length && i.d.size < off + src.length) do
      setDinode ip fun d => { d with size := off + src.length }
      iupdate ip
    return some src.length

/-! ## Directories -/

/-- What `strncmp` compares of a string: up to `n` bytes, and not past a NUL. -/
def cString (n : Nat) (s : List Byte) : List Byte := (s.take n).takeWhile (· ≠ 0)

/-- `namecmp(s, t) == 0`. -/
def nameEq (s t : List Byte) : Bool := cString DIRSIZ s == cString DIRSIZ t

/-- `strncpy(de.name, name, DIRSIZ)`. -/
def padName (name : List Byte) : List Byte :=
  cString DIRSIZ name ++ List.replicate (DIRSIZ - (cString DIRSIZ name).length) 0

/-- `struct dirent`. -/
structure Dirent where
  inum : Nat
  name : List Byte
  deriving DecidableEq

def Dirent.ofBytes (l : List Byte) : Dirent where
  inum := (l.getD 0 0).toNat + 256 * (l.getD 1 0).toNat
  name := l.drop 2

def Dirent.toBytes (de : Dirent) : List Byte :=
  Bytes.byteAt de.inum 0 :: Bytes.byteAt de.inum 1 :: de.name

/-- The entry at an offset of a directory: `readi` of `sizeof(de)` bytes. -/
def readDirent (dp : InodeId) (off : Nat) (e : Panic) : K Dirent := do
  match ← readi dp off DESZ with
  | some l => if l.length = DESZ then return Dirent.ofBytes l else Act.fail e
  | none => Act.fail e

/-- The loop of `dirlookup`: the first entry from `off` on with the name. -/
def lookupLoop (dp : InodeId) (name : List Byte) : Nat → Nat → K (Option (Nat × Nat))
  | 0, _ => Act.fail .loop
  | fuel + 1, off => do
      let i ← inode dp
      if i.d.size ≤ off then return none
      else do
        let de ← readDirent dp off .dirlinkRead
        if de.inum ≠ 0 ∧ nameEq name de.name then return some (de.inum, off)
        else lookupLoop dp name fuel (off + DESZ)

/-- Rounds that suffice for a loop over the entries of a directory. -/
abbrev DIRFUEL : Nat := MAXFILE * BSIZE / DESZ + 2

/-- Look for a directory entry in a directory; returns its inode and its offset. -/
def dirlookup (dp : InodeId) (name : List Byte) : K (Option (InodeId × Nat)) := do
  let i ← inode dp
  Act.failIf (i.d.type != T_DIR) .dirlookup
  match ← lookupLoop dp name DIRFUEL 0 with
  | none => return none
  | some (inum, off) =>
    let ip ← iget i.dev inum
    return some (ip, off)

/-! ## Paths -/

/-- `'/'`. -/
abbrev SLASH : Byte := 47

/-- Copy the next path element from path into name; `none` if no name to remove. -/
def skipelem (path : List Byte) : Option (List Byte × List Byte) :=
  let path := path.dropWhile (· = SLASH)
  if path = [] then none
  else some ((path.takeWhile (· ≠ SLASH)).take DIRSIZ,
    (path.dropWhile (· ≠ SLASH)).dropWhile (· = SLASH))

/-- The loop of `namex`, from the inode reached so far; the name is that of the last
element removed. -/
def namexLoop (nameiparent : Bool) :
    Nat → InodeId → List Byte → List Byte → K (Option (InodeId × List Byte))
  | 0, _, _, _ => Act.fail .loop
  | fuel + 1, ip, path, name =>
    match skipelem path with
    | none =>
      if nameiparent then do
        iput ip
        return none
      else return some (ip, name)
    | some (name, path) => do
        ilock ip
        let i ← inode ip
        if i.d.type ≠ T_DIR then do
          iunlockput ip
          return none
        else if nameiparent && path == [] then do
          -- stop one level early
          iunlock ip
          return some (ip, name)
        else do
          match ← dirlookup ip name with
          | none =>
            iunlockput ip
            return none
          | some (next, _) =>
            iunlockput ip
            namexLoop nameiparent fuel next path name

/-- Look up and return the inode for a path name. -/
def namex (path : List Byte) (nameiparent : Bool) : K (Option (InodeId × List Byte)) := do
  let s ← Act.get
  let ip ←
    if path.head? = some SLASH then iget ROOTDEV ROOTINO
    else
      match (s.mem.procs s.mem.proc).cwd with
      | some cwd => idup cwd
      | none => Act.fail .null
  namexLoop nameiparent (path.length + 1) ip path []

def namei (path : List Byte) : K (Option InodeId) := do
  match ← namex path false with
  | some (ip, _) => return some ip
  | none => return none

def nameiparent (path : List Byte) : K (Option (InodeId × List Byte)) := namex path true

end Xv6Rpi.Kernel
