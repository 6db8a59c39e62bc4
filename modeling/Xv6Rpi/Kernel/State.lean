/-
# Kernel.State -- the kernel's data, its panics and what it shows the outside

The constants are those of `param.h`, `fs.h`, `stat.h` and `fcntl.h`.  One record
`KState` holds everything the file system touches: the buffer cache with the
memory disk under it (`bio.c`, `memide.c`), the log (`log.c`), and in `Mem` the
inode cache, the file table and the process table.

Fields the modelled functions do not read are left out: spin locks (one CPU, no
switch inside a critical section), `buf.qnext`, a file's pipe pointer, and the
parts of `struct proc` that belong to memory and scheduling.

`unsigned int` fields are `Nat`s; where the code relies on 32-bit arithmetic the
operation says so.  `busy` of the log carries the process that raised it, so that
a `log_write` can be attributed.
-/
import Xv6Rpi.Theory.Action
import Xv6Rpi.Theory.Bytes

namespace Xv6Rpi.Kernel

open Theory

set_option autoImplicit false

/-! ## Constants -/

abbrev NPROC : Nat := 64
abbrev NOFILE : Nat := 16
abbrev NFILE : Nat := 100
abbrev NBUF : Nat := 10
abbrev NINODE : Nat := 50

instance : NeZero NPROC := ⟨by decide⟩
instance : NeZero NINODE := ⟨by decide⟩

abbrev ROOTDEV : Nat := 1
abbrev LOGSIZE : Nat := 10

abbrev ROOTINO : Nat := 1
abbrev BSIZE : Nat := 512
abbrev NDIRECT : Nat := 12
abbrev NINDIRECT : Nat := 128
abbrev MAXFILE : Nat := NDIRECT + NINDIRECT
/-- Inodes per block: `sizeof(struct dinode)` is 64. -/
abbrev IPB : Nat := 8
/-- Bitmap bits per block. -/
abbrev BPB : Nat := 4096
abbrev DIRSIZ : Nat := 14
/-- `sizeof(struct dirent)`. -/
abbrev DESZ : Nat := 16

abbrev T_DIR : Nat := 1
abbrev T_FILE : Nat := 2
abbrev T_DEV : Nat := 3
abbrev CONSOLE : Nat := 1

/-- The device number `binit` gives a buffer that holds no block, `(uint)-1`. -/
abbrev NODEV : Nat := 4294967295

/-! ## Data -/

/-- The contents of a disk block. -/
abbrev Block : Type := Bytes BSIZE

/-- The blocks of a disk. -/
abbrev Disk : Type := Nat → Block

abbrev BufId : Type := Fin NBUF

/-- A `struct buf *` in the cache's list; `none` is `&bcache.head`. -/
abbrev BufPtr : Type := Option BufId

/-- `struct buf`, its list pointers kept in `Bio`. -/
structure Buf where
  busy : Bool
  valid : Bool
  dirty : Bool
  dev : Nat
  sector : Nat
  data : Block

/-- The buffer cache and the memory disk. -/
structure Bio where
  bufs : BufId → Buf
  next : BufPtr → BufPtr
  prev : BufPtr → BufPtr
  disk : Disk
  disksize : Nat

abbrev Pid : Type := Fin NPROC
abbrev InodeId : Type := Fin NINODE
abbrev FileId : Type := Fin NFILE

/-- `struct logheader`, as kept in memory. -/
structure LogHeader where
  n : Nat
  sector : Nat → Nat

/-- `struct log`. -/
structure Log where
  start : Nat
  size : Nat
  busy : Option Pid
  dev : Nat
  lh : LogHeader

/-- The superblock (block 1). -/
structure Superblock where
  size : Nat
  nblocks : Nat
  ninodes : Nat
  nlog : Nat
  deriving DecidableEq, Repr

/-- `struct dinode`; the four shorts are kept as they are stored, in `0 .. 65535`. -/
structure Dinode where
  type : Nat
  major : Nat
  minor : Nat
  nlink : Nat
  size : Nat
  addrs : Fin (NDIRECT + 1) → Nat

/-- The inodes, by number. -/
abbrev Inodes : Type := Nat → Dinode

/-- `struct inode`: an inode-cache entry with its copy of the disk inode. -/
structure Inode where
  dev : Nat
  inum : Nat
  ref : Nat
  busy : Bool
  valid : Bool
  d : Dinode

inductive FdType where
  | none
  | pipe
  | inode
  deriving DecidableEq, Repr

/-- `struct file`. -/
structure File where
  type : FdType
  ref : Nat
  readable : Bool
  writable : Bool
  ip : InodeId
  off : Nat

/-- What the file system reads of a process. -/
structure Proc where
  cwd : Option InodeId

/-- The in-memory tables of the file system, the process that is running, and how
many bytes the console has for the next read, once it has a line. -/
structure Mem where
  icache : InodeId → Inode
  ftable : FileId → File
  procs : Pid → Proc
  proc : Pid
  console : Option Nat

structure KState where
  bio : Bio
  log : Log
  mem : Mem

def Dinode.zeroed : Dinode := ⟨0, 0, 0, 0, 0, fun _ => 0⟩

/-- The kernel's memory before any initialisation, all zero, over a disk. -/
def KState.zeroed (disk : Disk) (disksize : Nat) : KState where
  bio :=
    { bufs := fun _ => ⟨false, false, false, 0, 0, Bytes.zero⟩
      next := fun _ => none
      prev := fun _ => none
      disk := disk
      disksize := disksize }
  log := ⟨0, 0, none, 0, 0, fun _ => 0⟩
  mem :=
    { icache := fun _ => ⟨0, 0, 0, false, false, Dinode.zeroed⟩
      ftable := fun _ => ⟨.none, 0, false, false, 0, 0⟩
      procs := fun _ => ⟨none⟩
      proc := 0
      console := none }

/-! ## Panics and events -/

/-- The panics of the modelled functions.  The last three are not panics of the code:
a search loop that does not end, a store past the end of an array, and a null pointer
followed. -/
inductive Panic where
  | bget | bwrite | brelse
  | iderwBusy | iderwNothing | iderwDev | iderwRange
  | initlog | tooBig | outsideTrans
  | balloc | freeFree | ialloc | iget | ilock | ilockType | iunlock | iputBusy | bmap
  | dirlookup | dirlinkRead
  | filewrite | shortFilewrite
  | loop | overrun | null
  deriving DecidableEq, Repr

/-- What a run shows: a sector written to the disk, a call of `log_write` with its
caller and the process whose transaction is open, and the block `balloc` picks. -/
inductive Event where
  | write (sector : Nat) (data : Block)
  | logWrite (caller : Pid) (owner : Option Pid)
  | balloc (b : Nat)

/-- Kernel code. -/
abbrev K (α : Type) : Type := Act KState Panic Event α

abbrev KContract : Type := Contract KState Panic Event

/-- Replace one entry of a table. -/
def upd {ι α : Type} [DecidableEq ι] (f : ι → α) (i : ι) (x : α) : ι → α :=
  fun j => if j = i then x else f j

section Upd

variable {ι α : Type} [DecidableEq ι]

@[simp] theorem upd_same (f : ι → α) (i : ι) (x : α) : upd f i x i = x := by simp [upd]

@[simp] theorem upd_ne (f : ι → α) {i j : ι} (x : α) (ne : j ≠ i) : upd f i x j = f j := by
  simp [upd, ne]

theorem upd_apply (f : ι → α) (i j : ι) (x : α) : upd f i x j = if j = i then x else f j := rfl

theorem upd_idem (f : ι → α) (i : ι) (x y : α) : upd (upd f i x) i y = upd f i y := by
  funext j
  by_cases same : j = i <;> simp [upd, same]

theorem upd_eq_update (f : ι → α) (i : ι) (x : α) : upd f i x = Function.update f i x := by
  funext j
  by_cases same : j = i
  · subst same; simp
  · simp [same]

theorem upd_eq_self (f : ι → α) (i : ι) : upd f i (f i) = f := by
  rw [upd_eq_update, Function.update_eq_self]

theorem forall_upd {P : ι → α → Prop} {f : ι → α} {i : ι} {x : α} (here : P i x)
    (there : ∀ j, j ≠ i → P j (f j)) (j : ι) : P j (upd f i x j) := by
  rw [upd_apply]
  split
  case isTrue same => exact same ▸ here
  case isFalse ne => exact there j ne

end Upd

end Xv6Rpi.Kernel
