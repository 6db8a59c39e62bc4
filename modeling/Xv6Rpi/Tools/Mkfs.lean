/-
# Tools.Mkfs -- the layout that `mkfs` gives a disk

Of `tools/mkfs.c` the numbers, the superblock and the bitmap.  The host's byte order does not
matter: `xint` writes what the kernel reads.
-/
import Xv6Rpi.Kernel.Fs

namespace Xv6Rpi.Tools.Mkfs

open Theory Kernel

set_option autoImplicit false

abbrev nblocks : Nat := 985
abbrev nlog : Nat := LOGSIZE
abbrev ninodes : Nat := 200
abbrev size : Nat := 1024

abbrev bitblocks : Nat := size / (512 * 8) + 1

/-- `usedblocks` to begin with: boot block, superblock, inodes and bitmap. -/
abbrev metablocks : Nat := ninodes / IPB + 3 + bitblocks

def sb : Superblock := ⟨size, nblocks, ninodes, nlog⟩

/-- The superblock's block. -/
def sbBlock : Block :=
  (((Bytes.zero.put32 0 size).put32 4 nblocks).put32 8 ninodes).put32 12 nlog

/-- The bitmap block with the first `used` blocks marked. -/
def balloc (used : Nat) : Block := (List.range used).foldl Bytes.setBit Bytes.zero

end Xv6Rpi.Tools.Mkfs
