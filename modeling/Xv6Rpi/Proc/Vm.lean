/-
# Proc.Vm -- page tables

`vm.c`.  Memory comes from the buddy allocator (`Kernel.Buddy`), and page tables also
from a list of them left over at boot.

An address is a number, a kernel virtual one unless it is said to be physical.  A page
table or directory is 256 words at its address, and a user page 4096 bytes; what
`initcode` puts into its page is left out, and so are the kernel's own page tables, which
`paging_init` makes before any process exists.  A file that is loaded comes with its contents.
`fails` tells which of the next allocations return `NULL` although there may be memory.
-/
import Xv6Rpi.Kernel.BuddyHeap
import Xv6Rpi.Kernel.State

namespace Xv6Rpi.Proc.Vm

open Theory
open Kernel (Client KmemPanic MAXFILE BSIZE upd KERNBASE INIT_KERNMAP)

set_option autoImplicit false

/-! ## Layout -/

abbrev PTE_SZ : Nat := 4096
abbrev PDE_SZ : Nat := 1048576
abbrev NUM_UPDE : Nat := 256
abbrev UADDR_SZ : Nat := 268435456
/-- The order of a page. -/
abbrev PTE_SHIFT : Nat := 12
/-- The order of a page table. -/
abbrev PT_ORDER : Nat := 10
abbrev AP_KU : Nat := 3
abbrev AP_KO : Nat := 1
/-- The number of values of a `uint`. -/
abbrev UINTS : Nat := 4294967296

/-- `align_up`. -/
def alignUp (x al : Nat) : Nat := (x + al - 1) % UINTS / al * al

def p2v (a : Nat) : Nat := a + KERNBASE
def v2p (a : Nat) : Nat := a - KERNBASE

def PDE_IDX (va : Nat) : Nat := va / PDE_SZ
def PTE_IDX (va : Nat) : Nat := va / PTE_SZ % 256

/-- `e & PE_TYPES`: the entry is in use. -/
def present (e : Nat) : Bool := e % 4 != 0

/-- The page table an entry of a directory points to. -/
def ptAddr (pde : Nat) : Nat := pde / 1024 * 1024

/-- `PTE_ADDR`: the page an entry of a page table points to. -/
def pteAddr (pte : Nat) : Nat := pte / 4096 * 4096

def pteAp (pte : Nat) : Nat := pte / 16 % 4

/-- `pa | ((ap & 0x3) << 4) | PE_CACHE | PE_BUF | PTE_TYPE`. -/
def mkPte (pa ap : Nat) : Nat := pa ||| ap % 4 * 16 ||| 8 ||| 4 ||| 2

/-! ## State -/

/-- The words of page tables and directories: word `i` of the one at an address. -/
abbrev Words : Type := Nat → Nat → Nat

/-- The memory as `vm.c` sees it.  `boot` are the page tables of the list at boot, and
`misses` the orders for which `kmalloc` has returned `NULL` since a call began; the code
has neither. -/
structure VMem where
  heap : Client
  /-- `kpt_mem.freelist` -/
  freelist : List Nat
  boot : List Nat
  words : Words
  /-- the byte at an address, in a user page -/
  bytes : Nat → BitVec 8
  fails : List Bool
  misses : List Nat

/-- The last four are not panics of the code: a loop that does not end, a read past the
end of a directory, a null pointer followed, and a pointer followed that was never set. -/
inductive VmPanic where
  | kmem (p : KmemPanic)
  | oom | remap | deallocuvm | freevm | copyuvmPte | copyuvmPage
  | loaduvmAlign | loaduvmPte | clearpteu
  | trapInit | initExiting | filedup | fileclose
  | loop | overrun | null | wild
  deriving DecidableEq

/-- Where page tables come from: the list of boot-time ones, or the buddy allocator. -/
inductive Pool where
  | boot
  | buddy
  deriving DecidableEq

/-- `kpt_free` returns a page table to a pool; `taken` is the one it was taken from. -/
inductive VmEvent where
  | kptFree (taken : Option Pool) (back : Pool)
  deriving DecidableEq

/-- Code of `vm.c`. -/
abbrev V (α : Type) : Type := Act VMem VmPanic VmEvent α

abbrev VContract : Type := Contract VMem VmPanic VmEvent

/-! ## Allocation -/

/-- `kmalloc`; 0 is `NULL`. -/
def kmalloc (order : Nat) : V Nat := fun m =>
  if m.fails.head? = some true then
    .done 0 { m with fails := m.fails.tail, misses := order :: m.misses }
  else
    match m.heap.km.kmalloc order with
    | .error p => .fail (.kmem p) m
    | .ok (mem, km) =>
      if mem = 0 then
        .done 0 { m with heap := ⟨km, m.heap.live⟩, fails := m.fails.tail
                         misses := order :: m.misses }
      else
        .done mem { m with heap := ⟨km, insert (mem, order) m.heap.live⟩, fails := m.fails.tail }

def kfree (mem order : Nat) : V Unit := fun m =>
  match m.heap.km.kfree mem order with
  | .error p => .fail (.kmem p) m
  | .ok km => .done () { m with heap := ⟨km, m.heap.live.erase (mem, order)⟩ }

/-- `alloc_page`. -/
def allocPage : V Nat := kmalloc PTE_SHIFT

/-- `free_page`. -/
def freePage (v : Nat) : V Unit := kfree v PTE_SHIFT

/-- Change the contents of page tables. -/
def store (f : Words → Words) : V Unit :=
  Act.modify fun m => { m with words := f m.words }

/-- `memset(t, 0, PT_SZ)`. -/
def clearTable (t : Nat) : V Unit := store fun w => upd w t fun _ => 0

/-- Store word `i` of the table at `t`. -/
def setWord (t i e : Nat) : V Unit := store fun w => upd w t (upd (w t) i e)

def word (t i : Nat) : V Nat := fun m => .done (m.words t i) m

/-- Memory with other bytes in the page at `mem`. -/
def filled (bytes : Nat → BitVec 8) (mem : Nat) (f : Nat → BitVec 8) : Nat → BitVec 8 :=
  fun a => if mem ≤ a ∧ a < mem + PTE_SZ then f (a - mem) else bytes a

/-- `memset(mem, 0, PTE_SZ)`. -/
def clearPage (mem : Nat) : V Unit :=
  Act.modify fun m => { m with bytes := filled m.bytes mem fun _ => 0 }

/-- `memmove(mem, src, PTE_SZ)`. -/
def copyPage (mem src : Nat) : V Unit :=
  Act.modify fun m => { m with bytes := filled m.bytes mem fun i => m.bytes (src + i) }

/-- `P2V(INIT_KERNMAP)`. -/
abbrev BOOT_END : Nat := KERNBASE + INIT_KERNMAP

/-- Where an outstanding page table was taken from. -/
def VMem.takenFrom (m : VMem) (v : Nat) : Option Pool :=
  if (v, PT_ORDER) ∈ m.heap.live then some .buddy
  else if v ∈ m.boot ∧ v ∉ m.freelist then some .boot
  else none

def kptFree (v : Nat) : V Unit := do
  let m ← Act.get
  Act.emit (.kptFree (m.takenFrom v) (if BOOT_END ≤ v then .buddy else .boot))
  if BOOT_END ≤ v then kfree v PT_ORDER
  else Act.modify fun m => { m with freelist := v :: m.freelist }

def kptAlloc : V Nat := do
  let m ← Act.get
  match m.freelist with
  | r :: rest => do
      Act.modify fun m => { m with freelist := rest }
      clearTable r
      return r
  | [] => do
      -- allocate a PT page if no initial pages are available
      let r ← kmalloc PT_ORDER
      Act.failIf (r == 0) .oom
      clearTable r
      return r

/-! ## Page tables -/

/-- The entry for `va`: the page table and the index in it. -/
def walkpgdir (pgdir va : Nat) (alloc : Bool) : V (Option (Nat × Nat)) := do
  Act.failIf (NUM_UPDE ≤ PDE_IDX va) .overrun
  let pde ← word pgdir (PDE_IDX va)
  if present pde then return some (p2v (ptAddr pde), PTE_IDX va)
  else if alloc then do
    let pgtab ← kptAlloc
    clearTable pgtab
    setWord pgdir (PDE_IDX va) (v2p pgtab ||| 1)
    return some (pgtab, PTE_IDX va)
  else return none

/-- One round of `mappages`. -/
def mapPage (pgdir va pa ap : Nat) : V Unit := do
  match ← walkpgdir pgdir va true with
  | none => return
  | some (t, j) => do
      let pte ← word t j
      Act.failIf (present pte) .remap
      setWord t j (mkPte pa ap)

/-- More than there are pages. -/
abbrev PAGEFUEL : Nat := 65537

/-- The loop of `mappages`, from the page at `a` to the one at `last`. -/
def mapLoop (pgdir last ap : Nat) : Nat → Nat → Nat → V Unit
  | 0, _, _ => Act.fail .loop
  | fuel + 1, a, pa => do
      mapPage pgdir a pa ap
      if a = last then return
      else mapLoop pgdir last ap fuel ((a + PTE_SZ) % UINTS) ((pa + PTE_SZ) % UINTS)

/-- Map the pages that `size` bytes from `va` on touch.  It never returns -1. -/
def mappages (pgdir va size pa ap : Nat) : V Unit :=
  mapLoop pgdir ((va + size + (UINTS - 1)) % UINTS / PTE_SZ * PTE_SZ) ap PAGEFUEL
    (va / PTE_SZ * PTE_SZ) pa

/-- `a`, `a + PTE_SZ`, ... below `last`. -/
def pagesFrom (a last : Nat) : List Nat :=
  (List.range ((last - a + (PTE_SZ - 1)) / PTE_SZ)).map fun k => a + PTE_SZ * k

/-- The loop of `deallocuvm`. -/
def deallocLoop (pgdir oldsz : Nat) : Nat → Nat → V Unit
  | 0, _ => Act.fail .loop
  | fuel + 1, a =>
    if oldsz ≤ a then return
    else do
      match ← walkpgdir pgdir a false with
      | none => deallocLoop pgdir oldsz fuel (alignUp a PDE_SZ + PTE_SZ)
      | some (t, j) => do
          let pte ← word t j
          Act.runIf (present pte) do
            Act.failIf (pteAddr pte == 0) .deallocuvm
            freePage (p2v (pteAddr pte))
            setWord t j 0
          deallocLoop pgdir oldsz fuel (a + PTE_SZ)

/-- Deallocate user pages to bring the process size from `oldsz` to `newsz`. -/
def deallocuvm (pgdir oldsz newsz : Nat) : V Nat :=
  if oldsz ≤ newsz then return oldsz
  else do
    deallocLoop pgdir oldsz PAGEFUEL (alignUp newsz PTE_SZ)
    return newsz

/-- The loop of `allocuvm`. -/
def allocLoop (pgdir oldsz newsz : Nat) : List Nat → V Nat
  | [] => return newsz
  | a :: rest => do
      let mem ← allocPage
      if mem = 0 then do
        let _ ← deallocuvm pgdir newsz oldsz
        return 0
      else do
        clearPage mem
        mappages pgdir a PTE_SZ (v2p mem) AP_KU
        allocLoop pgdir oldsz newsz rest

/-- Allocate page tables and physical memory to grow a process; 0 on error. -/
def allocuvm (pgdir oldsz newsz : Nat) : V Nat :=
  if UADDR_SZ ≤ newsz then return 0
  else if newsz < oldsz then return oldsz
  else allocLoop pgdir oldsz newsz (pagesFrom (alignUp oldsz PTE_SZ) newsz)

/-- Free the page table of one directory entry. -/
def freeTable (pgdir i : Nat) : V Unit := do
  let pde ← word pgdir i
  Act.runIf (present pde) (kptFree (p2v (ptAddr pde)))

/-- Free a page table and all the physical memory pages in the user part. -/
def freevm (pgdir : Nat) : V Unit := do
  Act.failIf (pgdir == 0) .freevm
  let _ ← deallocuvm pgdir UADDR_SZ 0
  Act.forEach (freeTable pgdir) (List.range NUM_UPDE)
  kptFree pgdir

/-- The loop of `copyuvm`; false when memory runs out. -/
def copyLoop (pgdir d : Nat) : List Nat → V Bool
  | [] => return true
  | i :: rest => do
      match ← walkpgdir pgdir i false with
      | none => Act.fail .copyuvmPte
      | some (t, j) => do
          let pte ← word t j
          Act.failIf (!present pte) .copyuvmPage
          let mem ← allocPage
          if mem = 0 then return false
          else do
            copyPage mem (p2v (pteAddr pte))
            mappages d i PTE_SZ (v2p mem) (pteAp pte)
            copyLoop pgdir d rest

/-- Given a parent's page table, create a copy of it for a child; 0 on error. -/
def copyuvm (pgdir sz : Nat) : V Nat := do
  let d ← kptAlloc
  let whole ← copyLoop pgdir d (pagesFrom 0 sz)
  if whole then return d
  else do
    freevm d
    return 0

/-! ## Files -/

/-- The contents of a file.  It is no longer than an inode can hold, so no loop over its bytes
comes near the end of the `uint`s. -/
structure FileBytes where
  size : Nat
  bytes : Bytes size
  fits : size ≤ MAXFILE * BSIZE

namespace FileBytes

variable (f : FileBytes)

/-- What `readi` returns. -/
def readi (off n : Nat) : Int :=
  if f.size < off ∨ (off + n) % UINTS < off then -1
  else if f.size < off + n then f.size - off
  else n

/-- The bytes that `readi` copies. -/
def readBytes (off n : Nat) : List Byte := f.bytes.slice off (f.readi off n).toNat

/-- The bytes `loaduvm` reads for the page at `i`. -/
def chunk (filesz i : Nat) : Nat := if filesz - i < PTE_SZ then filesz - i else PTE_SZ

end FileBytes

/-! ## Loading a program -/

/-- The contents with `data` from address `a` on. -/
def placed (f : Nat → Byte) (a : Nat) (data : List Byte) : Nat → Byte := fun x =>
  if a ≤ x then (data[x - a]?).getD (f x) else f x

/-- `memmove(a, data, ...)`. -/
def putBytes (a : Nat) (data : List Byte) : V Unit :=
  Act.modify fun m => { m with bytes := placed m.bytes a data }

/-- The loop of `loaduvm`; false is -1.  Whether the entry is in use is not looked at. -/
def loadPages (pgdir addr : Nat) (f : FileBytes) (offset sz : Nat) : List Nat → V Bool
  | [] => return true
  | i :: rest => do
      match ← walkpgdir pgdir ((addr + i) % UINTS) false with
      | none => Act.fail .loaduvmPte
      | some (t, j) => do
          let pte ← word t j
          let n := FileBytes.chunk sz i
          putBytes (p2v (pteAddr pte)) (f.readBytes ((offset + i) % UINTS) n)
          if f.readi ((offset + i) % UINTS) n = n then loadPages pgdir addr f offset sz rest
          else return false

/-- Load a program segment into pgdir. -/
def loaduvm (pgdir addr : Nat) (f : FileBytes) (offset sz : Nat) : V Bool := do
  Act.failIf (addr % PTE_SZ != 0) .loaduvmAlign
  loadPages pgdir addr f offset sz (pagesFrom 0 sz)

/-- `(pte & ~(0x03 << 4)) | AP_KO << 4`. -/
def kernelOnly (pte : Nat) : Nat := pte - pteAp pte * 16 + AP_KO * 16

/-- Clear PTE_U on a page. -/
def clearpteu (pgdir uva : Nat) : V Unit := do
  match ← walkpgdir pgdir uva false with
  | none => Act.fail .clearpteu
  | some (t, j) => do
      let pte ← word t j
      setWord t j (kernelOnly pte)

/-- Map user virtual address to kernel address; 0 is `NULL`. -/
def uva2ka (pgdir uva : Nat) : V Nat := do
  match ← walkpgdir pgdir uva false with
  | none => Act.fail .null
  | some (t, j) => do
      let pte ← word t j
      -- make sure it exists and is a user page
      if present pte ∧ pteAp pte = AP_KU then return p2v (pteAddr pte) else return 0

/-- The loop of `copyout`; false is -1. -/
def copyoutLoop (pgdir : Nat) : Nat → Nat → List Byte → V Bool
  | 0, _, data => if data.isEmpty then return true else Act.fail .loop
  | fuel + 1, va, data =>
    if data.isEmpty then return true
    else do
      let va0 := va / PTE_SZ * PTE_SZ
      let pa0 ← uva2ka pgdir va0
      if pa0 = 0 then return false
      else do
        let n := min (PTE_SZ - (va - va0)) data.length
        putBytes (pa0 + (va - va0)) (data.take n)
        copyoutLoop pgdir fuel ((va0 + PTE_SZ) % UINTS) (data.drop n)

/-- Copy `data` to user address `va` in page table pgdir. -/
def copyout (pgdir va : Nat) (data : List Byte) : V Bool := copyoutLoop pgdir data.length va data

end Xv6Rpi.Proc.Vm
