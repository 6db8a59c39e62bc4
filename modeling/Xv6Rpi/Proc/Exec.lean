/-
# Proc.Exec -- `exec` with everything it reads and writes

`exec.c`.  The state is that of the calling process, the kernel's memory, and the inodes: how
often each is referred to and whether it is locked.  The inode that `namei` finds comes with its
contents; `exec` only reads it, and that it may have to wait for the lock is left out.  `junk` is
what the variable `pgdir` holds before it is first set.
-/
import Xv6Rpi.Proc.Vm

namespace Xv6Rpi.Proc.Vm.FileBytes

open Theory

set_option autoImplicit false

/-! ## ELF files -/

variable (f : FileBytes)

abbrev ELF_MAGIC : Nat := 0x464C457F
abbrev ELF_PROG_LOAD : Nat := 1
/-- `sizeof(struct elfhdr)`. -/
abbrev ELFHDR_SZ : Nat := 52
/-- `sizeof(struct proghdr)`. -/
abbrev PROGHDR_SZ : Nat := 32

def magic : Nat := f.bytes.u32 0
def entry : Nat := f.bytes.u32 24
def phoff : Nat := f.bytes.u32 28
def phnum : Nat := f.bytes.u16 44

/-- The file begins with an ELF header.  At offset 0 `readi` does not return -1, so it does not
matter that the comparison is one of unsigned numbers. -/
def header : Bool := decide ((ELFHDR_SZ : Int) ≤ f.readi 0 ELFHDR_SZ) && f.magic == ELF_MAGIC

end Xv6Rpi.Proc.Vm.FileBytes

namespace Xv6Rpi.Proc.Exec

open Theory
open Proc.Vm
open Kernel (upd)

set_option autoImplicit false

/-- The arguments of a program. -/
abbrev Argv : Type := List (List Byte)

/-- Where the stack ends when there are `n` pages below the guard page. -/
abbrev topOf (n : Nat) : Nat := PTE_SZ * (n + 2)

/-- What `exec` reads of a program header. -/
structure Proghdr where
  type : Nat
  off : Nat
  vaddr : Nat
  filesz : Nat
  memsz : Nat
  deriving DecidableEq

/-- The program header at `off`, none if it cannot be read. -/
def proghdr (f : FileBytes) (off : Nat) : Option Proghdr :=
  if f.readi off FileBytes.PROGHDR_SZ ≠ FileBytes.PROGHDR_SZ then none
  else some ⟨f.bytes.u32 off, f.bytes.u32 (off + 4), f.bytes.u32 (off + 8), f.bytes.u32 (off + 16),
    f.bytes.u32 (off + 20)⟩

/-- The program headers, in the order in which `exec` reads them. -/
def proghdrs (f : FileBytes) : List (Option Proghdr) :=
  (List.range f.phnum).map fun i => proghdr f ((f.phoff + FileBytes.PROGHDR_SZ * i) % UINTS)

/-! ## State -/

structure Trapframe where
  spUsr : Nat
  lrUsr : Nat
  r14Svc : Nat
  spsr : Nat
  r0 : Nat
  r1 : Nat
  /-- `r2` to `r12` -/
  regs : Nat → Nat
  pc : Nat

/-- The process that calls `exec`, and what it works on. -/
structure Task where
  mem : VMem
  pgdir : Nat
  sz : Nat
  name : List Byte
  cwd : Option Nat
  tf : Trapframe
  irefs : Nat → Nat
  locked : Nat → Bool

abbrev X (α : Type) : Type := Act Task VmPanic VmEvent α

abbrev XContract : Type := Contract Task VmPanic VmEvent

/-- Code of `vm.c`. -/
def vm {α : Type} (x : V α) : X α := Act.zoom Task.mem (fun m t => { t with mem := m }) x

/-- `namei` returns a reference. -/
def iget (ip : Nat) : X Unit :=
  Act.modify fun t => { t with irefs := upd t.irefs ip (t.irefs ip + 1) }

def ilock (ip : Nat) : X Unit := Act.modify fun t => { t with locked := upd t.locked ip true }

def iunlockput (ip : Nat) : X Unit := do
  Act.modify fun t => { t with locked := upd t.locked ip false }
  Act.modify fun t => { t with irefs := upd t.irefs ip (t.irefs ip - 1) }

/-! ## Loading -/

/-- The loop over the program headers; the result is the size, none to give up. -/
def loadProgram (pgdir : Nat) (f : FileBytes) : List (Option Proghdr) → Nat → V (Option Nat)
  | [], sz => return some sz
  | none :: _, _ => return none
  | some ph :: rest, sz =>
    if ph.type ≠ FileBytes.ELF_PROG_LOAD then loadProgram pgdir f rest sz
    else if ph.memsz < ph.filesz then return none
    else do
      let sz ← allocuvm pgdir sz ((ph.vaddr + ph.memsz) % UINTS)
      if sz = 0 then return none
      else do
        let loaded ← loaduvm pgdir ph.vaddr f ph.off ph.filesz
        if loaded then loadProgram pgdir f rest sz else return none

/-- The stack on top of a program of `sz` bytes: the new size, none to give up. -/
def stackPages (pgdir sz : Nat) : V (Option Nat) := do
  let sz := alignUp sz PTE_SZ
  let sz' ← allocuvm pgdir sz ((sz + 2 * PTE_SZ) % UINTS)
  if sz' = 0 then return none
  else do
    clearpteu pgdir (sz' - 2 * PTE_SZ)
    return some sz'

/-! ## Arguments -/

abbrev MAXARG : Nat := 32

/-- A string with its terminator. -/
def cstring (s : List Byte) : List Byte := s ++ [0]

/-- A word as it stands in memory. -/
def wordBytes (x : Nat) : List Byte := (List.range 4).map (Bytes.byteAt x)

/-- `(sp - (strlen(arg) + 1)) & ~3`. -/
def pushed (sp len : Nat) : Nat := (sp + UINTS - (len + 1)) % UINTS / 4 * 4

/-- Push argument strings; the result is the stack pointer and the addresses of the strings,
none to give up. -/
def pushStrings (pgdir : Nat) : Argv → Nat → Nat → V (Option (Nat × List Nat))
  | [], _, sp => return some (sp, [])
  | s :: rest, argc, sp =>
    if MAXARG ≤ argc then return none
    else do
      let sp := pushed sp s.length
      let copied ← copyout pgdir sp (cstring s)
      if copied then do
        match ← pushStrings pgdir rest (argc + 1) sp with
        | none => return none
        | some (sp', ustack) => return some (sp', sp :: ustack)
      else return none

/-- `ustack`, as bytes. -/
def vectorBytes (ustack : List Nat) : List Byte := (ustack ++ [0]).flatMap wordBytes

/-- Where the vector goes: `sp - (argc + 1) * 4`. -/
def vectorAt (sp argc : Nat) : Nat := (sp + UINTS - (argc + 1) * 4) % UINTS

/-! ## The name -/

/-- The part of a path after its last slash. -/
def lastPart : List Byte → List Byte → List Byte
  | last, [] => last
  | last, c :: rest => lastPart (if c = 47 then rest else last) rest

/-- `safestrcpy(s, t, n)`, which stores one more zero after that of a short string. -/
def safestrcpy (s t : List Byte) (n : Nat) : List Byte :=
  let copy := (cstring t).take (n - 1) ++ [0]
  copy ++ s.drop copy.length

/-! ## `exec` -/

/-- `bad:`. -/
def bad (pgdir : Nat) : X Int := do
  vm (freevm pgdir)
  return -1

/-- The program is loaded, with the inode locked: the new page directory and the size of the
program, none for `bad`. -/
def execLoad (ip : Nat) (f : FileBytes) : X (Option (Nat × Nat)) := do
  let pgdir ← vm kptAlloc
  match ← vm (loadProgram pgdir f (proghdrs f) 0) with
  | none => do
      vm (freevm pgdir)
      iunlockput ip
      return none
  | some sz => do
      iunlockput ip
      return some (pgdir, sz)

/-- The new address space, with its stack: the page directory and the size, none for `bad`. -/
def execImage (ip : Nat) (f : FileBytes) : X (Option (Nat × Nat)) := do
  match ← execLoad ip f with
  | none => return none
  | some (pgdir, sz) => do
      match ← vm (stackPages pgdir sz) with
      | none => do
          vm (freevm pgdir)
          return none
      | some sz => return some (pgdir, sz)

/-- The new image with its arguments takes the place of the old one. -/
def commit (path : List Byte) (f : FileBytes) (pgdir sz sp : Nat) : X Int := do
  let t ← Act.get
  Act.modify fun t => { t with
    name := safestrcpy t.name (lastPart path path) 16
    pgdir := pgdir
    sz := sz
    tf := { t.tf with pc := f.entry, spUsr := sp } }
  vm (freevm t.pgdir)
  return 0

/-- The arguments, with the stack at the top of the new address space. -/
def execArgs (path : List Byte) (f : FileBytes) (argv : Argv) (pgdir sz : Nat) : X Int := do
  match ← vm (pushStrings pgdir argv 0 sz) with
  | none => bad pgdir
  | some (sp, ustack) => do
      let argc := argv.length
      -- in ARM, parameters are passed in r0 and r1
      Act.modify fun t => { t with tf := { t.tf with r0 := argc, r1 := vectorAt sp argc } }
      let copied ← vm (copyout pgdir (vectorAt sp argc) (vectorBytes ustack))
      if copied then commit path f pgdir sz (vectorAt sp argc) else bad pgdir

/-- `exec(path, argv)`, where `namei(path)` is `node`. -/
def exec (junk : Nat) (path : List Byte) (node : Option (Nat × FileBytes)) (argv : Argv) :
    X Int :=
  match node with
  | none => return -1
  | some (ip, f) => do
      iget ip
      ilock ip
      if f.header then do
        match ← execImage ip f with
        | none => return -1
        | some (pgdir, sz) => execArgs path f argv pgdir sz
      else do
        -- `bad:` frees whatever `pgdir` happens to hold
        Act.failIf (junk != 0) .wild
        iunlockput ip
        return -1

end Xv6Rpi.Proc.Exec
