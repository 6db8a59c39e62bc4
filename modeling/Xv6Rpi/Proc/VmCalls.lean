/-
# Proc.VmCalls -- the system calls that allocate and free memory

`fork`, `exit`, `wait` and `growproc` of `proc.c`, `exec.c`, the allocation and closing
of pipes (`pipe.c`, `file.c`, `sysfile.c`), and the parts of booting that take memory
for good.  Between two sleeps kernel code is one step, and none of these calls sleeps
while it holds memory that nothing points to.

Scheduling is left out: `runnable` stands for every process that can make a call, and
any zombie can be waited for.  Of the file system there are the counts of references to
inodes; the file that `exec` reads comes with the call, and `open` and `chdir` only take
and drop references.
-/
import Mathlib.Data.List.FinRange
import Xv6Rpi.Proc.Exec
import Xv6Rpi.Proc.Table

namespace Xv6Rpi.Proc.Vm

open Theory
open Kernel (Client Kmem NPROC NFILE NOFILE Pid FileId FdType upd)

set_option autoImplicit false

/-- `get_order(sizeof(struct pipe))`. -/
abbrev PIPE_ORDER : Nat := 10
/-- The number of the system call, in `r0` when it is made. -/
abbrev SYS_exec : Nat := 7
/-- The slot of `initproc`. -/
abbrev INITPROC : Pid := 0

/-! ## State -/

/-- `struct proc`, as far as memory and references go. -/
structure VmProc where
  state : Procstate
  pid : Int
  kstack : Nat
  pgdir : Nat
  sz : Nat
  ofile : Fin NOFILE → Option FileId
  cwd : Option Nat

/-- `struct file`. -/
structure VmFile where
  type : FdType
  ref : Nat
  writable : Bool
  pipe : Nat
  ip : Nat

/-- The two flags of a `struct pipe`. -/
structure Ends where
  readopen : Bool
  writeopen : Bool
  deriving DecidableEq

structure Sys where
  mem : VMem
  procs : Pid → VmProc
  nextpid : Int
  files : FileId → VmFile
  /-- the pipe at an address -/
  pipes : Nat → Ends
  /-- the stacks for the other modes of the processor -/
  modeStack : Fin 4 → Nat
  /-- references to an inode -/
  irefs : Nat → Nat

/-- Kernel code. -/
abbrev C (α : Type) : Type := Act Sys VmPanic VmEvent α

/-- Call a function of `vm.c`. -/
def vm {α : Type} (x : V α) : C α := Act.zoom Sys.mem (fun m s => { s with mem := m }) x

def setProc (p : Pid) (f : VmProc → VmProc) : C Unit :=
  Act.modify fun s => { s with procs := upd s.procs p (f (s.procs p)) }

def setFile (i : FileId) (f : VmFile → VmFile) : C Unit :=
  Act.modify fun s => { s with files := upd s.files i (f (s.files i)) }

def idup (ip : Nat) : C Unit :=
  Act.modify fun s => { s with irefs := upd s.irefs ip (s.irefs ip + 1) }

def iput (ip : Nat) : C Unit :=
  Act.modify fun s => { s with irefs := upd s.irefs ip (s.irefs ip - 1) }

/-! ## Files and pipes -/

def Sys.freeFile (s : Sys) : Option FileId := (List.finRange NFILE).find? fun i => (s.files i).ref = 0

/-- Allocate a file structure. -/
def filealloc : C (Option FileId) := do
  let s ← Act.get
  match s.freeFile with
  | none => return none
  | some i => do
      setFile i fun f => { f with ref := 1 }
      return some i

def filedup (i : FileId) : C Unit := do
  let s ← Act.get
  Act.failIf ((s.files i).ref < 1) .filedup
  setFile i fun f => { f with ref := f.ref + 1 }

def Ends.shut (e : Ends) (writable : Bool) : Ends :=
  if writable then { e with writeopen := false } else { e with readopen := false }

def pipeclose (a : Nat) (writable : Bool) : C Unit := do
  Act.modify fun s => { s with pipes := upd s.pipes a ((s.pipes a).shut writable) }
  let s ← Act.get
  Act.runIf (!(s.pipes a).readopen && !(s.pipes a).writeopen) (vm (kfree a PIPE_ORDER))

/-- Close a file: decrement the count, close when it reaches 0. -/
def fileclose (i : FileId) : C Unit := do
  let s ← Act.get
  let ff := s.files i
  Act.failIf (ff.ref < 1) .fileclose
  if 0 < ff.ref - 1 then setFile i fun f => { f with ref := f.ref - 1 }
  else do
    setFile i fun f => { f with ref := 0, type := .none }
    match ff.type with
    | .pipe => pipeclose ff.pipe ff.writable
    | .inode => iput ff.ip
    | .none => return

/-- `pipealloc`: the two ends, or nothing. -/
def pipealloc : C (Option (FileId × FileId)) := do
  match ← filealloc with
  | none => return none
  | some f0 => do
      match ← filealloc with
      | none => do
          fileclose f0
          return none
      | some f1 => do
          let p ← vm (kmalloc PIPE_ORDER)
          if p = 0 then do
            fileclose f0
            fileclose f1
            return none
          else do
            Act.modify fun s => { s with pipes := upd s.pipes p ⟨true, true⟩ }
            setFile f0 fun f => { f with type := .pipe, writable := false, pipe := p }
            setFile f1 fun f => { f with type := .pipe, writable := true, pipe := p }
            return some (f0, f1)

def VmProc.freeFd (p : VmProc) : Option (Fin NOFILE) :=
  (List.finRange NOFILE).find? fun fd => (p.ofile fd).isNone

def setFd (p : Pid) (fd : Fin NOFILE) (f : Option FileId) : C Unit :=
  setProc p fun e => { e with ofile := upd e.ofile fd f }

/-- Allocate a file descriptor for the given file. -/
def fdalloc (p : Pid) (i : FileId) : C (Option (Fin NOFILE)) := do
  let s ← Act.get
  match (s.procs p).freeFd with
  | none => return none
  | some fd => do
      setFd p fd (some i)
      return some fd

/-- Report failure of a system call. -/
def failed : C Int := return -1

/-- `sys_pipe`, once its pointer argument has been checked. -/
def sysPipe (p : Pid) : C Int := do
  match ← pipealloc with
  | none => failed
  | some (rf, wf) => do
      match ← fdalloc p rf with
      | none => do
          fileclose rf
          fileclose wf
          failed
      | some fd0 => do
          match ← fdalloc p wf with
          | none => do
              setFd p fd0 none
              fileclose rf
              fileclose wf
              failed
          | some _ => return 0

/-- `sys_close` of an open descriptor. -/
def sysClose (p : Pid) (fd : Fin NOFILE) (i : FileId) : C Int := do
  setFd p fd none
  fileclose i
  return 0

def sysDup (p : Pid) (i : FileId) : C Int := do
  match ← fdalloc p i with
  | none => failed
  | some fd => do
      filedup i
      return (fd.val : Int)

/-- `sys_open` once it has found its inode. -/
def sysOpen (p : Pid) (ip : Nat) (writable : Bool) : C Int := do
  idup ip
  match ← filealloc with
  | none => do
      iput ip
      failed
  | some i => do
      match ← fdalloc p i with
      | none => do
          fileclose i
          iput ip
          failed
      | some fd => do
          setFile i fun f => { f with type := .inode, ip := ip, writable := writable }
          return (fd.val : Int)

/-- `sys_chdir` once it has found its directory. -/
def sysChdir (p : Pid) (ip : Nat) : C Int := do
  idup ip
  let s ← Act.get
  match (s.procs p).cwd with
  | none => Act.fail .null
  | some old => do
      iput old
      setProc p fun e => { e with cwd := some ip }
      return 0

/-! ## Processes -/

def Sys.unusedSlot (s : Sys) : Option Pid :=
  (List.finRange NPROC).find? fun p => (s.procs p).state = .unused

/-- `allocproc`, which gives a slot its pid and its kernel stack. -/
def allocproc : C (Option Pid) := do
  let s ← Act.get
  match s.unusedSlot with
  | none => return none
  | some p => do
      setProc p fun e => { e with state := .embryo, pid := s.nextpid }
      Act.modify fun s => { s with nextpid := s.nextpid + 1 }
      let kstack ← vm allocPage
      setProc p fun e => { e with kstack := kstack }
      if kstack = 0 then do
        setProc p fun e => { e with state := .unused }
        return none
      else return some p

/-- Copy the open files of `p` to `np`. -/
def dupFiles (p np : Pid) : C Unit :=
  Act.forEach (fun fd => do
    let s ← Act.get
    match (s.procs p).ofile fd with
    | none => return
    | some i => do
        filedup i
        setFd np fd (some i)) (List.finRange NOFILE)

/-- Create a new process copying `p` as the parent. -/
def fork (p : Pid) : C Int := do
  match ← allocproc with
  | none => failed
  | some np => do
      let s ← Act.get
      let d ← vm (copyuvm (s.procs p).pgdir (s.procs p).sz)
      setProc np fun e => { e with pgdir := d }
      if d = 0 then do
        vm (freePage (s.procs np).kstack)
        setProc np fun e => { e with kstack := 0, state := .unused }
        failed
      else do
        setProc np fun e => { e with sz := (s.procs p).sz }
        dupFiles p np
        match (s.procs p).cwd with
        | none => Act.fail .null
        | some ip => do
            idup ip
            setProc np fun e => { e with cwd := some ip, state := .runnable }
            return (s.procs np).pid

/-- `sz + n` as the code computes it. -/
def grown (sz : Nat) (n : Int) : Nat := ((sz + n) % (UINTS : Int)).toNat

/-- Grow the memory of `p` by `n` bytes. -/
def growproc (p : Pid) (n : Int) : C Int := do
  let s ← Act.get
  let e := s.procs p
  let sz ←
    if 0 < n then vm (allocuvm e.pgdir e.sz (grown e.sz n))
    else if n < 0 then vm (deallocuvm e.pgdir e.sz (grown e.sz n))
    else pure e.sz
  if n ≠ 0 ∧ sz = 0 then failed
  else do
    setProc p fun e => { e with sz := sz }
    return 0

def sysSbrk (p : Pid) (n : Int) : C Int := do
  let s ← Act.get
  let r ← growproc p n
  if r < 0 then failed else return ((s.procs p).sz : Int)

/-- Close all open files of `p`. -/
def closeFiles (p : Pid) : C Unit :=
  Act.forEach (fun fd => do
    let s ← Act.get
    match (s.procs p).ofile fd with
    | none => return
    | some i => do
        fileclose i
        setFd p fd none) (List.finRange NOFILE)

/-- `exit`, up to its `sched`. -/
def exit (p : Pid) : C Int := do
  Act.failIf (p == INITPROC) .initExiting
  closeFiles p
  let s ← Act.get
  match (s.procs p).cwd with
  | none => Act.fail .null
  | some ip => do
      iput ip
      setProc p fun e => { e with cwd := none, state := .zombie }
      return 0

/-- What `wait` does with the zombie it has found. -/
def reap (q : Pid) : C Int := do
  let s ← Act.get
  vm (freePage (s.procs q).kstack)
  setProc q fun e => { e with kstack := 0 }
  vm (freevm (s.procs q).pgdir)
  setProc q fun e => { e with state := .unused, pid := 0 }
  return (s.procs q).pid

/-! ## Programs -/

/-- What `exec` is called with: whether its arguments can be fetched, the path, the inode there
with its contents, what the variable `pgdir` happens to hold, and the arguments, which come from
an address space. -/
structure Image where
  fetched : Bool
  path : List Byte
  node : Option (Nat × FileBytes)
  junk : Nat
  argv : Exec.Argv
  short : ∀ s ∈ argv, s.length < UADDR_SZ

/-- What `exec` leaves: its result, and `r0` for the caller. -/
structure Execed where
  ret : Int
  r0 : Int

/-- The process `p` as `Proc.Exec` sees it, with the number of the call in `r0`; names, locks and
other registers count for nothing here. -/
def Sys.task (p : Pid) (s : Sys) : Exec.Task where
  mem := s.mem
  pgdir := (s.procs p).pgdir
  sz := (s.procs p).sz
  name := []
  cwd := (s.procs p).cwd
  tf := ⟨0, 0, 0, 0, SYS_exec, 0, fun _ => 0, 0⟩
  irefs := s.irefs
  locked := fun _ => false

def Sys.retask (p : Pid) (t : Exec.Task) (s : Sys) : Sys :=
  { s with
    mem := t.mem
    procs := upd s.procs p { s.procs p with pgdir := t.pgdir, sz := t.sz }
    irefs := t.irefs }

/-- `sys_exec`.  `syscall` does not store what it returns. -/
def exec (p : Pid) (img : Image) : C Execed :=
  if !img.fetched then return ⟨-1, SYS_exec⟩
  else Act.zoom (Sys.task p) (Sys.retask p) do
    let ret ← Exec.exec img.junk img.path img.node img.argv
    let t ← Act.get
    return ⟨ret, t.tf.r0⟩

/-! ## Booting -/

/-- The stacks `trap_init` gets. -/
def trapInit : C Unit :=
  Act.forEach (fun i => do
    let stk ← vm allocPage
    Act.failIf (stk == 0) .trapInit
    Act.modify fun s => { s with modeStack := upd s.modeStack i stk }) (List.finRange 4)

/-- `inituvm`. -/
def inituvm (pgdir : Nat) : V Unit := do
  let mem ← allocPage
  Act.failIf (mem == 0) .null
  clearPage mem
  mappages pgdir 0 PTE_SZ (v2p mem) AP_KU

/-- The first user process, with its working directory. -/
def userinit (root : Nat) : C Unit := do
  match ← allocproc with
  | none => Act.fail .null
  | some p => do
      let d ← vm kptAlloc
      setProc p fun e => { e with pgdir := d }
      vm (inituvm d)
      idup root
      setProc p fun e => { e with sz := PTE_SZ, cwd := some root, state := .runnable }

/-- The kernel's data before `trap_init`, with the heap set up. -/
def Sys.zeroed (km : Kmem) (boot : List Nat) (fails : List Bool) : Sys where
  mem := ⟨⟨km, ∅⟩, boot, boot, fun _ _ => 0, fun _ => 0, fails, []⟩
  procs := fun _ => ⟨.unused, 0, 0, 0, 0, fun _ => none, none⟩
  nextpid := 1
  files := fun _ => ⟨.none, 0, false, 0, 0⟩
  pipes := fun _ => ⟨false, false⟩
  modeStack := fun _ => 0
  irefs := fun _ => 0

def boot (root : Nat) : C Unit := do
  trapInit
  userinit root

/-! ## The machine -/

inductive VmCall where
  | fork
  | sbrk (n : BitVec 32)
  | exec (img : Image)
  | exit
  | wait (child : Pid)
  | pipe
  | close (fd : Fin NOFILE)
  | dup (fd : Fin NOFILE)
  | open_ (ip : Nat) (writable : Bool)
  | chdir (ip : Nat)

/-- What a call returns, and what its caller finds in `r0`. -/
def stored (x : C Int) : C Execed := do
  let r ← x
  return ⟨r, r⟩

/-- The code of a call by process `p`. -/
def VmCall.code (s : Sys) (p : Pid) : VmCall → Option (C Execed)
  | .fork => some (stored (Vm.fork p))
  | .sbrk n => some (stored (sysSbrk p n.toInt))
  | .exec img => some (Vm.exec p img)
  | .exit => some (stored (Vm.exit p))
  | .wait q => if (s.procs q).state = .zombie then some (stored (reap q)) else none
  | .pipe => some (stored (sysPipe p))
  | .close fd => ((s.procs p).ofile fd).map fun i => stored (sysClose p fd i)
  | .dup fd => ((s.procs p).ofile fd).map fun i => stored (sysDup p i)
  | .open_ ip writable => some (stored (sysOpen p ip writable))
  | .chdir ip => some (stored (sysChdir p ip))

/-- A call starts with no allocation missed. -/
def Sys.entered (s : Sys) : Sys := { s with mem := { s.mem with misses := [] } }

/-- How a call of process `p` comes out, if it can make it. -/
def Sys.outcome (s : Sys) (p : Pid) (c : VmCall) : Option (Outcome Sys VmPanic VmEvent Execed) :=
  if (s.procs p).state = .runnable then (c.code s p).map fun x => x s.entered else none

/-- One call; a panic ends the run. -/
def Sys.step (s : Sys) (op : Pid × VmCall) : Option (Sys × List VmEvent) :=
  match s.outcome op.1 op.2 with
  | none => none
  | some o => o.value?.map fun _ => (o.final, o.trace.map Prod.fst)

end Xv6Rpi.Proc.Vm
