/-
# Proc.Pipe -- pipes, as the code runs them

`pipe.c`.  `pipewrite` and `piperead` give up the CPU only in `sleep`, so a call runs as
a sequence of slices; `writeLoop` and `piperead` are one slice each, from the call or
from the return of `sleep` on.  `PipeSys.step` is any interleaving of calls, of ends
being closed and of kills.  When both ends are closed the pipe is freed and nothing
happens to it any more.

The counters are 32 bits wide and wrap.
-/
import Xv6Rpi.Proc.Table
import Xv6Rpi.Theory.Fifo
import Xv6Rpi.Theory.Machine

namespace Xv6Rpi.Proc

open Theory Kernel

set_option autoImplicit false

abbrev PIPESIZE : Nat := 512

/-- The number of values of a `uint`. -/
abbrev U32 : Nat := 4294967296

structure Pipe where
  data : Nat → Byte
  /-- number of bytes read -/
  nread : Nat
  /-- number of bytes written -/
  nwrite : Nat
  readopen : Bool
  writeopen : Bool

namespace Pipe

def isFull (pp : Pipe) : Bool := pp.nwrite == (pp.nread + PIPESIZE) % U32

def isEmpty (pp : Pipe) : Bool := pp.nread == pp.nwrite

/-- `p->data[p->nwrite++ % PIPESIZE] = b`. -/
def store (pp : Pipe) (b : Byte) : Pipe :=
  { pp with data := upd pp.data (pp.nwrite % PIPESIZE) b, nwrite := (pp.nwrite + 1) % U32 }

/-- `p->data[p->nread++ % PIPESIZE]`. -/
def fetch (pp : Pipe) : Byte × Pipe :=
  (pp.data (pp.nread % PIPESIZE), { pp with nread := (pp.nread + 1) % U32 })

/-- The bytes in the buffer, oldest first. -/
def unread (pp : Pipe) : List Byte :=
  (List.range ((pp.nwrite + U32 - pp.nread) % U32)).map fun i => pp.data ((pp.nread + i) % PIPESIZE)

end Pipe

/-- A call that sleeps: `pipewrite` before byte `i`, or `piperead`. -/
inductive PipeCall where
  | write (addr : Nat → Byte) (n : Int) (i : Nat)
  | read (n : Int)

/-- What is seen of the calls: each byte as it is stored, and what a call returns. -/
inductive PipeObs where
  | stored (p : Pid) (b : Byte)
  | wrote (p : Pid) (addr : Nat → Byte) (n : Int) (i : Nat) (result : Int)
  | read (p : Pid) (n : Int) (bytes : List Byte) (result : Int)

/-- The outcome of a slice; `call` is what the process is still inside of. -/
structure Slice where
  pipe : Pipe
  table : Ptable
  obs : List PipeObs
  call : Option PipeCall

/-- The bytes of a write call. -/
def bytesAt (addr : Nat → Byte) (n : Int) : List Byte := (List.range n.toNat).map addr

/-- The loop of `pipewrite` from byte `i` on; the list holds the bytes from there. -/
def writeLoop (p : Pid) (addr : Nat → Byte) (n : Int) : List Byte → Nat → Pipe → Ptable → Slice
  | [], i, pp, t => ⟨pp, t.wakeup1 .nread, [.wrote p addr n i n], none⟩
  | b :: rest, i, pp, t =>
    if pp.isFull then
      if pp.readopen then
        ⟨pp, (t.wakeup1 .nread).sleep p .nwrite, [], some (.write addr n i)⟩
      else ⟨pp, t, [.wrote p addr n i (-1)], none⟩
    else
      let r := writeLoop p addr n rest (i + 1) (pp.store b) t
      { r with obs := .stored p b :: r.obs }

/-- `pipewrite`, from byte `i` on. -/
def pipewrite (p : Pid) (addr : Nat → Byte) (n : Int) (i : Nat) (pp : Pipe) (t : Ptable) : Slice :=
  writeLoop p addr n ((bytesAt addr n).drop i) i pp t

/-- The copy loop of `piperead`. -/
def readLoop : Nat → Pipe → List Byte × Pipe
  | 0, pp => ([], pp)
  | k + 1, pp =>
    if pp.isEmpty then ([], pp)
    else
      let r := readLoop k pp.fetch.2
      (pp.fetch.1 :: r.1, r.2)

def piperead (p : Pid) (n : Int) (pp : Pipe) (t : Ptable) : Slice :=
  if pp.isEmpty && pp.writeopen then
    if (t p).killed then ⟨pp, t, [.read p n [] (-1)], none⟩
    else ⟨pp, t.sleep p .nread, [], some (.read n)⟩
  else
    let r := readLoop n.toNat pp
    ⟨r.2, t.wakeup1 .nwrite, [.read p n r.1 r.1.length], none⟩

/-- A pipe with the processes that use it. -/
structure PipeSys where
  pipe : Pipe
  table : Ptable
  calls : Pid → Option PipeCall
  freed : Bool

inductive PipeOp where
  | write (p : Pid) (addr : Nat → Byte) (n : Int)
  | read (p : Pid) (n : Int)
  | resume (p : Pid)
  | close (writable : Bool)
  | kill (pid : Int)

namespace PipeSys

/-- The state after a slice of process `p`. -/
def after (s : PipeSys) (p : Pid) (r : Slice) : PipeSys × List PipeObs :=
  ({ s with pipe := r.pipe, table := r.table, calls := upd s.calls p r.call }, r.obs)

/-- `pipeclose`. -/
def pipeclose (s : PipeSys) (writable : Bool) : PipeSys :=
  let pp := if writable then { s.pipe with writeopen := false } else { s.pipe with readopen := false }
  { s with
    pipe := pp
    table := s.table.wakeup1 (if writable then .nread else .nwrite)
    freed := !pp.readopen && !pp.writeopen }

/-- Go on with a call after `sleep` returned. -/
def goOn (s : PipeSys) (p : Pid) : PipeCall → PipeSys × List PipeObs
  | .write addr n i => s.after p (pipewrite p addr n i s.pipe s.table)
  | .read n => s.after p (piperead p n s.pipe s.table)

/-- One slice of one process. -/
def step (s : PipeSys) (op : PipeOp) : Option (PipeSys × List PipeObs) :=
  if s.freed then none
  else
    match op with
    | .write p addr n =>
      if (s.table p).state = .running ∧ (s.calls p).isNone then
        some (s.after p (pipewrite p addr n 0 s.pipe s.table))
      else none
    | .read p n =>
      if (s.table p).state = .running ∧ (s.calls p).isNone then
        some (s.after p (piperead p n s.pipe s.table))
      else none
    | .resume p =>
      if (s.table p).state = .runnable then
        match s.calls p with
        | some call => some (({ s with table := s.table.awaken p }).goOn p call)
        | none => some ({ s with table := s.table.awaken p }, [])
      else none
    | .close writable => some (s.pipeclose writable, [])
    | .kill pid => some ({ s with table := (s.table.kill pid).1 }, [])

/-- A pipe `pipealloc` just made, among processes none of which can be sleeping on it. -/
structure Fresh (s : PipeSys) : Prop where
  nread : s.pipe.nread = 0
  nwrite : s.pipe.nwrite = 0
  readopen : s.pipe.readopen = true
  writeopen : s.pipe.writeopen = true
  calls : ∀ p, s.calls p = none
  awake : ∀ p, ¬ s.table.Asleep p .nread ∧ ¬ s.table.Asleep p .nwrite

end PipeSys

end Xv6Rpi.Proc
