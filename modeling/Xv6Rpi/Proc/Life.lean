/-
# Proc.Life -- fork, exit, wait and kill, and the way back to user mode

The rest of `proc.c` that decides which processes exist and run: `allocproc` and `fork`,
`exit`, `wait`, `kill` and the scheduler, together with the trap paths of `trap.c` and
`trap_asm.S` that lead a process from user mode into the kernel and back.

Nothing calls `yield`, so a process gives up the CPU in `sleep` and in `exit` only, and a
stretch of code in between is one step.  What other system calls do to the processes is
that they sleep and wake up sleepers on channels of their own, and return; a process
inside one of them is `kernel`.  `exit` closes files first and may sleep in that part,
which is why a process can stay `exiting` for a while.  An interrupt wakes up sleepers and
returns to where it came from.

`nextpid` is kept as the count it is; a process gets what an `int` holds of it.  `born`
remembers which count that was: it names the process itself, also after pids repeat.
-/
import Xv6Rpi.Kernel.Log
import Xv6Rpi.Proc.Table
import Xv6Rpi.Theory.Machine

namespace Xv6Rpi.Proc

open Theory Kernel

set_option autoImplicit false

/-- `userinit` runs first and gets the first slot. -/
abbrev INITPROC : Pid := 0

/-! ## The table -/

namespace Ptable

/-- The slot `allocproc` finds. -/
def unusedSlot (t : Ptable) : Option Pid :=
  (List.finRange NPROC).find? fun p => (t p).state = .unused

/-- The loop body of `exit`: a child of `p` passes to init. -/
def abandon (p : Pid) (t : Ptable) (q : Pid) : Ptable :=
  if (t q).parent = some p then
    let t' : Ptable := upd t q { t q with parent := some INITPROC }
    if (t q).state = .zombie then t'.wakeup1 (.proc INITPROC) else t'
  else t

/-- `wakeup1(proc->parent)`. -/
def wakeParent (t : Ptable) (p : Pid) : Ptable :=
  match (t p).parent with
  | some q => t.wakeup1 (.proc q)
  | none => t

/-- `exit`, from taking the table's lock on. -/
def exit (t : Ptable) (p : Pid) : Ptable :=
  let t' : Ptable := (List.finRange NPROC).foldl (abandon p) (t.wakeParent p)
  upd t' p { t' p with state := .zombie }

/-- The first zombie among the children of `p`. -/
def zombieChild (t : Ptable) (p : Pid) : Option Pid :=
  (List.finRange NPROC).find? fun q => (t q).parent = some p ∧ (t q).state = .zombie

def havekids (t : Ptable) (p : Pid) : Bool :=
  (List.finRange NPROC).any fun q => (t q).parent = some p

/-- `wait` frees the slot of a zombie. -/
def reap (t : Ptable) (q : Pid) : Ptable :=
  upd t q { t q with state := .unused, pid := 0, parent := none, killed := false }

/-- Interrupt handlers wake up the sleepers on some channels. -/
def wakeups (t : Ptable) (chans : List Chan) : Ptable := chans.foldl wakeup1 t

end Ptable

/-- Is it the channel of `wait`? -/
def Chan.isProc : Chan → Bool
  | .proc _ => true
  | _ => false

/-! ## The processes -/

/-- Where a process is: in user mode, new and on its way to user mode through `forkret`,
in `wait`, in `exit`, or in another system call. -/
inductive Place where
  | user
  | fresh
  | waiting
  | exiting
  | kernel
  deriving DecidableEq, Repr

structure Procs where
  table : Ptable
  nextpid : Nat
  /-- `proc` -/
  cur : Option Pid
  place : Pid → Place
  born : Pid → Nat

/-- What is seen of the processes, by the counts they were born with. -/
inductive ProcObs where
  /-- an instruction in user mode -/
  | user (i : Nat)
  /-- a trap completes and its process goes on in user mode -/
  | returned (i : Nat)
  /-- `allocproc` is called -/
  | allocproc
  | forked (creator child : Nat)
  | exited (i : Nat)
  /-- `wait` of process `w` returns the pid of process `i` -/
  | reaped (w i : Nat) (pid : Int)
  /-- `wait` returns -1 -/
  | waitFailed (w : Nat)
  /-- `kill` sets `killed` -/
  | killed (i : Nat)
  deriving DecidableEq

inductive ProcOp where
  | schedule (p : Pid)
  | user
  | irq (chans : List Chan)
  | fork (stack pages : Bool)
  | kill (pid : Int)
  | wait
  | exit
  | enter
  | wakeup (chan : Chan)
  | sleep (chan : Chan)
  | leave
  | die

namespace Procs

/-- The process returns from its trap. -/
def trapret (s : Procs) (p : Pid) : Procs × List ProcObs :=
  ({ s with place := upd s.place p .user }, [.returned (s.born p)])

/-- `fork` makes slot `np` a process that is a child of `p`. -/
def child (s : Procs) (p np : Pid) : Procs :=
  { s with
    table := upd s.table np
      { s.table np with
        state := .runnable, pid := int32 (s.nextpid % 4294967296), parent := some p }
    nextpid := s.nextpid + 1
    place := upd s.place np .fresh
    born := upd s.born np s.nextpid }

/-- A failed `fork` gives slot `np` back; the pid it took stays there. -/
def stillborn (s : Procs) (np : Pid) : Procs :=
  { s with
    table := upd s.table np
      { s.table np with state := .unused, pid := int32 (s.nextpid % 4294967296) }
    nextpid := s.nextpid + 1 }

/-- `fork`; `stack` and `pages` tell whether the allocations for the kernel stack and in
`copyuvm` succeed. -/
def fork (s : Procs) (p : Pid) (stack pages : Bool) : Procs × List ProcObs :=
  match s.table.unusedSlot with
  | none => (s, [.allocproc, .returned (s.born p)])
  | some np =>
    if stack && pages then
      (s.child p np, [.allocproc, .forked (s.born p) s.nextpid, .returned (s.born p)])
    else (s.stillborn np, [.allocproc, .returned (s.born p)])

/-- `kill` sets the mark of slot `q`, which need not hold a process. -/
def strike (s : Procs) (q : Pid) : Procs × List ProcObs :=
  ({ s with table := upd s.table q (Ptable.strike (s.table q)) },
    if (s.table q).state = .unused then [] else [.killed (s.born q)])

/-- `kill`, called by process `p`. -/
def kill (s : Procs) (p : Pid) (pid : Int) : Procs × List ProcObs :=
  match s.table.find pid with
  | some q => ((s.strike q).1, (s.strike q).2 ++ [.returned (s.born p)])
  | none => (s, [.returned (s.born p)])

/-- One round of the loop in `wait`. -/
def wait (s : Procs) (p : Pid) : Procs × List ProcObs :=
  match s.table.zombieChild p with
  | some q =>
    let r := ({ s with table := s.table.reap q }).trapret p
    (r.1, .reaped (s.born p) (s.born q) (s.table q).pid :: r.2)
  | none =>
    if !s.table.havekids p || (s.table p).killed then
      let r := s.trapret p
      (r.1, .waitFailed (s.born p) :: r.2)
    else
      ({ s with table := s.table.sleep p (.proc p), cur := none, place := upd s.place p .waiting }, [])

/-- The scheduler switches to `p`, which goes on where it was. -/
def dispatch (s : Procs) (p : Pid) : Procs × List ProcObs :=
  let s := { s with table := s.table.awaken p, cur := some p }
  match s.place p with
  | .fresh => s.trapret p
  | .waiting => s.wait p
  | _ => (s, [])

/-- `exit` switches to the scheduler, never to return. -/
def die (s : Procs) (p : Pid) : Procs × List ProcObs :=
  ({ s with table := s.table.exit p, cur := none }, [.exited (s.born p)])

/-- A step of the current process, by where it is.  `exit` panics in init. -/
def act (s : Procs) (p : Pid) : ProcOp → Option (Procs × List ProcObs)
  | .user => if s.place p = .user then some (s, [.user (s.born p)]) else none
  | .fork stack pages => if s.place p = .user then some (s.fork p stack pages) else none
  | .kill pid => if s.place p = .user then some (s.kill p pid) else none
  | .wait => if s.place p = .user then some (s.wait p) else none
  | .exit =>
    if s.place p = .user ∧ p ≠ INITPROC then some ({ s with place := upd s.place p .exiting }, [])
    else none
  | .enter =>
    if s.place p = .user then some ({ s with place := upd s.place p .kernel }, []) else none
  | .wakeup chan =>
    if (s.place p = .kernel ∨ s.place p = .exiting) ∧ chan.isProc = false then
      some ({ s with table := s.table.wakeup1 chan }, [])
    else none
  | .sleep chan =>
    if (s.place p = .kernel ∨ s.place p = .exiting) ∧ chan.isProc = false then
      some ({ s with table := s.table.sleep p chan, cur := none }, [])
    else none
  | .leave => if s.place p = .kernel then some (s.trapret p) else none
  | .die => if s.place p = .exiting then some (s.die p) else none
  | _ => none

/-- Who an interrupt returns to. -/
def interrupted (s : Procs) : List ProcObs :=
  match s.cur with
  | some p => if s.place p = .user then [.returned (s.born p)] else []
  | none => []

def step (s : Procs) (op : ProcOp) : Option (Procs × List ProcObs) :=
  match op, s.cur with
  | .irq chans, _ =>
    if chans.all fun c => !c.isProc then
      some ({ s with table := s.table.wakeups chans }, s.interrupted)
    else none
  | .schedule p, none => if (s.table p).state = .runnable then some (s.dispatch p) else none
  | op, some p => s.act p op
  | _, none => none

/-- The state `userinit` leaves: init is the only process. -/
def boot : Procs where
  table := upd (fun _ => Entry.zeroed) INITPROC { Entry.zeroed with state := .runnable, pid := 1 }
  nextpid := 2
  cur := none
  place := fun _ => .fresh
  born := fun _ => 1

/-- There is a process in the slot. -/
def Live (s : Procs) (p : Pid) : Prop := (s.table p).state ≠ .unused

instance (s : Procs) (p : Pid) : Decidable (s.Live p) := inferInstanceAs (Decidable (¬ _))

end Procs

end Xv6Rpi.Proc
