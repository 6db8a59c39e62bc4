/-
# Switch.Machine -- one CPU, its interrupts and its processes

`arm.c`, `spinlock.c`, and the part of `proc.c` and `trap_asm.S` that passes control around.
A thread is a process or the scheduler; what it still has to do is a stack of frames.  An
interrupt puts a handler on the stack of the thread it finds; a system call does so above the
frame of user mode.  Both are entered with interrupts off, and `trapret` puts them back to
what the saved `spsr` says.

`sched` leaves a frame behind that restores `intena`, and `pushcli` one that turns
interrupts off, since an interrupt can come after it has read the flag.
-/
import Xv6Rpi.Switch.Code
import Xv6Rpi.Theory.Machine

namespace Xv6Rpi.Switch

open Theory Kernel Proc

set_option autoImplicit false

/-- The ways to `trapret`: from a system call, an interrupt, and `forkret`. -/
inductive Origin where
  | swi
  | irq
  | new
  deriving DecidableEq, Repr

inductive Frame where
  | code (c : Code)
  /-- `pushcli`, after `enabled = int_enabled()` -/
  | pushed (enabled : Bool)
  /-- `sched`, after its `swtch` -/
  | resumed (intena : Bool)
  | trapret (origin : Origin) (spsr : Bool)
  /-- user mode -/
  | user

/-- The CPU, the table and the threads; the scheduler is the thread `none`. -/
structure Cpu where
  ints : Bool
  ncli : Int
  intena : Bool
  locked : Lock → Bool
  proc : Option Pid
  state : Pid → Procstate
  /-- where the scheduler's loop is -/
  scan : Nat
  first : Bool
  cur : Option Pid
  stack : Option Pid → List Frame
  halted : Bool

/-- What a step is told: which way to go, which process, who wakes up; or what comes from
outside. -/
inductive Op where
  | left
  | right
  | pick (p : Pid)
  | wake (ps : List Pid)
  | irq
  | swi
  deriving DecidableEq, Repr

/-- Who panics: `sched`, `popcli`, or other code. -/
inductive Site where
  | sched
  | popcli
  | code
  deriving DecidableEq, Repr

inductive Obs where
  | panic (site : Site) (msg : String)
  deriving DecidableEq, Repr

/-- Put code on a stack, piece by piece. -/
def enter : Code → List Frame → List Frame
  | .skip, k => k
  | .seq a b, k => enter a (enter b k)
  | c, k => .code c :: k

namespace Cpu

/-- The current thread goes on with `k`. -/
def goto (c : Cpu) (k : List Frame) : Cpu := { c with stack := upd c.stack c.cur k }

def panic (c : Cpu) (site : Site) (msg : String) : Option (Cpu × List Obs) :=
  some ({ c with halted := true }, [.panic site msg])

/-- No process from `a` on is runnable, up to `b`. -/
def NoneRunnable (c : Cpu) (a b : Nat) : Prop := ∀ q : Pid, a ≤ q.val → q.val < b → c.state q ≠ .runnable

instance (c : Cpu) (a b : Nat) : Decidable (c.NoneRunnable a b) :=
  inferInstanceAs (Decidable (∀ _ : Pid, _))

/-- The stack of a process that has not run yet. -/
def fresh (spsr : Bool) : List Frame := enter forkret [.trapret .new spsr, .user]

/-- One primitive, with what the thread does after it. -/
def prim (c : Cpu) (op : Op) (k : List Frame) : Prim → Option (Cpu × List Obs)
  | .pushcli => some (c.goto (.pushed c.ints :: k), [])
  | .popcli =>
    if c.ints then c.panic .popcli "popcli - interruptible"
    else if c.ncli - 1 < 0 then c.panic .popcli "popcli -- ncli < 0"
    else some ({ c.goto k with
      ncli := c.ncli - 1
      ints := if c.ncli - 1 = 0 ∧ c.intena = true then true else c.ints }, [])
  | .setLocked lk b => some ({ c.goto k with locked := upd c.locked lk b }, [])
  | .sti => some ({ c.goto k with ints := true }, [])
  | .sched =>
    match c.proc with
    | none => c.panic .sched "data abort"
    | some p =>
      if c.locked .ptable = false then c.panic .sched "sched ptable.lock"
      else if c.ncli ≠ 1 then c.panic .sched "sched locks"
      else if c.state p = .running then c.panic .sched "sched running"
      else if c.ints then c.panic .sched "sched interruptible"
      else some ({ c.goto (.resumed c.intena :: k) with cur := none }, [])
  | .needProc => if c.proc = none then c.panic .code "sleep" else some (c.goto k, [])
  | .setSelf st =>
    match c.proc with
    | none => c.panic .code "data abort"
    | some p => some ({ c.goto k with state := upd c.state p st }, [])
  | .wake =>
    let ps := match op with
      | .wake ps => ps
      | _ => []
    some ({ c.goto k with
      state := fun p => if p ∈ ps ∧ c.state p = .sleeping then .runnable else c.state p }, [])
  | .find p st => if c.state p = st then some (c.goto k, []) else none
  | .full => if ∀ p, c.state p ≠ .unused then some (c.goto k, []) else none
  | .setState p st => some ({ c.goto k with state := upd c.state p st }, [])
  | .context p =>
    -- which `spsr` will be in the trap frame is left open
    if op = .left then some ({ c.goto k with stack := upd (c.goto k).stack (some p) (fresh false) }, [])
    else if op = .right then
      some ({ c.goto k with stack := upd (c.goto k).stack (some p) (fresh true) }, [])
    else none
  | .rewind => some ({ c.goto k with scan := 0 }, [])
  | .choose =>
    match op with
    | .pick p =>
      if c.scan ≤ p.val ∧ c.state p = .runnable ∧ c.NoneRunnable c.scan p.val then
        some ({ c.goto k with proc := some p, scan := p.val + 1 }, [])
      else none
    | _ => none
  | .scanned => if c.NoneRunnable c.scan NPROC then some (c.goto k, []) else none
  | .swtch =>
    match c.proc with
    | none => c.panic .code "data abort"
    | some p => some ({ c.goto k with cur := some p }, [])
  | .clearProc => some ({ c.goto k with proc := none }, [])
  | .ifFirst => if c.first then some ({ c.goto k with first := false }, []) else none
  | .unlessFirst => if c.first then none else some (c.goto k, [])
  | .panic msg => c.panic .code msg

/-- The frame on top of the current stack. -/
def frame (c : Cpu) (op : Op) (k : List Frame) : Frame → Option (Cpu × List Obs)
  | .code (.prim p) => c.prim op k p
  | .code (.choice a b) =>
    if op = .left then some (c.goto (enter a k), [])
    else if op = .right then some (c.goto (enter b k), [])
    else none
  | .code (.loop body) =>
    if op = .left then some (c.goto k, [])
    else if op = .right then some (c.goto (enter body (.code (.loop body) :: k)), [])
    else none
  | .code (.forever body) => some (c.goto (enter body (.code (.forever body) :: k)), [])
  | .code (.any f) =>
    match op with
    | .pick p => some (c.goto (enter (f p) k), [])
    | _ => none
  | .code .skip => some (c.goto k, [])
  | .code (.seq a b) => some (c.goto (enter a (enter b k)), [])
  | .pushed enabled =>
    some ({ c.goto k with
      ints := false
      ncli := c.ncli + 1
      intena := if c.ncli = 0 then enabled else c.intena }, [])
  | .resumed intena => some ({ c.goto k with intena := intena }, [])
  | .trapret _ spsr => some ({ c.goto k with ints := spsr }, [])
  | .user =>
    if op = .swi then
      some ({ c.goto (enter syscall (.trapret .swi c.ints :: .user :: k)) with ints := false }, [])
    else none

/-- A step of the current thread, or an interrupt. -/
def step (c : Cpu) (op : Op) : Option (Cpu × List Obs) :=
  if c.halted then none
  else if op = .irq then
    if c.ints then
      some ({ c.goto (enter irqHandler (.trapret .irq c.ints :: c.stack c.cur)) with ints := false }, [])
    else none
  else
    match c.stack c.cur with
    | [] => none
    | f :: k => c.frame op k f

/-- The machine starts in `kmain`, with interrupts off. -/
def boot : Cpu where
  ints := false
  ncli := 0
  intena := false
  locked := fun _ => false
  proc := none
  state := fun _ => .unused
  scan := 0
  first := true
  cur := none
  stack := fun t => if t = none then enter kmain [] else []
  halted := false

end Cpu

end Xv6Rpi.Switch
