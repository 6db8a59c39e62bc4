/-
# Switch.Inv -- what holds between any two steps of the CPU

The current thread has a `View` that agrees with the CPU (`Sees`), and the frames on its stack
can be run from it (`Runs`).  Every other thread is where it can be switched to: a process in
`sched` after its `swtch`, or at the start of `forkret`; the scheduler after its own `swtch`
(`Others`).

The invariant comes with a set `P` of processes that are known to be started with `intena`
off: those reach `trapret` with interrupts off as well.  With no such process nothing is
asked for.

* `Inv.step`: a step keeps the invariant, and neither `sched` nor `popcli` panics in it.
-/
import Mathlib.Order.Fin.Basic
import Xv6Rpi.Switch.Discipline
import Xv6Rpi.Switch.Machine

namespace Xv6Rpi.Switch

open Theory Theory.Flow Kernel Proc

set_option autoImplicit false

/-! ## Frames -/

/-- The frames can be run from this view.  At `trapret`, interrupts are off; but for a new
process only if `strict`. -/
def Runs (strict : Prop) : List Frame → View → Prop
  | [], _ => True
  | .code c :: k, s => wp pre c (Runs strict k) s
  | .pushed enabled :: k, s =>
    enabled = (decide (s.depth = 0) && s.base) ∧ Runs strict k { s with depth := s.depth + 1 }
  | .resumed intena :: k, s => 0 < s.depth ∧ Runs strict k { s with base := intena }
  | .trapret origin spsr :: k, s =>
    s.depth = 0 ∧ (origin ≠ .new ∨ strict → s.base = false) ∧ Runs strict k { s with base := spsr }
  | .user :: _, s => Idle s

variable {strict : Prop}

theorem runs_enter {c : Code} {k : List Frame} {s : View} :
    Runs strict (enter c k) s ↔ wp pre c (Runs strict k) s := by
  suffices equal : ∀ k, Runs strict (enter c k) = wp pre c (Runs strict k) by rw [equal]
  induction c with
  | skip => exact fun k => rfl
  | seq a b iha ihb =>
    intro k
    rw [enter, iha, ihb]
    rfl
  | _ => exact fun k => rfl

/-- The view of a process that has been switched to. -/
def switched (intena : Bool) : View := ⟨1, true, intena, some .running, none, true⟩

/-- A new process goes through `forkret` to `trapret` and to user mode. -/
theorem runs_fresh {spsr intena : Bool} (off : strict → intena = false) :
    Runs strict (Cpu.fresh spsr) (switched intena) := by
  rw [Cpu.fresh, runs_enter]
  apply wp_forkret
  refine ⟨rfl, fun asked => ?_, rfl, rfl, rfl, rfl, rfl⟩
  rcases asked with notNew | strict
  · exact absurd rfl notNew
  · exact off strict

/-- Has been switched from. -/
def started : List Frame → Bool
  | .resumed _ :: _ => true
  | _ => false

/-- Where a process that is not current can be switched to. -/
inductive Waits (strict : Prop) : List Frame → Prop where
  | new (spsr : Bool) : Waits strict (Cpu.fresh spsr)
  | inSched (intena : Bool) (k : List Frame) (runs : Runs strict k (switched intena)) :
      Waits strict (.resumed intena :: k)

/-- **A waiting process can be switched to**, with any `intena` unless it is new. -/
theorem Waits.runs {k : List Frame} {intena : Bool} (waits : Waits strict k)
    (off : strict → started k = false → intena = false) : Runs strict k (switched intena) := by
  cases waits with
  | new spsr => exact runs_fresh fun asked => off asked rfl
  | inSched saved k runs => exact ⟨Nat.one_pos, runs⟩

/-! ## The invariant -/

def Slot.pid : Slot → Pid
  | .unused p | .embryo p | .ready p | .zombie p => p

def Slot.state : Slot → Procstate
  | .unused _ => .unused
  | .embryo _ | .ready _ => .embryo
  | .zombie _ => .zombie

/-- The slot is as the running code knows it. -/
structure Cpu.Keeps (c : Cpu) (x : Slot) : Prop where
  state : c.state x.pid = x.state
  other : c.proc ≠ some x.pid
  ready : x = .ready x.pid → ∃ spsr, c.stack (some x.pid) = Cpu.fresh spsr

/-- The view of the current thread. -/
structure Sees (c : Cpu) (s : View) : Prop where
  depth : c.ncli = s.depth
  ptable : c.locked .ptable = s.ptable
  ints : c.ints = (decide (s.depth = 0) && s.base)
  intena : 0 < s.depth → c.intena = s.base
  self : s.self = c.proc.map c.state
  own : s.own = c.cur.isSome
  slot : ∀ x, s.slot = some x → c.Keeps x
  sane : Sane s

/-- Has a stack of its own, to be switched to. -/
def Alive (st : Procstate) : Prop := st = .runnable ∨ st = .sleeping ∨ st = .running

/-- The process has been started. -/
def Settled (st : Procstate) : Prop := Alive st ∨ st = .zombie

/-- The threads that are not current. -/
structure Others (P : Pid → Prop) (c : Cpu) : Prop where
  current : ∀ p, c.cur = some p → c.proc = some p
  settled : ∀ p, c.cur = some p → Settled (c.state p)
  running : ∀ p, c.state p = .running → c.proc = some p
  waiting : ∀ p, c.cur ≠ some p → Alive (c.state p) → Waits (P p) (c.stack (some p))
  scheduler : c.cur ≠ none → ∀ intena st, st ≠ .running →
    Runs False (c.stack none) ⟨1, true, intena, some st, none, false⟩

/-- New processes of `P` are to be started with `intena` off. -/
def Strict (P : Pid → Prop) : Option Pid → Prop
  | none => False
  | some p => P p

structure Inv (P : Pid → Prop) (c : Cpu) (s : View) : Prop where
  sees : Sees c s
  runs : Runs (Strict P c.cur) (c.stack c.cur) s
  others : Others P c

/-- The process about to be switched to. -/
def Cpu.dispatching (c : Cpu) : Option Pid :=
  match c.stack c.cur with
  | .code (.prim .swtch) :: _ => c.proc
  | _ => none

/-- If a new process of `P` is switched to now, then with `intena` off. -/
def Cpu.Off (P : Pid → Prop) (c : Cpu) : Prop :=
  ∀ p, P p → c.dispatching = some p → started (c.stack (some p)) = false → c.intena = false

variable {P : Pid → Prop} {c c' : Cpu} {s t : View}

/-- Only what the invariant says of the other threads' stacks, states and `proc` matters. -/
theorem Others.congr (others : Others P c) (cur : c'.cur = c.cur) (proc : c'.proc = c.proc)
    (state : c'.state = c.state) (stack : ∀ t, t ≠ c.cur → c'.stack t = c.stack t) :
    Others P c' := by
  refine ⟨?_, ?_, ?_, fun p away alive => ?_, fun away intena st stopped => ?_⟩
  · simpa [cur, proc] using others.current
  · simpa [cur, state] using others.settled
  · simpa [state, proc] using others.running
  · rw [cur] at away
    rw [stack _ (Ne.symm away)]
    exact others.waiting p away (state ▸ alive)
  · rw [cur] at away
    rw [stack _ (Ne.symm away)]
    exact others.scheduler away intena st stopped

theorem Cpu.goto_stack (c : Cpu) (k : List Frame) : (c.goto k).stack c.cur = k := upd_same ..

theorem Cpu.goto_away (c : Cpu) (k : List Frame) {t : Option Pid} (away : t ≠ c.cur) :
    (c.goto k).stack t = c.stack t := upd_ne _ _ away

theorem Inv.slot_away (inv : Inv P c s) {x : Slot} (member : s.slot = some x) :
    c.cur ≠ some x.pid :=
  fun current => (inv.sees.slot x member).other (inv.others.current _ current)

/-! ## Steps that concern the current thread only -/

section Here

variable {k : List Frame} (inv : Inv P c s)
include inv

/-- Control, interrupts, locks and the scheduler's loop. -/
theorem Inv.goOn {ncli : Int} {ints intena first : Bool} {locked : Lock → Bool} {scan : Nat}
    (self : t.self = s.self) (own : t.own = s.own) (slot : t.slot = s.slot)
    (depth : ncli = t.depth) (ptable : locked .ptable = t.ptable)
    (on : ints = (decide (t.depth = 0) && t.base)) (saved : 0 < t.depth → intena = t.base)
    (sane : Sane t) (runs : Runs (Strict P c.cur) k t) :
    Inv P { c.goto k with
      ncli := ncli, ints := ints, intena := intena, locked := locked, scan := scan,
      first := first } t := by
  refine ⟨⟨depth, ptable, on, saved, ?_, ?_, fun x member => ?_, sane⟩, ?_, ?_⟩
  · rw [self]
    exact inv.sees.self
  · rw [own]
    exact inv.sees.own
  · rw [slot] at member
    have kept := inv.sees.slot x member
    refine ⟨kept.state, kept.other, fun ready => ?_⟩
    obtain ⟨spsr, fresh⟩ := kept.ready ready
    exact ⟨spsr, (c.goto_away k (inv.slot_away member).symm).trans fresh⟩
  · rwa [← c.goto_stack k] at runs
  · exact inv.others.congr rfl rfl rfl fun t away => c.goto_away k away

/-- Nothing but control. -/
theorem Inv.stay {first : Bool} {scan : Nat} (runs : Runs (Strict P c.cur) k s) :
    Inv P { c.goto k with scan := scan, first := first } s :=
  inv.goOn rfl rfl rfl inv.sees.depth inv.sees.ptable inv.sees.ints inv.sees.intena inv.sees.sane
    runs

theorem Inv.halt : Inv P { c with halted := true } s :=
  ⟨⟨inv.sees.depth, inv.sees.ptable, inv.sees.ints, inv.sees.intena, inv.sees.self, inv.sees.own,
    fun x member => ⟨(inv.sees.slot x member).state, (inv.sees.slot x member).other,
      (inv.sees.slot x member).ready⟩, inv.sees.sane⟩, inv.runs,
    inv.others.congr rfl rfl rfl fun _ _ => rfl⟩

/-- In a section, interrupts are off. -/
theorem Inv.off_inside (inside : 0 < s.depth) : c.ints = false := by
  rw [inv.sees.ints, decide_eq_false (by omega), Bool.false_and]

/-- Where interrupts are on, there is no section. -/
theorem Inv.outside_of_on (on : c.ints = true) : s.depth = 0 ∧ s.base = true := by
  have := inv.sees.ints
  rw [on] at this
  simpa using this.symm

end Here

/-! ## Steps that change the states of processes -/

section States

variable {k : List Frame} (inv : Inv P c s)
include inv

/-- `goto`, and new states for some processes: what is left to show. -/
theorem Inv.restate {state : Pid → Procstate} (self : t.self = c.proc.map state)
    (depth : t.depth = s.depth) (ptable : t.ptable = s.ptable) (base : t.base = s.base)
    (own : t.own = s.own) (sane : Sane t)
    (slot : ∀ x, t.slot = some x → state x.pid = x.state ∧ c.proc ≠ some x.pid ∧
      (x = .ready x.pid → ∃ spsr, c.stack (some x.pid) = Cpu.fresh spsr))
    (settled : ∀ p, c.cur = some p → Settled (state p))
    (running : ∀ p, state p = .running → c.proc = some p)
    (waiting : ∀ p, c.cur ≠ some p → Alive (state p) → Waits (P p) (c.stack (some p)))
    (runs : Runs (Strict P c.cur) k t) : Inv P { c.goto k with state := state } t := by
  refine ⟨⟨?_, ?_, ?_, ?_, self, ?_, fun x member => ?_, sane⟩, ?_, ?_⟩
  · rw [depth]
    exact inv.sees.depth
  · rw [ptable]
    exact inv.sees.ptable
  · rw [depth, base]
    exact inv.sees.ints
  · rw [depth, base]
    exact inv.sees.intena
  · rw [own]
    exact inv.sees.own
  · obtain ⟨same, other, fresh⟩ := slot x member
    refine ⟨same, other, fun ready => ?_⟩
    obtain ⟨spsr, stack⟩ := fresh ready
    have away : some x.pid ≠ c.cur := fun current => other (inv.others.current _ current.symm)
    exact ⟨spsr, (c.goto_away k away).trans stack⟩
  · rwa [← c.goto_stack k] at runs
  · refine ⟨inv.others.current, settled, running, fun p away alive => ?_, fun away intena st stopped => ?_⟩
    · show Waits (P p) ((c.goto k).stack (some p))
      rw [c.goto_away k (Ne.symm away)]
      exact waiting p away alive
    · show Runs False ((c.goto k).stack none) _
      rw [c.goto_away k (Ne.symm away)]
      exact inv.others.scheduler away intena st stopped

/-- `proc->state = st` -/
theorem Inv.setSelf {p : Pid} {st : Procstate} (proc : c.proc = some p) (inside : 0 < s.depth)
    (was : if st = .running then s.self = some .runnable
      else s.self = some .running ∧ s.own = true ∧ (st = .sleeping ∨ st = .runnable ∨ st = .zombie))
    (runs : Runs (Strict P c.cur) k { s with self := some st }) :
    Inv P { c.goto k with state := upd c.state p st } { s with self := some st } := by
  have before : s.self = some (c.state p) := by rw [inv.sees.self, proc, Option.map_some]
  have aliveBefore : Alive (c.state p) := by
    split at was
    · exact .inl (Option.some.inj (before.symm.trans was))
    · exact .inr (.inr (Option.some.inj (before.symm.trans was.1)))
  refine inv.restate ?_ rfl rfl rfl rfl (fun outside => absurd outside inside.ne') ?_ ?_ ?_ ?_ runs
  · rw [proc, Option.map_some, upd_same]
  · intro x member
    have kept := inv.sees.slot x member
    have ne : x.pid ≠ p := fun same => kept.other (same ▸ proc)
    exact ⟨by rw [upd_ne _ _ ne, kept.state], kept.other, kept.ready⟩
  · intro q current
    by_cases same : q = p
    · rw [same, upd_same]
      split at was
      · exact .inl (.inr (.inr ‹_›))
      · rcases was.2.2 with sleeping | runnable | zombie
        · exact .inl (.inr (.inl sleeping))
        · exact .inl (.inl runnable)
        · exact .inr zombie
    · rw [upd_ne _ _ same]
      exact inv.others.settled q current
  · intro q running
    by_cases same : q = p
    · rw [same, proc]
    · rw [upd_ne _ _ same] at running
      exact inv.others.running q running
  · intro q away alive
    by_cases same : q = p
    · subst same
      exact inv.others.waiting q away aliveBefore
    · rw [upd_ne _ _ same] at alive
      exact inv.others.waiting q away alive

/-- Some sleeping processes become runnable. -/
theorem Inv.wake {ps : List Pid} (awake : s.self ≠ some .sleeping)
    (runs : Runs (Strict P c.cur) k s) :
    Inv P { c.goto k with
      state := fun p => if p ∈ ps ∧ c.state p = .sleeping then .runnable else c.state p } s := by
  have same : ∀ p, c.state p ≠ .sleeping →
      (if p ∈ ps ∧ c.state p = .sleeping then Procstate.runnable else c.state p) = c.state p :=
    fun p ne => if_neg fun both => ne both.2
  refine inv.restate ?_ rfl rfl rfl rfl inv.sees.sane ?_ ?_ ?_ ?_ runs
  · rw [inv.sees.self]
    cases proc : c.proc with
    | none => rfl
    | some p =>
      have self := inv.sees.self
      rw [proc, Option.map_some] at self
      rw [Option.map_some, Option.map_some, same p fun sleeping => awake (self.trans (by rw [sleeping]))]
  · intro x member
    have kept := inv.sees.slot x member
    refine ⟨(same _ ?_).trans kept.state, kept.other, kept.ready⟩
    rw [kept.state]
    cases x <;> simp [Slot.state]
  · intro p current
    split
    · exact .inl (.inl rfl)
    · exact inv.others.settled p current
  · intro p running
    split at running
    · cases running
    · exact inv.others.running p running
  · intro p away alive
    split at alive
    · rename_i both
      exact inv.others.waiting p away (.inr (.inl both.2))
    · exact inv.others.waiting p away alive

/-- `p->state = st` for the slot at hand. -/
theorem Inv.setState {x : Slot} {st : Procstate} {slot : Option Slot} (member : s.slot = some x)
    (stopped : st ≠ .running)
    (ready : Alive st → x = .ready x.pid)
    (next : ∀ y, slot = some y → y = .embryo x.pid ∧ st = .embryo)
    (runs : Runs (Strict P c.cur) k { s with slot := slot }) :
    Inv P { c.goto k with state := upd c.state x.pid st } { s with slot := slot } := by
  have kept := inv.sees.slot x member
  refine inv.restate ?_ rfl rfl rfl rfl inv.sees.sane ?_ ?_ ?_ ?_ runs
  · rw [show ({ s with slot := slot } : View).self = s.self from rfl, inv.sees.self]
    cases proc : c.proc with
    | none => rfl
    | some p =>
      have ne : p ≠ x.pid := fun same => kept.other (same ▸ proc)
      rw [Option.map_some, Option.map_some, upd_ne _ _ ne]
  · intro y new
    obtain ⟨rfl, rfl⟩ := next y new
    refine ⟨upd_same .., kept.other, fun isReady => ?_⟩
    cases isReady
  · intro p current
    have ne : p ≠ x.pid := fun same => inv.slot_away member (same ▸ current)
    rw [upd_ne _ _ ne]
    exact inv.others.settled p current
  · intro p running
    by_cases same : p = x.pid
    · rw [same, upd_same] at running
      exact absurd running stopped
    · rw [upd_ne _ _ same] at running
      exact inv.others.running p running
  · intro p away alive
    by_cases same : p = x.pid
    · rw [same, upd_same] at alive
      obtain ⟨spsr, fresh⟩ := kept.ready (ready alive)
      rw [same, fresh]
      exact .new spsr
    · rw [upd_ne _ _ same] at alive
      exact inv.others.waiting p away alive

/-- The search has come to a slot. -/
theorem Inv.find {x : Slot} (state : c.state x.pid = x.state) (ne : s.self ≠ some x.state)
    (notReady : x ≠ .ready x.pid) (runs : Runs (Strict P c.cur) k { s with slot := some x }) :
    Inv P (c.goto k) { s with slot := some x } := by
  refine inv.restate inv.sees.self rfl rfl rfl rfl inv.sees.sane ?_ inv.others.settled
    inv.others.running inv.others.waiting runs
  intro y same
  cases same
  refine ⟨state, fun proc => ne ?_, fun ready => absurd ready notReady⟩
  rw [inv.sees.self, proc, Option.map_some, state]

/-- `p->context` for the slot at hand. -/
theorem Inv.context {p : Pid} {spsr : Bool} (member : s.slot = some (.embryo p))
    (runs : Runs (Strict P c.cur) k { s with slot := some (.ready p) }) :
    Inv P { c.goto k with stack := upd (c.goto k).stack (some p) (Cpu.fresh spsr) }
      { s with slot := some (.ready p) } := by
  have kept := inv.sees.slot _ member
  have away : c.cur ≠ some p := inv.slot_away member
  have here : upd (c.goto k).stack (some p) (Cpu.fresh spsr) c.cur = k := by
    rw [upd_ne _ _ away, c.goto_stack]
  have stack : ∀ t, t ≠ c.cur → t ≠ some p →
      upd (c.goto k).stack (some p) (Cpu.fresh spsr) t = c.stack t := by
    intro t elsewhere ne
    rw [upd_ne _ _ ne, c.goto_away k elsewhere]
  refine ⟨⟨inv.sees.depth, inv.sees.ptable, inv.sees.ints, inv.sees.intena, inv.sees.self,
    inv.sees.own, fun x same => ?_, inv.sees.sane⟩, ?_, inv.others.current, inv.others.settled,
    inv.others.running, fun q elsewhere alive => ?_, fun elsewhere intena st stopped => ?_⟩
  · cases same
    exact ⟨kept.state, kept.other, fun _ => ⟨spsr, upd_same ..⟩⟩
  · rwa [← here] at runs
  · have ne : some q ≠ some p := by
      rintro same
      cases same
      have embryo : c.state p = .embryo := kept.state
      have alive : Alive (c.state p) := alive
      rw [embryo] at alive
      rcases alive with impossible | impossible | impossible <;> cases impossible
    show Waits (P q) (upd (c.goto k).stack (some p) (Cpu.fresh spsr) (some q))
    rw [stack _ (Ne.symm elsewhere) ne]
    exact inv.others.waiting q elsewhere alive
  · show Runs False (upd (c.goto k).stack (some p) (Cpu.fresh spsr) none) _
    rw [stack _ (Ne.symm elsewhere) (by simp)]
    exact inv.others.scheduler elsewhere intena st stopped

end States

/-! ## Passing control around -/

section Control

variable {k : List Frame} (inv : Inv P c s)
include inv

/-- A thread that is not a process is the scheduler. -/
theorem Inv.cur_none (other : s.own = false) : c.cur = none := by
  have own := inv.sees.own
  rw [other] at own
  exact Option.isNone_iff_eq_none.1 (by simpa using own.symm)

theorem Inv.cur_some (own : s.own = true) : ∃ p, c.cur = some p ∧ c.proc = some p := by
  have sees := inv.sees.own
  rw [own] at sees
  obtain ⟨p, current⟩ := Option.isSome_iff_exists.1 sees.symm
  exact ⟨p, current, inv.others.current p current⟩

theorem Inv.proc_none (gone : s.self = none) : c.proc = none := by
  have self := inv.sees.self
  rw [gone] at self
  exact Option.map_eq_none_iff.1 self.symm

/-- The next process is chosen: no process is running. -/
theorem Inv.choose {p : Pid} {scan : Nat} (gone : s.self = none) (noSlot : s.slot = none)
    (inside : 0 < s.depth) (runnable : c.state p = .runnable)
    (runs : Runs (Strict P c.cur) k { s with self := some .runnable }) :
    Inv P { c.goto k with proc := some p, scan := scan } { s with self := some .runnable } := by
  have noProc := inv.proc_none gone
  refine ⟨⟨inv.sees.depth, inv.sees.ptable, inv.sees.ints, inv.sees.intena, ?_, inv.sees.own, ?_,
    fun outside => absurd outside inside.ne'⟩, ?_, ?_, inv.others.settled, ?_, fun q away alive => ?_,
    fun away intena st stopped => ?_⟩
  · rw [Option.map_some]
    exact congrArg some runnable.symm
  · intro x member
    rw [show s.slot = none from noSlot] at member
    cases member
  · rwa [← c.goto_stack k] at runs
  · intro q current
    have proc := inv.others.current q current
    rw [noProc] at proc
    cases proc
  · intro q running
    have proc := inv.others.running q running
    rw [noProc] at proc
    cases proc
  · show Waits (P q) ((c.goto k).stack (some q))
    rw [c.goto_away k (Ne.symm away)]
    exact inv.others.waiting q away alive
  · show Runs False ((c.goto k).stack none) _
    rw [c.goto_away k (Ne.symm away)]
    exact inv.others.scheduler away intena st stopped

/-- **To a process**: it gets the CPU with the scheduler's `intena`. -/
theorem Inv.swtch {p : Pid} (proc : c.proc = some p) (one : s.depth = 1) (taken : s.ptable = true)
    (running : s.self = some .running) (noSlot : s.slot = none) (other : s.own = false)
    (off : P p → started (c.stack (some p)) = false → c.intena = false)
    (runs : ∀ b st, st ≠ .running → Runs (Strict P c.cur) k { s with base := b, self := some st }) :
    Inv P { c.goto k with cur := some p } (switched c.intena) := by
  have current := inv.cur_none other
  have isRunning : c.state p = .running := by
    have self := inv.sees.self
    rw [running, proc, Option.map_some] at self
    exact (Option.some.inj self).symm
  have waits := inv.others.waiting p (by simp [current]) (.inr (.inr isRunning))
  have away : some p ≠ c.cur := by simp [current]
  refine ⟨⟨?_, ?_, ?_, fun _ => rfl, ?_, rfl, ?_, ?_⟩, ?_, ?_, ?_, inv.others.running,
    fun q ne alive => ?_, fun _ intena st stopped => ?_⟩
  · exact inv.sees.depth.trans (by rw [one]; rfl)
  · exact inv.sees.ptable.trans taken
  · exact inv.off_inside (by omega)
  · show some .running = c.proc.map c.state
    rw [proc, Option.map_some, isRunning]
  · intro x member
    cases member
  · intro outside
    cases outside
  · show Runs (P p) ((c.goto k).stack (some p)) _
    rw [c.goto_away k away]
    exact waits.runs off
  · intro q same
    exact same ▸ proc
  · intro q same
    cases same
    exact .inl (.inr (.inr isRunning))
  · show Waits (P q) ((c.goto k).stack (some q))
    rw [c.goto_away k (by simp [current])]
    exact inv.others.waiting q (by simp [current]) alive
  · have next := runs intena st stopped
    rw [current] at next
    show Runs False ((c.goto k).stack none) _
    rw [← current, c.goto_stack]
    obtain ⟨depth, ptable, base, self, slot, own⟩ := s
    simp only at one taken noSlot other
    subst one taken noSlot other
    exact next

/-- **To the scheduler**: `sched` is left behind, to restore `intena`. -/
theorem Inv.sched (one : s.depth = 1) (taken : s.ptable = true) (noSlot : s.slot = none)
    (own : s.own = true)
    (stopped : s.self = some .sleeping ∨ s.self = some .runnable ∨ s.self = some .zombie)
    (runs : Runs (Strict P c.cur) k { s with self := some .running }) :
    ∃ st, Inv P { c.goto (.resumed c.intena :: k) with cur := none }
      ⟨1, true, c.intena, some st, none, false⟩ := by
  obtain ⟨p, current, proc⟩ := inv.cur_some own
  have self := inv.sees.self
  rw [proc, Option.map_some] at self
  have notRunning : c.state p ≠ .running := by
    intro running
    rw [running] at self
    rw [self] at stopped
    simp at stopped
  have away : none ≠ c.cur := by simp [current]
  refine ⟨c.state p, ⟨?_, ?_, ?_, fun _ => rfl, ?_, rfl, ?_, ?_⟩, ?_, ?_, ?_, inv.others.running,
    fun q _ alive => ?_, ?_⟩
  · exact inv.sees.depth.trans (by rw [one])
  · exact inv.sees.ptable.trans taken
  · exact inv.off_inside (by omega)
  · show some (c.state p) = c.proc.map c.state
    rw [proc, Option.map_some]
  · intro x member
    cases member
  · intro outside
    cases outside
  · show Runs False ((c.goto _).stack none) _
    rw [c.goto_away _ away]
    exact inv.others.scheduler away.symm c.intena _ notRunning
  · intro q impossible
    cases impossible
  · intro q impossible
    cases impossible
  · show Waits (P q) ((c.goto (.resumed c.intena :: k)).stack (some q))
    by_cases same : q = p
    · subst same
      rw [← current, c.goto_stack]
      refine .inSched _ _ ?_
      rw [current] at runs
      have base := inv.sees.intena (by omega)
      obtain ⟨depth, ptable, base', self', slot, thread⟩ := s
      simp only at one taken noSlot own base
      subst one taken noSlot own base
      exact runs
    · have ne : some q ≠ c.cur := by simpa [current] using same
      rw [c.goto_away _ ne]
      exact inv.others.waiting q (Ne.symm ne) alive
  · intro impossible
    exact absurd rfl impossible

/-- `proc = 0` -/
theorem Inv.clearProc (stopped : s.self ≠ some .running) (other : s.own = false)
    (runs : Runs (Strict P c.cur) k { s with self := none }) :
    Inv P { c.goto k with proc := none } { s with self := none } := by
  have current := inv.cur_none other
  have noneRunning : ∀ q, c.state q ≠ .running := by
    intro q running
    apply stopped
    rw [inv.sees.self, inv.others.running q running, Option.map_some, running]
  refine ⟨⟨inv.sees.depth, inv.sees.ptable, inv.sees.ints, inv.sees.intena, rfl, inv.sees.own,
    fun x member => ?_, fun outside => ?_⟩, ?_, ?_, inv.others.settled, ?_, fun q away alive => ?_,
    fun away => ?_⟩
  · have kept := inv.sees.slot x member
    refine ⟨kept.state, by simp, fun ready => ?_⟩
    obtain ⟨spsr, fresh⟩ := kept.ready ready
    exact ⟨spsr, (c.goto_away k (inv.slot_away member).symm).trans fresh⟩
  · exact ⟨(inv.sees.sane outside).1, .inl rfl⟩
  · rwa [← c.goto_stack k] at runs
  · intro q same
    have impossible : c.cur = some q := same
    rw [current] at impossible
    cases impossible
  · intro q running
    exact absurd running (noneRunning q)
  · show Waits (P q) ((c.goto k).stack (some q))
    rw [c.goto_away k (Ne.symm away)]
    exact inv.others.waiting q away alive
  · exact absurd current away

end Control

/-! ## A step -/

/-- What is seen: neither `sched` nor `popcli` panics. -/
def Fine (seen : List Obs) : Prop := ∀ o ∈ seen, ∃ msg, o = .panic .code msg

theorem Fine.nil : Fine [] := by
  intro o member
  cases member

theorem Fine.code (msg : String) : Fine [.panic .code msg] := by
  intro o member
  exact ⟨msg, List.mem_singleton.1 member⟩

/-- A step has been taken, and all is well. -/
def Kept (P : Pid → Prop) (r : Option (Cpu × List Obs)) : Prop :=
  ∀ c' seen, r = some (c', seen) → (∃ t, Inv P c' t) ∧ Fine seen

theorem Kept.of_inv (inv : Inv P c s) : Kept P (some (c, [])) := by
  intro c' seen same
  cases same
  exact ⟨⟨s, inv⟩, Fine.nil⟩

theorem Kept.none : Kept P none := by
  intro c' seen impossible
  cases impossible

theorem Kept.panic (inv : Inv P c s) (msg : String) : Kept P (c.panic .code msg) := by
  intro c' seen same
  cases same
  exact ⟨⟨s, inv.halt⟩, Fine.code msg⟩

theorem Kept.ite {cond : Prop} [Decidable cond] {a b : Option (Cpu × List Obs)}
    (yes : cond → Kept P a) (no : ¬ cond → Kept P b) : Kept P (if cond then a else b) := by
  split
  · exact yes ‹_›
  · exact no ‹_›

section Step

variable {k : List Frame} {op : Op}

/-- **A primitive keeps the invariant.** -/
theorem Inv.prim {p : Prim} (inv : Inv P c s) (off : c.Off P)
    (top : c.stack c.cur = .code (.prim p) :: k) : Kept P (c.prim op k p) := by
  have runs := inv.runs
  rw [top] at runs
  cases p with
  | pushcli =>
    refine .of_inv (s := s) (inv.goOn rfl rfl rfl inv.sees.depth inv.sees.ptable inv.sees.ints
      inv.sees.intena inv.sees.sane ?_)
    exact ⟨inv.sees.ints, runs⟩
  | popcli =>
    obtain ⟨inside, calm, runs⟩ := runs
    have ncli := inv.sees.depth
    have left : (s.depth - 1 : Nat) = (s.depth : Int) - 1 := by omega
    simp only [Cpu.prim, inv.off_inside inside, ncli]
    refine Kept.ite (fun impossible => by simp at impossible) fun _ => ?_
    refine Kept.ite (fun impossible => by omega) fun _ => ?_
    refine .of_inv (s := { s with depth := s.depth - 1 }) (inv.goOn rfl rfl rfl left.symm
      inv.sees.ptable ?_ ?_ ?_ runs)
    · rw [inv.sees.intena inside]
      by_cases last : s.depth = 1
      · simp [last]
      · rw [if_neg (by omega), decide_eq_false (by simp only; omega), Bool.false_and]
    · intro _
      exact inv.sees.intena inside
    · intro outside
      exact calm (by simp only at outside; omega)
  | setLocked lk b =>
    by_cases isPtable : lk = .ptable
    · subst isPtable
      simp only [Runs, wp, pre, if_pos] at runs
      refine .of_inv (s := { s with ptable := b }) (inv.goOn rfl rfl rfl inv.sees.depth (upd_same ..)
        inv.sees.ints inv.sees.intena (fun outside => ?_) runs.2)
      cases b with
      | false => exact ⟨rfl, (inv.sees.sane outside).2⟩
      | true => exact absurd outside (runs.1 rfl).ne'
    · simp only [Runs, wp, pre, if_neg isPtable] at runs
      refine .of_inv (s := s) (inv.goOn rfl rfl rfl inv.sees.depth ?_ inv.sees.ints inv.sees.intena
        inv.sees.sane runs)
      rw [upd_ne _ _ (Ne.symm isPtable)]
      exact inv.sees.ptable
  | sti =>
    obtain ⟨outside, runs⟩ := runs
    refine .of_inv (s := { s with base := true }) (inv.goOn rfl rfl rfl inv.sees.depth inv.sees.ptable
      ?_ (fun inside => ?_) inv.sees.sane runs)
    · simp [outside]
    · exact absurd outside inside.ne'
  | sched =>
    obtain ⟨one, taken, noSlot, own, stopped, runs⟩ := runs
    obtain ⟨p, current, proc⟩ := inv.cur_some own
    have self := inv.sees.self
    rw [proc, Option.map_some] at self
    have notRunning : c.state p ≠ .running := by
      intro running
      rw [running] at self
      rw [self] at stopped
      simp at stopped
    have ncli : c.ncli = 1 := inv.sees.depth.trans (by rw [one]; rfl)
    obtain ⟨st, next⟩ := inv.sched one taken noSlot own stopped runs
    simp only [Cpu.prim, proc, inv.sees.ptable.trans taken, ncli, notRunning,
      inv.off_inside (show 0 < s.depth by omega)]
    simpa using Kept.of_inv next
  | needProc =>
    refine Kept.ite (fun _ => .panic inv _) fun some => .of_inv (inv.stay (runs ?_))
    rw [inv.sees.self]
    simpa using some
  | setSelf st =>
    obtain ⟨inside, was, runs⟩ := runs
    simp only [Cpu.prim]
    split
    · exact .panic inv _
    · rename_i p proc
      exact .of_inv (inv.setSelf proc inside was runs)
  | wake => exact .of_inv (inv.wake runs.1 runs.2)
  | find p st =>
    refine Kept.ite (fun state => ?_) fun _ => .none
    cases st with
    | unused => exact .of_inv (inv.find (x := .unused p) state runs.2.1 (by simp) runs.2.2)
    | zombie => exact .of_inv (inv.find (x := .zombie p) state runs.2.1 (by simp) runs.2.2)
    | _ => exact runs.elim
  | full => exact Kept.ite (fun _ => .of_inv (inv.stay runs)) fun _ => .none
  | setState p st =>
    cases st with
    | unused =>
      obtain ⟨embryo | ready | zombie, runs⟩ := runs
      · exact .of_inv (inv.setState embryo (by simp) (by simp [Alive]) (by simp) runs)
      · exact .of_inv (inv.setState ready (by simp) (by simp [Alive]) (by simp) runs)
      · exact .of_inv (inv.setState zombie (by simp) (by simp [Alive]) (by simp) runs)
    | embryo =>
      obtain ⟨unused, runs⟩ := runs
      refine .of_inv (inv.setState unused (by simp) (by simp [Alive]) ?_ runs)
      intro y same
      exact ⟨(Option.some.inj same).symm, rfl⟩
    | runnable =>
      obtain ⟨ready, runs⟩ := runs
      exact .of_inv (inv.setState ready (by simp) (fun _ => rfl) (by simp) runs)
    | _ => exact runs.elim
  | context p =>
    obtain ⟨embryo, runs⟩ := runs
    refine Kept.ite (fun _ => .of_inv (inv.context embryo runs)) fun _ => ?_
    exact Kept.ite (fun _ => .of_inv (inv.context embryo runs)) fun _ => .none
  | rewind => exact .of_inv (inv.stay runs)
  | choose =>
    obtain ⟨inside, gone, noSlot, runs⟩ := runs
    cases op with
    | pick p =>
      refine Kept.ite (fun found => ?_) fun _ => .none
      exact .of_inv (inv.choose gone noSlot inside found.2.1 runs)
    | _ => exact .none
  | scanned => exact Kept.ite (fun _ => .of_inv (inv.stay runs)) fun _ => .none
  | swtch =>
    obtain ⟨one, taken, running, noSlot, other, runs⟩ := runs
    simp only [Cpu.prim]
    split
    · exact .panic inv _
    · rename_i p proc
      have dispatching : c.dispatching = some p := by rw [Cpu.dispatching, top, proc]
      exact .of_inv (inv.swtch proc one taken running noSlot other
        (fun member => off p member dispatching) runs)
  | clearProc => exact .of_inv (inv.clearProc runs.1 runs.2.1 runs.2.2)
  | ifFirst => exact Kept.ite (fun _ => .of_inv (inv.stay runs)) fun _ => .none
  | unlessFirst => exact Kept.ite (fun _ => .none) fun _ => .of_inv (inv.stay runs)
  | panic msg => exact .panic inv msg

/-- A frame of code is taken apart. -/
theorem Inv.code {a : Code} (inv : Inv P c s) (off : c.Off P)
    (top : c.stack c.cur = .code a :: k) : Kept P (c.frame op k (.code a)) := by
  have runs := inv.runs
  rw [top] at runs
  have enters : ∀ {b} k', wp pre b (Runs (Strict P c.cur) k') s → Kept P (some (c.goto (enter b k'), [])) :=
    fun _ holds => .of_inv (inv.stay (runs_enter.2 holds))
  cases a with
  | skip => exact .of_inv (inv.stay runs)
  | prim p => exact inv.prim off top
  | seq a b => exact enters (b := .seq a b) k runs
  | choice a b =>
    refine Kept.ite (fun _ => enters k runs.1) fun _ => ?_
    exact Kept.ite (fun _ => enters k runs.2) fun _ => .none
  | loop body =>
    obtain ⟨leave, again⟩ := wp_loop pre_mono runs
    refine Kept.ite (fun _ => .of_inv (inv.stay leave)) fun _ => ?_
    exact Kept.ite (fun _ => enters (.code (.loop body) :: k) again) fun _ => .none
  | forever body => exact enters (.code (.forever body) :: k) (wp_forever pre_mono runs)
  | any f =>
    cases op with
    | pick p => exact enters k (runs p)
    | _ => exact .none

theorem Inv.frame {f : Frame} (inv : Inv P c s) (off : c.Off P) (top : c.stack c.cur = f :: k) :
    Kept P (c.frame op k f) := by
  have runs := inv.runs
  rw [top] at runs
  cases f with
  | code a => exact inv.code off top
  | pushed enabled =>
    obtain ⟨same, runs⟩ := runs
    refine .of_inv (s := { s with depth := s.depth + 1 }) (inv.goOn rfl rfl rfl ?_ inv.sees.ptable
      ?_ (fun _ => ?_) ?_ runs)
    · rw [inv.sees.depth]
      rfl
    · simp
    · rw [inv.sees.depth, same]
      by_cases outside : s.depth = 0
      · simp [outside]
      · rw [if_neg (by omega)]
        exact inv.sees.intena (by omega)
    · intro outside
      cases outside
  | resumed intena =>
    obtain ⟨inside, runs⟩ := runs
    refine .of_inv (s := { s with base := intena }) (inv.goOn rfl rfl rfl inv.sees.depth
      inv.sees.ptable ?_ (fun _ => rfl) (fun outside => absurd outside inside.ne') runs)
    rw [decide_eq_false inside.ne', Bool.false_and]
    exact inv.off_inside inside
  | trapret origin spsr =>
    obtain ⟨outside, -, runs⟩ := runs
    refine .of_inv (s := { s with base := spsr }) (inv.goOn rfl rfl rfl inv.sees.depth
      inv.sees.ptable ?_ (fun inside => absurd outside inside.ne') inv.sees.sane runs)
    simp [outside]
  | user =>
    refine Kept.ite (fun _ => ?_) fun _ => .none
    have idle : Idle s := runs
    refine .of_inv (s := { s with base := false }) (inv.goOn rfl rfl rfl inv.sees.depth
      inv.sees.ptable ?_ (fun inside => absurd idle.1 inside.ne') inv.sees.sane ?_)
    · simp
    · refine runs_enter.2 (syscall_ok.wp _ _ idle ?_)
      exact ⟨idle.1, fun _ => rfl, idle⟩

/-- **An interrupt** finds the current thread outside of all sections. -/
theorem Inv.irq (inv : Inv P c s) (on : c.ints = true) :
    Inv P { c.goto (enter irqHandler (.trapret .irq c.ints :: c.stack c.cur)) with ints := false }
      { s with base := false } := by
  obtain ⟨outside, base⟩ := inv.outside_of_on on
  have calm := inv.sees.sane outside
  have awake : s.self ≠ some .sleeping := by
    rcases calm.2 with self | self <;> simp [self]
  refine inv.goOn rfl rfl rfl inv.sees.depth inv.sees.ptable (by simp)
    (fun inside => absurd outside inside.ne') inv.sees.sane ?_
  refine runs_enter.2 ((irqHandler_ok (A := Wakeful)).wp _ _ ⟨fun _ => calm, calm.1, awake⟩ ?_)
  refine ⟨outside, fun _ => rfl, ?_⟩
  rw [on, ← base]
  exact inv.runs

/-- **A step keeps the invariant.** -/
theorem Inv.step (inv : Inv P c s) (off : c.Off P) : Kept P (c.step op) := by
  refine Kept.ite (fun _ => .none) fun _ => Kept.ite (fun _ => ?_) fun _ => ?_
  · exact Kept.ite (fun on => .of_inv (inv.irq on)) fun _ => .none
  · cases top : c.stack c.cur with
    | nil => exact .none
    | cons f k => exact inv.frame off top

end Step

/-- At boot. -/
theorem Inv.boot : Inv P Cpu.boot ⟨0, false, false, none, none, false⟩ := by
  refine ⟨⟨rfl, rfl, rfl, by simp, rfl, rfl, by simp, fun _ => ⟨rfl, .inl rfl⟩⟩, ?_, by simp [Cpu.boot],
    by simp [Cpu.boot], by simp [Cpu.boot], ?_, by simp [Cpu.boot]⟩
  · exact runs_enter.2 (wp_kmain ⟨rfl, rfl, rfl, rfl, rfl⟩)
  · intro p _ alive
    rcases alive with impossible | impossible | impossible <;> cases impossible

/-- **Whole runs**: the invariant holds at the end, and neither `sched` nor `popcli` has
panicked. -/
theorem Inv.run {ops : List Op} {seen : List Obs}
    (off : Machine.Meets Cpu.step (fun c _ => c.Off P) Cpu.boot ops)
    (ran : Machine.run Cpu.step Cpu.boot ops = some (c, seen)) : (∃ s, Inv P c s) ∧ Fine seen := by
  refine Machine.run_keeps_where (I := fun seen c => (∃ s, Inv P c s) ∧ Fine seen) ?_ ops [] Cpu.boot c
    seen ⟨⟨_, Inv.boot⟩, Fine.nil⟩ off ran
  rintro seen c op c' more ⟨⟨s, inv⟩, fine⟩ off stepped
  obtain ⟨next, fineMore⟩ := inv.step off c' more stepped
  refine ⟨next, fun o member => ?_⟩
  rcases List.mem_append.1 member with old | new
  · exact fine o old
  · exact fineMore o new

end Xv6Rpi.Switch
