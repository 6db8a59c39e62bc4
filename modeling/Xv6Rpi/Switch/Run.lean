/-
# Switch.Run -- interrupts and context switches over whole runs

* `switch_discipline`: from boot on, whatever system calls and interrupts come, `sched` is only
  called as it wants to be called, at most one process is running, interrupts are off in
  sections, and code with as many `acquire`s as `release`s ends with the interrupt state it
  started with, also if other processes have run in between.
* `trapret_interrupts`: at `trapret` interrupts are off after a system call and after an
  interrupt; a new process gets there with the `intena` it was switched to with.  The first
  process is switched to with `intena` on (`trapret_interruptible`).
-/
import Xv6Rpi.Switch.Segment

namespace Xv6Rpi.Switch

open Theory Theory.Flow Theory.Machine Kernel Proc

set_option autoImplicit false

variable {c c' : Cpu} {s : View} {ops : List Op} {seen : List Obs}

theorem off_false (c : Cpu) : c.Off fun _ => False := fun _ impossible => impossible.elim

/-- From boot on, with nothing known about new processes. -/
theorem reached_inv (ran : run Cpu.step Cpu.boot ops = some (c, seen)) :
    (∃ s, Inv (fun _ => False) c s) ∧ Fine seen := by
  refine Inv.run ?_ ran
  have always : (fun (c : Cpu) (_ : Op) => c.Off fun _ => False) = fun _ _ => True := by
    funext c op
    exact eq_true (off_false c)
  rw [always]
  exact meets_true ..

section Discipline

variable {P : Pid → Prop} (inv : Inv P c s)
include inv

theorem Inv.at_sched {k : List Frame} (top : c.stack c.cur = .code (.prim .sched) :: k) :
    c.locked .ptable = true ∧ c.ncli = 1 ∧ c.ints = false ∧
      ∃ p, c.cur = some p ∧ c.proc = some p ∧ c.state p ≠ .running := by
  have runs := inv.runs
  rw [top] at runs
  obtain ⟨one, taken, -, own, stopped, -⟩ := runs
  obtain ⟨p, current, proc⟩ := inv.cur_some own
  refine ⟨inv.sees.ptable.trans taken, inv.sees.depth.trans (by rw [one]; rfl),
    inv.off_inside (by omega), p, current, proc, fun running => ?_⟩
  have self := inv.sees.self
  rw [proc, Option.map_some, running] at self
  simp [self] at stopped

theorem Inv.ints_off (inside : 0 < c.ncli) : c.ints = false :=
  inv.off_inside (by have := inv.sees.depth; omega)

/-- Code with as many sections entered as left is about to run above `k`. -/
theorem Inv.within {code : Code} {k : List Frame} {n : Int} (weighs : Weighs weight code n)
    (stack : c.stack c.cur = enter code k) (notZombie : ∀ p, c.cur = some p → c.state p ≠ .zombie) :
    Within (c.ncli + n) c.level c.cur k c := by
  refine ⟨fun p current => ?_, enter code [], ?_, fun _ => ?_, fun elsewhere => absurd rfl elsewhere⟩
  · rcases inv.others.settled p current with alive | zombie
    · exact alive
    · exact absurd zombie (notZombie p current)
  · rw [stack, ← enter_append]
    rfl
  · exact seg_enter weighs ⟨rfl, rfl⟩

end Discipline

/-- `ncli` and the level say all about interrupts. -/
theorem Inv.same_ints {P P' : Pid → Prop} {s s' : View} (inv : Inv P c s) (inv' : Inv P' c' s')
    (ncli : c'.ncli = c.ncli) (level : c'.level = c.level) :
    c'.ints = c.ints ∧ (0 < c.ncli → c'.intena = c.intena) := by
  have depth : s'.depth = s.depth := by
    have := inv.sees.depth
    have := inv'.sees.depth
    omega
  have base : s'.base = s.base := by rw [← inv.level, ← inv'.level, level]
  refine ⟨by rw [inv.sees.ints, inv'.sees.ints, depth, base], fun inside => ?_⟩
  have deep : 0 < s.depth := by
    have := inv.sees.depth
    omega
  rw [inv.sees.intena deep, inv'.sees.intena (depth ▸ deep), base]

/-- **The discipline of context switches.** -/
theorem switch_discipline {c : Cpu} {ops : List Op} {seen : List Obs}
    (ran : run Cpu.step Cpu.boot ops = some (c, seen)) :
    (∀ msg, Obs.panic .sched msg ∉ seen ∧ Obs.panic .popcli msg ∉ seen) ∧
    (∀ k, c.stack c.cur = .code (.prim .sched) :: k →
      c.locked .ptable = true ∧ c.ncli = 1 ∧ c.ints = false ∧
        ∃ p, c.cur = some p ∧ c.proc = some p ∧ c.state p ≠ .running) ∧
    (∀ p, c.state p = .running → c.proc = some p) ∧
    (0 < c.ncli → c.ints = false) ∧
    Even (.prim .sched) ∧ (∀ lk, Even (sleep lk)) ∧
    ∀ (code : Code) (k : List Frame) (more : List Op) (c' : Cpu) (seen' : List Obs), Even code →
      c.stack c.cur = enter code k → (∀ p, c.cur = some p → c.state p ≠ .zombie) →
      Meets Cpu.step (fun d _ => k.length < (d.stack c.cur).length) c more →
      run Cpu.step c more = some (c', seen') → (c'.stack c.cur).length = k.length →
      c'.ncli = c.ncli ∧ c'.ints = c.ints ∧ (0 < c.ncli → c'.intena = c.intena) := by
  obtain ⟨⟨s, inv⟩, fine⟩ := reached_inv ran
  refine ⟨fun msg => ⟨fun member => ?_, fun member => ?_⟩, fun k top => inv.at_sched top,
    inv.others.running, inv.ints_off, sched_even, fun _ => sleep_even, ?_⟩
  · obtain ⟨msg', same⟩ := fine _ member
    cases same
  · obtain ⟨msg', same⟩ := fine _ member
    cases same
  · intro code k more c' seen' even stack notZombie meets ranMore back
    have within := inv.within even.weighs stack notZombie
    rw [add_zero] at within
    obtain ⟨⟨s', inv'⟩, ncli, level⟩ := within.run ⟨s, inv⟩ meets ranMore back
    exact ⟨ncli, inv.same_ints inv' ncli level⟩

/-! ### A run -/

/-- From boot to the switch to the first process. -/
def startOps : List Op :=
  .replicate 18 .left ++ [.right, .pick 0] ++ .replicate 10 .left ++ [.right, .right] ++
    .replicate 28 .left ++ [.right, .pick 0]

/-- The first process sleeps in `bget`. -/
def sleepOps : List Op := startOps ++ .replicate 15 .left ++ [.right] ++ .replicate 7 .left

/-- The scheduler finds nothing to do, the timer wakes the process up, and it is switched to. -/
def wakeOps : List Op :=
  .replicate 6 .left ++ [.irq, .right] ++ .replicate 7 .left ++ [.wake [0]] ++ .replicate 12 .left ++
    [.right, .pick 0] ++ .replicate 7 .left

/-- A run that ends without a panic, in a state with a given property. -/
theorem run_checked (start : Cpu) (ops : List Op) (check : Cpu → Bool)
    (passes : (match run Cpu.step start ops with
      | some (c, []) => check c
      | _ => false) = true) : ∃ c, run Cpu.step start ops = some (c, []) ∧ check c = true := by
  split at passes
  · exact ⟨_, ‹_›, passes⟩
  · cases passes

def Cpu.inSched (c : Cpu) : Bool :=
  match c.stack c.cur with
  | .code (.prim .sched) :: _ => true
  | _ => false

theorem Cpu.inSched_stack (c : Cpu) (inSched : c.inSched = true) :
    c.stack c.cur = .code (.prim .sched) :: (c.stack c.cur).tail := by
  rw [Cpu.inSched] at inSched
  split at inSched
  · rename_i top
    rw [top, List.tail_cons]
  · cases inSched

/-- The first process goes to sleep and comes back with its `ncli` and `intena`. -/
theorem switch_discipline_sleep :
    ∃ c c' k, run Cpu.step Cpu.boot sleepOps = some (c, []) ∧ run Cpu.step c wakeOps = some (c', []) ∧
      c.stack c.cur = .code (.prim .sched) :: k ∧ c.ncli = 1 ∧ c.ints = false ∧
      c'.ncli = c.ncli ∧ c'.intena = c.intena := by
  obtain ⟨c, ran, checked⟩ := run_checked Cpu.boot sleepOps
    (fun c => c.inSched && decide (c.cur = some 0) && decide (c.state 0 = .sleeping) &&
      decide (Meets Cpu.step (fun d _ => (c.stack c.cur).tail.length < (d.stack c.cur).length) c wakeOps) &&
      (match run Cpu.step c wakeOps with
        | some (c', []) => decide ((c'.stack c.cur).length = (c.stack c.cur).tail.length)
        | _ => false)) (by decide +kernel)
  simp only [Bool.and_eq_true, decide_eq_true_eq] at checked
  obtain ⟨⟨⟨⟨inSched, current⟩, sleeping⟩, meets⟩, ends⟩ := checked
  obtain ⟨c', ranMore, back⟩ := run_checked _ _ _ ends
  have top := c.inSched_stack inSched
  obtain ⟨-, atSched, -, -, even, -, returns⟩ := switch_discipline ran
  obtain ⟨-, one, off, -⟩ := atSched _ top
  obtain ⟨ncli, -, intena⟩ := returns _ _ _ _ _ even top
    (fun p isCurrent => by
      rw [current] at isCurrent
      cases isCurrent
      simp [sleeping]) meets ranMore (of_decide_eq_true back)
  exact ⟨c, c', _, ran, ranMore, top, one, off, ncli, intena (by omega)⟩

/-! ## `trapret` -/

theorem Inv.at_trapret {P : Pid → Prop} (inv : Inv P c s) {origin : Origin} {spsr : Bool} {k : List Frame}
    (top : c.stack c.cur = .trapret origin spsr :: k) (asked : origin ≠ .new ∨ Strict P c.cur) :
    c.ints = false := by
  have runs := inv.runs
  rw [top] at runs
  obtain ⟨-, off, -⟩ := runs
  rw [inv.sees.ints, off asked, Bool.and_false]

/-- The process that is switched to is not current yet, and running. -/
theorem Inv.at_swtch {P : Pid → Prop} {p : Pid} (inv : Inv P c s) (dispatching : c.dispatching = some p) :
    c.cur = none ∧ c.proc = some p ∧ c.state p = .running ∧ c.ints = false ∧ c.ncli = 1 ∧
      ∃ k, c.stack c.cur = .code (.prim .swtch) :: k := by
  rw [Cpu.dispatching] at dispatching
  split at dispatching
  · rename_i k top
    have runs := inv.runs
    rw [top] at runs
    obtain ⟨one, -, running, -, other, -⟩ := runs
    have self := inv.sees.self
    rw [running, dispatching, Option.map_some] at self
    exact ⟨inv.cur_none other, dispatching, (Option.some.inj self).symm, inv.off_inside (by omega),
      inv.sees.depth.trans (by rw [one]; rfl), k, top⟩
  · cases dispatching

theorem Waits.fresh_of_not_started {strict : Prop} {k : List Frame} (waits : Waits strict k)
    (new : started k = false) : ∃ spsr, k = Cpu.fresh spsr := by
  cases waits with
  | new spsr => exact ⟨spsr, rfl⟩
  | inSched intena k runs => cases new

/-- **From the switch to a new process to its `trapret`**, `intena` becomes the interrupt flag. -/
theorem new_process_ints {p : Pid} (inv : Inv (fun _ => False) c s) (dispatching : c.dispatching = some p)
    (new : started (c.stack (some p)) = false)
    (meets : Meets Cpu.step (fun d _ => 2 < (d.stack (some p)).length) c ops)
    (ran : run Cpu.step c ops = some (c', seen)) (back : (c'.stack (some p)).length = 2) :
    c'.ints = c.intena := by
  obtain ⟨current, proc, running, off, ncli, k, top⟩ := inv.at_swtch dispatching
  have waits := inv.others.waiting p (by simp [current]) (.inr (.inr running))
  obtain ⟨spsr, fresh⟩ := waits.fresh_of_not_started new
  cases ops with
  | nil =>
    obtain ⟨rfl, -⟩ := Prod.mk.injEq .. ▸ Option.some.inj ran
    rw [fresh] at back
    cases back
  | cons op ops =>
    obtain ⟨d, first, rest, stepped, ranRest, -⟩ := run_cons ran
    obtain ⟨inv', -⟩ := inv.step (off_false c) d first stepped
    -- the step is the switch
    have switches : d = { c.goto k with cur := some p } := by
      simp only [Cpu.step, top, Cpu.frame, Cpu.prim, proc, off] at stepped
      split at stepped
      · cases stepped
      · split at stepped
        · cases stepped
        · cases stepped
          rfl
    subst switches
    have stack : (c.goto k).stack (some p) = enter forkret [] ++ [.trapret .new spsr, .user] := by
      rw [c.goto_away k (by simp [current]), fresh, ← enter_append]
      rfl
    have within : Within (c.ncli + -1) c.intena (some p) [.trapret .new spsr, .user]
        { c.goto k with cur := some p } := by
      refine ⟨?_, enter forkret [], stack, fun _ => seg_enter weighs_forkret ⟨rfl, ?_⟩, ?_⟩
      · intro q same
        cases same
        exact .inr (.inr running)
      · show (if c.ncli = 0 then c.ints else c.intena) = c.intena
        rw [if_neg (by omega)]
      · exact fun elsewhere => absurd rfl elsewhere
    obtain ⟨-, outside, level⟩ := within.run inv' (meets.2 _ first stepped) ranRest back
    rw [Cpu.level, if_pos (by omega)] at level
    exact level

/-- **Interrupts at `trapret`.** -/
theorem trapret_interrupts {c : Cpu} {ops : List Op} {seen : List Obs}
    (ran : run Cpu.step Cpu.boot ops = some (c, seen)) :
    (∀ origin spsr k, c.stack c.cur = .trapret origin spsr :: k → origin ≠ .new → c.ints = false) ∧
    (∀ p, Meets Cpu.step (fun d _ => d.dispatching = some p → started (d.stack (some p)) = false →
        d.intena = false) Cpu.boot ops →
      ∀ origin spsr k, c.cur = some p → c.stack c.cur = .trapret origin spsr :: k → c.ints = false) ∧
    ∀ (p : Pid) (more : List Op) (c' : Cpu) (seen' : List Obs), c.dispatching = some p →
      started (c.stack (some p)) = false →
      Meets Cpu.step (fun d _ => 2 < (d.stack (some p)).length) c more →
      run Cpu.step c more = some (c', seen') → (c'.stack (some p)).length = 2 →
      (c'.ints = false ↔ c.intena = false) := by
  obtain ⟨⟨s, inv⟩, -⟩ := reached_inv ran
  refine ⟨fun origin spsr k top notNew => inv.at_trapret top (.inl notNew), ?_, ?_⟩
  · intro p meets origin spsr k current top
    have off : Meets Cpu.step (fun d _ => d.Off fun q => q = p) Cpu.boot ops := by
      refine meets_mono (fun d op met => ?_) meets
      rintro q rfl
      exact met
    obtain ⟨⟨s', inv'⟩, -⟩ := Inv.run off ran
    exact inv'.at_trapret top (.inr (by rw [current]; exact rfl))
  · intro p more c' seen' dispatching new meets ranMore back
    rw [new_process_ints inv dispatching new meets ranMore back]

/-- A new process at `trapret`. -/
def atTrapret : List Frame → Bool
  | .trapret .new _ :: _ => true
  | _ => false

theorem exists_of_atTrapret {l : List Frame} (top : atTrapret l = true) :
    ∃ spsr k, l = .trapret .new spsr :: k := by
  unfold atTrapret at top
  split at top
  · exact ⟨_, _, rfl⟩
  · cases top

/-- **The first process** reaches `trapret` with interrupts on, and an interrupt can come. -/
theorem trapret_interruptible :
    ∃ c spsr k, run Cpu.step Cpu.boot (startOps ++ .replicate 78 .left) = some (c, []) ∧
      c.stack c.cur = .trapret .new spsr :: k ∧ c.ints = true ∧ (c.step .irq).isSome = true := by
  obtain ⟨c, ran, checked⟩ := run_checked Cpu.boot (startOps ++ .replicate 78 .left)
    (fun c => atTrapret (c.stack c.cur) && c.ints && (c.step .irq).isSome) (by decide +kernel)
  simp only [Bool.and_eq_true] at checked
  obtain ⟨⟨isTop, on⟩, irq⟩ := checked
  obtain ⟨spsr, k, top⟩ := exists_of_atTrapret isTop
  exact ⟨c, spsr, k, ran, top, on, irq⟩

/-- The first process forks and waits; its child is switched to in the same round. -/
def childOps : List Op :=
  startOps ++ .replicate 79 .left ++ [.swi] ++ .replicate 4 .left ++ [.right, .pick 1] ++
    .replicate 10 .left ++ [.right, .right] ++ .replicate 8 .left ++ [.right] ++ .replicate 8 .left ++
    [.swi, .right, .right] ++ .replicate 4 .left ++ [.right] ++ .replicate 4 .left ++ [.right, .pick 1] ++
    .replicate 8 .left ++ [.right, .left]

/-- That child reaches `trapret` with interrupts off. -/
theorem trapret_interrupts_child :
    ∃ c spsr k, run Cpu.step Cpu.boot childOps = some (c, []) ∧ c.cur = some 1 ∧
      c.stack c.cur = .trapret .new spsr :: k ∧ c.ints = false := by
  obtain ⟨c, ran, checked⟩ := run_checked Cpu.boot childOps
    (fun c => atTrapret (c.stack c.cur) && decide (c.cur = some 1)) (by decide +kernel)
  have meets : Meets Cpu.step (fun d _ => d.dispatching = some 1 → started (d.stack (some 1)) = false →
      d.intena = false) Cpu.boot childOps := by decide +kernel
  simp only [Bool.and_eq_true, decide_eq_true_eq] at checked
  obtain ⟨isTop, current⟩ := checked
  obtain ⟨spsr, k, top⟩ := exists_of_atTrapret isTop
  exact ⟨c, spsr, k, ran, current, top, (trapret_interrupts ran).2.1 1 meets _ _ _ current top⟩

end Xv6Rpi.Switch
