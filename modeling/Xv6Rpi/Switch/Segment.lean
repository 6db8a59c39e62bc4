/-
# Switch.Segment -- what a thread finds when its code has run

Code that enters and leaves sections `n` times more often than not (`Weighs weight c n`) ends
with `ncli` increased by `n`, and with the interrupt state it started with, whatever happens in
between: interrupts, and switches to other processes in `sched`.

The interrupt state that belongs to a thread (`Cpu.level`) is the flag itself outside of
sections, and `intena` inside.  `Seg` computes what `ncli` and the level come to at the end of
some frames; each step of the thread keeps the answer (`Within.here`), and steps of other
threads do not touch the frames (`Inv.away`).
-/
import Xv6Rpi.Switch.Inv

namespace Xv6Rpi.Switch

open Theory Theory.Flow Kernel Proc

set_option autoImplicit false

/-- What a primitive adds to `ncli`.  Code that turns interrupts on, that switches to a process or
that ends one is left out. -/
def weight : Prim → Int → Prop
  | .pushcli, n => n = 1
  | .popcli, n => n = -1
  | .sti, _ | .swtch, _ => False
  | .setSelf st, n => n = 0 ∧ st ≠ .zombie
  | .panic _, _ => True
  | _, n => n = 0

/-- As many sections are entered as are left. -/
abbrev Even (c : Code) : Prop := Balanced weight c

/-! ## The kernel's code -/

instance (msg : String) : Even (panic msg) := ⟨trivial⟩

instance sched_even : Even (.prim .sched) := ⟨rfl⟩

instance {lk : Lock} {b : Bool} : Even (.prim (.setLocked lk b)) := ⟨rfl⟩

theorem weighs_acquire (lk : Lock) : Weighs weight (acquire lk) 1 := ⟨1, 0, rfl, ⟨0, 0, rfl, rfl, rfl⟩, rfl⟩

theorem weighs_release (lk : Lock) : Weighs weight (release lk) (-1) :=
  ⟨0, -1, rfl, ⟨-1, 0, rfl, rfl, rfl⟩, rfl⟩

instance locked_even {lk : Lock} {l : List Code} [inside : Even (block l)] : Even (locked lk l) :=
  ⟨1, -1, weighs_acquire lk,
    ⟨0, -1, inside.weighs, ⟨-1, 0, weighs_release lk, rfl, rfl⟩, rfl⟩, rfl⟩

instance : Even wakeup1 := ⟨rfl⟩
instance : Even wakeup := by unfold wakeup; infer_instance

/-- The lock is exchanged for `ptable.lock`, and back. -/
instance sleep_even {lk : Lock} : Even (sleep lk) := by
  have exchange : ∀ a b, Even (.block [acquire a, release b]) := fun a b =>
    ⟨1, -1, weighs_acquire a, ⟨-1, 0, weighs_release b, rfl, rfl⟩, rfl⟩
  have back : ∀ a b, Even (.block [release a, acquire b]) := fun a b =>
    ⟨-1, 1, weighs_release a, ⟨1, 0, weighs_acquire b, rfl, rfl⟩, rfl⟩
  have needs : Even (.prim .needProc) := ⟨rfl⟩
  have sleeps : Even (.prim (.setSelf .sleeping)) := ⟨rfl, by simp⟩
  have before : Even (if lk = .ptable then .skip else .block [acquire .ptable, release lk]) := by
    split <;> infer_instance
  have after : Even (if lk = .ptable then .skip else .block [release .ptable, acquire lk]) := by
    split <;> infer_instance
  unfold sleep
  infer_instance

/-- Every way through an interrupt handler is even. -/
instance irqHandler_even : Even irqHandler := by
  unfold irqHandler
  infer_instance

instance bget_even : Even bget := by
  have sleeps : Even (.loop (sleep .bcache)) := inferInstance
  exact ⟨1, -1, weighs_acquire _, ⟨0, -1, sleeps.weighs,
    ⟨-1, 0, ⟨weighs_release _, trivial⟩, rfl, rfl⟩, rfl⟩, rfl⟩

instance : Even bread := by unfold bread; infer_instance
instance : Even installTrans := by unfold installTrans; infer_instance

instance : Even initlog := by
  unfold initlog initlock
  infer_instance

/-- `forkret` leaves the section that the scheduler has entered. -/
theorem weighs_forkret : Weighs weight forkret (-1) := by
  have log : Even (.choice (.block [.prim .ifFirst, initlog]) (.prim .unlessFirst)) := by
    have first : Even (.prim .ifFirst) := ⟨rfl⟩
    have notFirst : Even (.prim .unlessFirst) := ⟨rfl⟩
    infer_instance
  exact ⟨-1, 0, weighs_release _, ⟨0, 0, log.weighs, rfl, rfl⟩, rfl⟩

/-! ## Frames -/

/-- With this `ncli` and level, the frames end with those. -/
def Seg (ncli' : Int) (level' : Bool) : List Frame → Int → Bool → Prop
  | [], ncli, level => ncli = ncli' ∧ level = level'
  | .code c :: l, ncli, level => ∃ n, Weighs weight c n ∧ Seg ncli' level' l (ncli + n) level
  | .pushed _ :: l, ncli, level => Seg ncli' level' l (ncli + 1) level
  | .resumed intena :: l, ncli, _ => Seg ncli' level' l ncli intena
  | .trapret _ spsr :: l, ncli, _ => Seg ncli' level' l ncli spsr
  | .user :: _, _, _ => False

variable {ncli' : Int} {level' : Bool}

theorem seg_enter {c : Code} {l : List Frame} {ncli n : Int} {level : Bool} (weighs : Weighs weight c n)
    (rest : Seg ncli' level' l (ncli + n) level) : Seg ncli' level' (enter c l) ncli level := by
  induction c generalizing l ncli n with
  | skip =>
    cases weighs
    rwa [add_zero] at rest
  | seq a b iha ihb =>
    obtain ⟨m, k, first, second, rfl⟩ := weighs
    refine iha first (ihb second ?_)
    rwa [add_assoc]
  | _ => exact ⟨n, weighs, rest⟩

theorem enter_append (c : Code) (l k : List Frame) : enter c (l ++ k) = enter c l ++ k := by
  induction c generalizing l with
  | skip => rfl
  | seq a b iha ihb => rw [enter, ihb, iha, enter]
  | _ => rfl

/-- The interrupt state of the current thread. -/
def Cpu.level (c : Cpu) : Bool := if c.ncli = 0 then c.ints else c.intena

variable {P : Pid → Prop} {c c' : Cpu} {s : View} {op : Op} {seen : List Obs}

theorem Inv.level (inv : Inv P c s) : c.level = s.base := by
  rw [Cpu.level, inv.sees.depth]
  by_cases outside : s.depth = 0
  · rw [if_pos (by omega), inv.sees.ints]
    simp [outside]
  · rw [if_neg (by omega)]
    exact inv.sees.intena (by omega)

theorem alive_ite {cond : Prop} [Decidable cond] {st : Procstate} (alive : Alive st) :
    Alive (if cond then .runnable else st) := by
  split
  · exact .inl rfl
  · exact alive

/-! ## Steps of other threads -/

section Away

variable {k : List Frame} {p : Pid}

/-- A process that is not current keeps its frames, and finds `ncli` at one when it is. -/
structure Untouched (p : Pid) (c c' : Cpu) : Prop where
  stack : c'.stack (some p) = c.stack (some p)
  alive : Alive (c'.state p)
  back : c'.cur = some p → c'.ncli = 1

def Leaves (p : Pid) (c : Cpu) (r : Option (Cpu × List Obs)) : Prop :=
  ∀ c' seen, r = some (c', seen) → Untouched p c c'

theorem Leaves.of_untouched (untouched : Untouched p c c') : Leaves p c (some (c', seen)) := by
  intro c'' seen' same
  cases same
  exact untouched

theorem Leaves.none : Leaves p c none := by
  intro c' seen impossible
  cases impossible

theorem Leaves.ite {cond : Prop} [Decidable cond] {a b : Option (Cpu × List Obs)}
    (yes : cond → Leaves p c a) (no : ¬ cond → Leaves p c b) : Leaves p c (if cond then a else b) := by
  split
  · exact yes ‹_›
  · exact no ‹_›

variable (elsewhere : c.cur ≠ some p) (alive : Alive (c.state p))
include elsewhere alive

theorem Leaves.panic (site : Site) (msg : String) : Leaves p c (c.panic site msg) :=
  .of_untouched ⟨rfl, alive, fun here => absurd here elsewhere⟩

theorem Leaves.goto {ncli : Int} {ints intena first : Bool} {locked : Lock → Bool}
    {proc : Option Pid} {scan : Nat} :
    Leaves p c (some ({ c.goto k with
      ncli := ncli, ints := ints, intena := intena, locked := locked, proc := proc, scan := scan,
      first := first }, seen)) :=
  .of_untouched ⟨c.goto_away k elsewhere.symm, alive, fun here => absurd here elsewhere⟩

omit alive in
/-- The state of another process changes. -/
theorem Leaves.state {state : Pid → Procstate} (still : Alive (state p)) :
    Leaves p c (some ({ c.goto k with state := state }, seen)) :=
  .of_untouched ⟨c.goto_away k elsewhere.symm, still, fun here => absurd here elsewhere⟩

omit elsewhere in
theorem Inv.slot_ne {x : Slot} (inv : Inv P c s) (member : s.slot = some x) : p ≠ x.pid := by
  rintro rfl
  have state := (inv.sees.slot x member).state
  rw [state] at alive
  cases x <;> rcases alive with impossible | impossible | impossible <;> cases impossible

theorem Inv.prim_leaves {q : Prim} (inv : Inv P c s) (top : c.stack c.cur = .code (.prim q) :: k) :
    Leaves p c (c.prim op k q) := by
  have runs := inv.runs
  rw [top] at runs
  have slotState : ∀ {x : Slot} {st : Procstate}, s.slot = some x →
      Leaves p c (some ({ c.goto k with state := upd c.state x.pid st }, [])) := fun member =>
    .state elsewhere (by rwa [upd_ne _ _ (inv.slot_ne alive member)])
  cases q with
  | popcli =>
    refine .ite (fun _ => .panic elsewhere alive _ _) fun _ => ?_
    exact .ite (fun _ => .panic elsewhere alive _ _) fun _ => .goto elsewhere alive
  | sched =>
    simp only [Cpu.prim]
    split
    · exact .panic elsewhere alive _ _
    · refine .ite (fun _ => .panic elsewhere alive _ _) fun _ => ?_
      refine .ite (fun _ => .panic elsewhere alive _ _) fun _ => ?_
      refine .ite (fun _ => .panic elsewhere alive _ _) fun _ => ?_
      refine .ite (fun _ => .panic elsewhere alive _ _) fun _ => ?_
      refine .of_untouched ⟨c.goto_away _ elsewhere.symm, alive, fun here => ?_⟩
      cases here
  | needProc => exact .ite (fun _ => .panic elsewhere alive _ _) fun _ => .goto elsewhere alive
  | setSelf st =>
    obtain ⟨-, was, -⟩ := runs
    simp only [Cpu.prim]
    split
    · exact .panic elsewhere alive _ _
    · rename_i q proc
      refine .state elsewhere ?_
      by_cases same : p = q
      · subst same
        rw [upd_same]
        split at was
        · rename_i running
          exact .inr (.inr running)
        · -- the process would be current
          obtain ⟨r, current, isProc⟩ := inv.cur_some was.2.1
          rw [proc] at isProc
          exact absurd (current.trans isProc.symm) elsewhere
      · rwa [upd_ne _ _ same]
  | wake =>
    exact .state elsewhere (alive_ite alive)
  | find q st => exact .ite (fun _ => .goto elsewhere alive) fun _ => .none
  | full => exact .ite (fun _ => .goto elsewhere alive) fun _ => .none
  | setState q st =>
    cases st with
    | unused =>
      obtain ⟨embryo | ready | zombie, -⟩ := runs
      · exact slotState embryo
      · exact slotState ready
      · exact slotState zombie
    | embryo => exact slotState runs.1
    | runnable => exact slotState runs.1
    | _ => exact runs.elim
  | context q =>
    have ne : some p ≠ some q := fun same => inv.slot_ne alive runs.1 (Option.some.inj same)
    have fresh : ∀ spsr, Leaves p c
        (some ({ c.goto k with stack := upd (c.goto k).stack (some q) (Cpu.fresh spsr) }, [])) := by
      intro spsr
      refine .of_untouched ⟨?_, alive, fun here => absurd here elsewhere⟩
      exact (upd_ne _ _ ne).trans (c.goto_away k elsewhere.symm)
    exact .ite (fun _ => fresh false) fun _ => .ite (fun _ => fresh true) fun _ => .none
  | choose =>
    cases op with
    | pick q => exact .ite (fun _ => .goto elsewhere alive) fun _ => .none
    | _ => exact .none
  | scanned => exact .ite (fun _ => .goto elsewhere alive) fun _ => .none
  | swtch =>
    obtain ⟨one, -⟩ := runs
    simp only [Cpu.prim]
    split
    · exact .panic elsewhere alive _ _
    · refine .of_untouched ⟨c.goto_away _ elsewhere.symm, alive, fun _ => ?_⟩
      exact inv.sees.depth.trans (by rw [one]; rfl)
  | ifFirst => exact .ite (fun _ => .goto elsewhere alive) fun _ => .none
  | unlessFirst => exact .ite (fun _ => .none) fun _ => .goto elsewhere alive
  | panic msg => exact .panic elsewhere alive _ _
  | pushcli => exact .goto elsewhere alive
  | setLocked lk b => exact .goto elsewhere alive
  | sti => exact .goto elsewhere alive
  | rewind => exact .goto elsewhere alive
  | clearProc => exact .goto elsewhere alive

/-- **Steps of other threads** leave a process alone. -/
theorem Inv.away (inv : Inv P c s) : Leaves p c (c.step op) := by
  refine .ite (fun _ => .none) fun _ => .ite (fun _ => ?_) fun _ => ?_
  · exact .ite (fun _ => .goto elsewhere alive) fun _ => .none
  · cases top : c.stack c.cur with
    | nil => exact .none
    | cons f k =>
      cases f with
      | code a =>
        cases a with
        | prim q => exact inv.prim_leaves elsewhere alive top
        | skip => exact .goto elsewhere alive
        | seq a b => exact .goto elsewhere alive
        | choice a b =>
          refine .ite (fun _ => .goto elsewhere alive) fun _ => ?_
          exact .ite (fun _ => .goto elsewhere alive) fun _ => .none
        | loop body =>
          refine .ite (fun _ => .goto elsewhere alive) fun _ => ?_
          exact .ite (fun _ => .goto elsewhere alive) fun _ => .none
        | forever body => exact .goto elsewhere alive
        | any f =>
          cases op with
          | pick q => exact .goto elsewhere alive
          | _ => exact .none
      | pushed enabled => exact .goto elsewhere alive
      | resumed intena => exact .goto elsewhere alive
      | trapret origin spsr => exact .goto elsewhere alive
      | user => exact .ite (fun _ => .goto elsewhere alive) fun _ => .none

end Away

/-! ## Steps of the thread -/

/-- The thread `t` is in frames above `k`, and will come back to `k` with this `ncli` and level. -/
structure Within (ncli' : Int) (level' : Bool) (t : Option Pid) (k : List Frame) (c : Cpu) : Prop where
  living : ∀ p, t = some p → Alive (c.state p)
  frames : ∃ l, c.stack t = l ++ k ∧ (c.cur = t → Seg ncli' level' l c.ncli c.level) ∧
    (c.cur ≠ t → t ≠ none ∧ ∀ intena, Seg ncli' level' l 1 intena)

section Here

variable {k : List Frame}

/-- A step has been taken, and the thread is still on its way. -/
def Goes (ncli' : Int) (level' : Bool) (t : Option Pid) (k : List Frame)
    (r : Option (Cpu × List Obs)) : Prop :=
  ∀ c' seen, r = some (c', seen) → Within ncli' level' t k c'

theorem Goes.of_within {t : Option Pid} (within : Within ncli' level' t k c) :
    Goes ncli' level' t k (some (c, seen)) := by
  intro c' seen' same
  cases same
  exact within

theorem Goes.none {t : Option Pid} : Goes ncli' level' t k none := by
  intro c' seen impossible
  cases impossible

theorem Goes.ite {t : Option Pid} {cond : Prop} [Decidable cond] {a b : Option (Cpu × List Obs)}
    (yes : cond → Goes ncli' level' t k a) (no : ¬ cond → Goes ncli' level' t k b) :
    Goes ncli' level' t k (if cond then a else b) := by
  split
  · exact yes ‹_›
  · exact no ‹_›

theorem Goes.panic (within : Within ncli' level' c.cur k c) (site : Site) (msg : String) :
    Goes ncli' level' c.cur k (c.panic site msg) :=
  .of_within ⟨within.living, within.frames⟩

/-- The thread goes on with `l`. -/
theorem Goes.goto {l : List Frame} {ncli : Int} {ints intena first : Bool} {locked : Lock → Bool}
    {proc : Option Pid} {state : Pid → Procstate} {scan : Nat}
    (living : ∀ p, c.cur = some p → Alive (state p))
    (seg : Seg ncli' level' l ncli (if ncli = 0 then ints else intena)) :
    Goes ncli' level' c.cur k (some ({ c.goto (l ++ k) with
      ncli := ncli, ints := ints, intena := intena, locked := locked, proc := proc, state := state,
      scan := scan, first := first }, seen)) :=
  .of_within ⟨living, l, c.goto_stack _, fun _ => seg, fun elsewhere => absurd rfl elsewhere⟩

variable {l : List Frame} (inv : Inv P c s) (living : ∀ p, c.cur = some p → Alive (c.state p))
include inv living

/-- **A primitive of the thread.** -/
theorem Inv.prim_goes {q : Prim} {n : Int} (top : c.stack c.cur = .code (.prim q) :: (l ++ k))
    (weighs : weight q n) (seg : Seg ncli' level' l (c.ncli + n) c.level) :
    Goes ncli' level' c.cur k (c.prim op (l ++ k) q) := by
  have runs := inv.runs
  rw [top] at runs
  have within : Within ncli' level' c.cur k c :=
    ⟨living, .code (.prim q) :: l, top, fun _ => ⟨n, weighs, seg⟩, fun elsewhere => absurd rfl elsewhere⟩
  have slotState : ∀ {x : Slot} {st : Procstate}, n = 0 → s.slot = some x →
      Goes ncli' level' c.cur k (some ({ c.goto (l ++ k) with state := upd c.state x.pid st }, [])) := by
    intro x st zero member
    subst zero
    rw [add_zero] at seg
    refine .goto (fun p current => ?_) seg
    have alive := living p current
    rwa [upd_ne _ _ (inv.slot_ne alive member)]
  have quiet : n = 0 → ∀ {locked : Lock → Bool} {proc : Option Pid} {scan : Nat} {first : Bool},
      Goes ncli' level' c.cur k (some ({ c.goto (l ++ k) with
        locked := locked, proc := proc, scan := scan, first := first }, [])) := by
    intro zero locked proc scan first
    subst zero
    rw [add_zero] at seg
    exact .goto living seg
  cases q with
  | pushcli =>
    cases weighs
    exact .goto (l := .pushed c.ints :: l) living seg
  | popcli =>
    cases weighs
    obtain ⟨inside, -⟩ := runs
    have ncli := inv.sees.depth
    refine .ite (fun _ => .panic within _ _) fun off => .ite (fun _ => .panic within _ _) fun _ => ?_
    have isOff : c.ints = false := by simpa using off
    have same : (if c.ncli - 1 = 0 then
        (if c.ncli - 1 = 0 ∧ c.intena = true then true else c.ints) else c.intena) = c.intena := by
      split
      · cases c.intena <;> simp_all
      · rfl
    rw [Cpu.level, if_neg (by omega), ← same] at seg
    exact .goto living seg
  | setLocked lk b => exact quiet weighs
  | sti => exact weighs.elim
  | sched =>
    cases weighs
    obtain ⟨one, -, -, own, -, -⟩ := runs
    obtain ⟨p, current, proc⟩ := inv.cur_some own
    have ncli : c.ncli = 1 := inv.sees.depth.trans (by rw [one]; rfl)
    simp only [Cpu.prim, proc]
    refine .ite (fun _ => .panic within _ _) fun _ => .ite (fun _ => .panic within _ _) fun _ => ?_
    refine .ite (fun _ => .panic within _ _) fun _ => .ite (fun _ => .panic within _ _) fun _ => ?_
    refine .of_within ⟨living, .resumed c.intena :: l, c.goto_stack _, fun here => ?_, fun _ => ?_⟩
    · rw [current] at here
      cases here
    · refine ⟨by simp [current], fun intena => ?_⟩
      rw [Cpu.level, ncli, if_neg (by decide)] at seg
      exact seg
  | needProc => exact .ite (fun _ => .panic within _ _) fun _ => quiet weighs
  | setSelf st =>
    obtain ⟨rfl, notZombie⟩ := weighs
    obtain ⟨-, was, -⟩ := runs
    rw [add_zero] at seg
    simp only [Cpu.prim]
    split
    · exact .panic within _ _
    · rename_i p proc
      refine .goto (fun q current => ?_) seg
      have same : p = q := Option.some.inj (proc.symm.trans (inv.others.current q current))
      rw [same, upd_same]
      split at was
      · exact .inr (.inr ‹_›)
      · rcases was.2.2 with sleeping | runnable | zombie
        · exact .inr (.inl sleeping)
        · exact .inl runnable
        · exact absurd zombie notZombie
  | wake =>
    cases weighs
    rw [add_zero] at seg
    exact .goto (fun p current => alive_ite (living p current)) seg
  | find q st => exact .ite (fun _ => quiet weighs) fun _ => .none
  | full => exact .ite (fun _ => quiet weighs) fun _ => .none
  | setState q st =>
    cases st with
    | unused =>
      obtain ⟨embryo | ready | zombie, -⟩ := runs
      · exact slotState weighs embryo
      · exact slotState weighs ready
      · exact slotState weighs zombie
    | embryo => exact slotState weighs runs.1
    | runnable => exact slotState weighs runs.1
    | _ => exact runs.elim
  | context q =>
    cases weighs
    rw [add_zero] at seg
    have away : c.cur ≠ some q := inv.slot_away runs.1
    have fresh : ∀ spsr, Goes ncli' level' c.cur k
        (some ({ c.goto (l ++ k) with stack := upd (c.goto (l ++ k)).stack (some q) (Cpu.fresh spsr) }, [])) := by
      intro spsr
      refine .of_within ⟨living, l, ?_, fun _ => seg, fun elsewhere => absurd rfl elsewhere⟩
      exact (upd_ne _ _ away).trans (c.goto_stack _)
    exact .ite (fun _ => fresh false) fun _ => .ite (fun _ => fresh true) fun _ => .none
  | rewind => exact quiet weighs
  | choose =>
    cases op with
    | pick q => exact .ite (fun _ => quiet weighs) fun _ => .none
    | _ => exact .none
  | scanned => exact .ite (fun _ => quiet weighs) fun _ => .none
  | swtch => exact weighs.elim
  | clearProc => exact quiet weighs
  | ifFirst => exact .ite (fun _ => quiet weighs) fun _ => .none
  | unlessFirst => exact .ite (fun _ => .none) fun _ => quiet weighs
  | panic msg => exact .panic within _ _

/-- **A frame of the thread.** -/
theorem Inv.frame_goes {f : Frame} (top : c.stack c.cur = f :: (l ++ k))
    (seg : Seg ncli' level' (f :: l) c.ncli c.level) : Goes ncli' level' c.cur k (c.frame op (l ++ k) f) := by
  have runs := inv.runs
  rw [top] at runs
  have enters : ∀ {a : Code} {n : Int} (l' : List Frame), Weighs weight a n →
      Seg ncli' level' l' (c.ncli + n) c.level →
      Goes ncli' level' c.cur k (some (c.goto (enter a (l' ++ k)), [])) := by
    intro a n l' weighs rest
    rw [enter_append]
    exact .goto living (seg_enter weighs rest)
  cases f with
  | code a =>
    obtain ⟨n, weighs, rest⟩ := seg
    cases a with
    | prim q => exact inv.prim_goes living top weighs rest
    | skip =>
      cases weighs
      rw [add_zero] at rest
      exact .goto living rest
    | seq a b => exact enters (a := .seq a b) l weighs rest
    | choice a b =>
      refine .ite (fun _ => enters l weighs.1 rest) fun _ => ?_
      exact .ite (fun _ => enters l weighs.2 rest) fun _ => .none
    | loop body =>
      obtain ⟨rfl, even⟩ := weighs
      refine .ite (fun _ => ?_) fun _ => .ite (fun _ => ?_) fun _ => .none
      · rw [add_zero] at rest
        exact .goto living rest
      · refine enters (.code (.loop body) :: l) even ⟨0, ⟨rfl, even⟩, ?_⟩
        rwa [add_zero]
    | forever body =>
      refine enters (.code (.forever body) :: l) weighs ⟨n, weighs, ?_⟩
      rwa [add_zero]
    | any f =>
      cases op with
      | pick q => exact enters l (weighs q) rest
      | _ => exact .none
  | pushed enabled =>
    obtain ⟨same, -⟩ := runs
    refine .goto living ?_
    have deeper : c.ncli + 1 ≠ 0 := by
      have := inv.sees.depth
      omega
    rw [if_neg deeper, same, ← inv.sees.ints]
    exact seg
  | resumed intena =>
    obtain ⟨inside, -⟩ := runs
    have ncli : c.ncli ≠ 0 := by
      have := inv.sees.depth
      omega
    refine .goto living ?_
    show Seg ncli' level' l c.ncli (if c.ncli = 0 then c.ints else intena)
    rw [if_neg ncli]
    exact seg
  | trapret origin spsr =>
    obtain ⟨outside, -⟩ := runs
    have ncli : c.ncli = 0 := by rw [inv.sees.depth, outside]; rfl
    refine .goto living ?_
    show Seg ncli' level' l c.ncli (if c.ncli = 0 then spsr else c.intena)
    rw [if_pos ncli]
    exact seg
  | user => exact seg.elim

end Here

/-- **Any step**, as long as the thread has not come back to `k`. -/
theorem Within.step {t : Option Pid} {k : List Frame} (within : Within ncli' level' t k c)
    (inv : Inv P c s) (longer : k.length < (c.stack t).length) :
    Goes ncli' level' t k (c.step op) := by
  obtain ⟨living, l, stack, here, elsewhere⟩ := within
  by_cases current : c.cur = t
  · subst current
    have seg := here rfl
    refine .ite (fun _ => .none) fun _ => .ite (fun _ => .ite (fun on => ?_) fun _ => .none) fun _ => ?_
    · -- an interrupt: the handler is even, and `trapret` puts the level back
      obtain ⟨outside, base⟩ := inv.outside_of_on on
      have level : c.level = true := inv.level.trans base
      have ncli : c.ncli = 0 := by rw [inv.sees.depth, outside]; rfl
      rw [stack, ← List.cons_append, enter_append]
      refine .goto living (seg_enter irqHandler_even.weighs ?_)
      rw [level] at seg
      rw [add_zero, on]
      exact seg
    · cases l with
      | nil => simp [stack] at longer
      | cons f l =>
        rw [stack]
        exact inv.frame_goes living stack seg
  · obtain ⟨isProcess, suspended⟩ := elsewhere current
    obtain ⟨p, rfl⟩ := Option.ne_none_iff_exists'.1 isProcess
    intro c' seen stepped
    have untouched := inv.away current (living p rfl) c' seen stepped
    refine ⟨?_, l, untouched.stack.trans stack, fun back => ?_, fun _ => ⟨isProcess, suspended⟩⟩
    · intro q same
      cases same
      exact untouched.alive
    · rw [untouched.back back]
      exact suspended _

/-- **Whole runs**: when the thread is back at `k`, it is current and has the `ncli` and the level
that were promised. -/
theorem Within.run {t : Option Pid} {k : List Frame} {ops : List Op}
    (within : Within ncli' level' t k c) (inv : ∃ s, Inv (fun _ => False) c s)
    (meets : Machine.Meets Cpu.step (fun d _ => k.length < (d.stack t).length) c ops)
    (ran : Machine.run Cpu.step c ops = some (c', seen)) (back : (c'.stack t).length = k.length) :
    (∃ s, Inv (fun _ => False) c' s) ∧ c'.ncli = ncli' ∧ c'.level = level' := by
  have atEnd := Machine.run_keeps_where
    (I := fun _ d => Within ncli' level' t k d ∧ ∃ s, Inv (fun _ => False) d s)
    (fun _ d op d' more holds longer stepped => by
      obtain ⟨within, s, inv⟩ := holds
      refine ⟨within.step inv longer d' more stepped, ?_⟩
      exact (inv.step (fun _ impossible => impossible.elim) d' more stepped).1)
    ops [] c c' seen ⟨within, inv⟩ meets ran
  obtain ⟨⟨-, l, stack, here, elsewhere⟩, inv'⟩ := atEnd
  have empty : l = [] := by
    rw [stack, List.length_append] at back
    exact List.length_eq_zero_iff.1 (by omega)
  subst empty
  by_cases current : c'.cur = t
  · exact ⟨inv', here current⟩
  · -- a suspended thread cannot be at `k` with every `intena` at once
    have both := (elsewhere current).2
    have impossible := (both true).2.trans (both false).2.symm
    cases impossible

end Xv6Rpi.Switch
