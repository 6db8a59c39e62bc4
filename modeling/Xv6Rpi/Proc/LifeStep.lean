/-
# Proc.LifeStep -- what a step of the processes can do

A step runs through a few of six effects: nothing but scheduling happens (`Calm`), a user
instruction, a fork that succeeds or fails, a mark set by `kill`, an exit, a zombie that
`wait` takes away.  `Procs.step_effects` says so, and an invariant of the processes is
then a matter of one lemma per effect (`Effects.keeps`).
-/
import Mathlib.Order.Fin.Basic
import Xv6Rpi.Proc.Life

namespace Xv6Rpi.Proc

open Theory Kernel

set_option autoImplicit false

/-! ## Waking up -/

/-- Some sleepers were woken, and parents may have changed. -/
structure Stirred (t t' : Ptable) : Prop where
  pid : ∀ q, (t' q).pid = (t q).pid
  killed : ∀ q, (t' q).killed = (t q).killed
  chan : ∀ q, (t' q).chan = (t q).chan
  state : ∀ q, (t' q).state = (t q).state ∨ ((t q).state = .sleeping ∧ (t' q).state = .runnable)

namespace Stirred

variable {t t' t'' : Ptable} {p q : Pid} {chan : Chan}

theorem refl (t : Ptable) : Stirred t t :=
  ⟨fun _ => rfl, fun _ => rfl, fun _ => rfl, fun _ => .inl rfl⟩

theorem trans (first : Stirred t t') (second : Stirred t' t'') : Stirred t t'' := by
  refine ⟨fun q => (second.pid q).trans (first.pid q), fun q => (second.killed q).trans (first.killed q),
    fun q => (second.chan q).trans (first.chan q), ?_⟩
  intro q
  rcases second.state q with same | ⟨slept, woken⟩
  · rw [same]
    exact first.state q
  · rcases first.state q with before | ⟨_, awake⟩
    · exact .inr ⟨before ▸ slept, woken⟩
    · rw [awake] at slept
      cases slept

theorem wakeup1 (t : Ptable) (chan : Chan) : Stirred t (t.wakeup1 chan) := by
  refine ⟨?_, ?_, ?_, ?_⟩ <;> intro q <;> unfold Ptable.wakeup1 <;> split
  case refine_4.isTrue asleep => exact .inr ⟨asleep.1, rfl⟩
  case refine_4.isFalse => exact .inl rfl
  all_goals rfl

/-- A change of parent is allowed. -/
theorem adopt (t : Ptable) (q : Pid) (parent : Option Pid) :
    Stirred t (upd t q { t q with parent := parent }) := by
  have entry : ∀ r, upd t q { t q with parent := parent } r = t r ∨
      upd t q { t q with parent := parent } r = { t r with parent := parent } := by
    intro r
    by_cases same : r = q
    · subst same
      exact .inr (upd_same _ _ _)
    · exact .inl (upd_ne _ _ same)
  refine ⟨?_, ?_, ?_, ?_⟩ <;> intro r <;> rcases entry r with same | same <;> simp [same]

/-- Who sleeps afterwards slept before. -/
theorem asleep (stirred : Stirred t t') (still : t'.Asleep q chan) : t.Asleep q chan := by
  obtain ⟨state, onChan⟩ := still
  refine ⟨?_, stirred.chan q ▸ onChan⟩
  rcases stirred.state q with same | ⟨slept, _⟩
  · exact same ▸ state
  · exact slept

theorem state_of_awake {st : Procstate} (stirred : Stirred t t') (is : (t q).state = st)
    (awake : st ≠ .sleeping) : (t' q).state = st := by
  rcases stirred.state q with same | ⟨slept, _⟩
  · exact same.trans is
  · exact absurd (is.symm.trans slept) awake

/-- States other than sleeping and runnable are neither entered nor left. -/
theorem state_iff {st : Procstate} (stirred : Stirred t t') (notSleeping : st ≠ .sleeping)
    (notRunnable : st ≠ .runnable) : (t' q).state = st ↔ (t q).state = st := by
  constructor
  · intro now
    rcases stirred.state q with same | ⟨_, woken⟩
    · exact same ▸ now
    · exact absurd (now.symm.trans woken) notRunnable
  · exact fun before => stirred.state_of_awake before notSleeping

end Stirred

namespace Ptable

variable {t : Ptable} {p q : Pid}

@[simp] theorem parent_wakeup1 (chan : Chan) : (t.wakeup1 chan q).parent = (t q).parent := by
  unfold wakeup1
  split <;> rfl

theorem stirred_wakeups (chans : List Chan) : Stirred t (t.wakeups chans) := by
  induction chans generalizing t with
  | nil => exact .refl t
  | cons chan rest ih => exact (Stirred.wakeup1 t chan).trans ih

theorem parent_wakeups (chans : List Chan) : (t.wakeups chans q).parent = (t q).parent := by
  induction chans generalizing t with
  | nil => rfl
  | cons chan rest ih =>
    show (wakeups (t.wakeup1 chan) rest q).parent = _
    rw [ih, parent_wakeup1]

/-! ## exit -/

theorem stirred_abandon (t : Ptable) (p q : Pid) : Stirred t (abandon p t q) := by
  unfold abandon
  split
  · split
    · exact (Stirred.adopt t q _).trans (.wakeup1 _ _)
    · exact .adopt t q _
  · exact .refl t

theorem parent_abandon (t : Ptable) (p q r : Pid) :
    (abandon p t q r).parent =
      if r = q ∧ (t r).parent = some p then some INITPROC else (t r).parent := by
  unfold abandon
  by_cases same : r = q
  · subst same
    by_cases child : (t r).parent = some p
    · by_cases dead : (t r).state = .zombie <;> simp [child, dead]
    · simp [child]
  · by_cases child : (t q).parent = some p
    · by_cases dead : (t q).state = .zombie <;> simp [child, dead, same]
    · simp [child, same]

/-- The loop of `exit` over the slots of `l`: children pass to init, and init does not
sleep on when one of them is dead. -/
theorem abandon_all (notInit : p ≠ INITPROC) (l : List Pid) (t : Ptable) :
    Stirred t (l.foldl (abandon p) t) ∧
    (∀ r, (l.foldl (abandon p) t r).parent =
      if r ∈ l ∧ (t r).parent = some p then some INITPROC else (t r).parent) ∧
    ∀ z ∈ l, (t z).parent = some p → (t z).state = .zombie →
      ∀ r, ¬ Asleep (l.foldl (abandon p) t) r (.proc INITPROC) := by
  induction l generalizing t with
  | nil => exact ⟨.refl t, fun r => by simp, fun z none => by cases none⟩
  | cons q l ih =>
    obtain ⟨stirred, parents, awake⟩ := ih (abandon p t q)
    have here := stirred_abandon t p q
    refine ⟨here.trans stirred, ?_, ?_⟩
    · intro r
      rw [List.foldl_cons, parents r, parent_abandon]
      by_cases child : (t r).parent = some p
      · by_cases same : r = q
        · subst same
          simp [child, notInit.symm]
        · simp [same, child]
      · simp [child]
    · intro z isIn child dead r asleep
      rw [List.foldl_cons] at asleep
      by_cases same : z = q
      · -- the wakeup of this very round; later rounds put nobody to sleep
        subst same
        have earlier := stirred.asleep asleep
        unfold abandon at earlier
        rw [if_pos child, if_pos dead] at earlier
        exact (asleep_wakeup1.1 earlier).2 rfl
      · have later : z ∈ l := (List.mem_cons.1 isIn).resolve_left same
        refine awake z later ?_ (here.state_of_awake dead (by decide)) r asleep
        rw [parent_abandon, if_neg (fun both => same both.1), child]

theorem stirred_wakeParent (t : Ptable) (p : Pid) : Stirred t (t.wakeParent p) := by
  unfold wakeParent
  split
  · exact .wakeup1 _ _
  · exact .refl t

theorem parent_wakeParent (t : Ptable) (p r : Pid) : (t.wakeParent p r).parent = (t r).parent := by
  unfold wakeParent
  cases (t p).parent with
  | some q => exact parent_wakeup1 _
  | none => rfl

/-- What `exit` of process `p` does to the table. -/
structure Exited (p : Pid) (t t' : Ptable) : Prop where
  pid : ∀ q, (t' q).pid = (t q).pid
  killed : ∀ q, (t' q).killed = (t q).killed
  parent : ∀ q, (t' q).parent = if (t q).parent = some p then some INITPROC else (t q).parent
  dead : (t' p).state = .zombie
  state : ∀ q, q ≠ p →
    (t' q).state = (t q).state ∨ ((t q).state = .sleeping ∧ (t' q).state = .runnable)
  chan : ∀ q, (t' q).chan = (t q).chan
  asleep : ∀ q chan, t'.Asleep q chan → q ≠ p ∧ t.Asleep q chan
  parentAwake : ∀ q r, (t p).parent = some r → ¬ t'.Asleep q (.proc r)
  initAwake : ∀ q z, (t z).parent = some p → (t z).state = .zombie → ¬ t'.Asleep q (.proc INITPROC)

theorem exit_spec (t : Ptable) (notInit : p ≠ INITPROC) : Exited p t (t.exit p) := by
  have waking := stirred_wakeParent t p
  obtain ⟨leaving, parents, awake⟩ := abandon_all notInit (List.finRange NPROC) (t.wakeParent p)
  have stirred := waking.trans leaving
  have off : ∀ q, q ≠ p →
      t.exit p q = (List.finRange NPROC).foldl (abandon p) (t.wakeParent p) q :=
    fun q apart => upd_ne _ _ apart
  have asleep : ∀ q chan, (t.exit p).Asleep q chan →
      q ≠ p ∧ Asleep ((List.finRange NPROC).foldl (abandon p) (t.wakeParent p)) q chan := by
    intro q chan sleeps
    have apart : q ≠ p := by
      rintro rfl
      have zombie : (t.exit q q).state = .zombie := by simp [exit]
      rw [sleeps.1] at zombie
      cases zombie
    unfold Asleep at sleeps
    rw [off q apart] at sleeps
    exact ⟨apart, sleeps⟩
  refine ⟨?_, ?_, ?_, by simp [exit], ?_, ?_, ?_, ?_, ?_⟩
  · intro q
    by_cases same : q = p
    · subst same
      simpa [exit] using stirred.pid q
    · rw [off q same, stirred.pid]
  · intro q
    by_cases same : q = p
    · subst same
      simpa [exit] using stirred.killed q
    · rw [off q same, stirred.killed]
  · intro q
    have moved := parents q
    simp only [List.mem_finRange, true_and, parent_wakeParent] at moved
    by_cases same : q = p
    · subst same
      simpa [exit] using moved
    · rw [off q same, moved]
  · intro q apart
    rw [off q apart]
    exact stirred.state q
  · intro q
    by_cases same : q = p
    · subst same
      simpa [exit] using stirred.chan q
    · rw [off q same, stirred.chan]
  · intro q chan sleeps
    exact ⟨(asleep q chan sleeps).1, stirred.asleep (asleep q chan sleeps).2⟩
  · intro q r isParent sleeps
    have earlier := leaving.asleep (asleep q _ sleeps).2
    unfold wakeParent at earlier
    rw [isParent] at earlier
    exact (asleep_wakeup1.1 earlier).2 rfl
  · intro q z child dead sleeps
    refine awake z (List.mem_finRange z) ?_ (waking.state_of_awake dead (by decide)) q
      (asleep q _ sleeps).2
    rw [parent_wakeParent, child]

end Ptable

/-! ## Effects -/

/-- Neither free, dead nor half made. -/
def Procstate.isAlive : Procstate → Bool
  | .sleeping | .runnable | .running => true
  | _ => false

/-- What does not show in the family tree. -/
def ProcObs.isQuiet : ProcObs → Bool
  | .returned _ | .waitFailed _ | .allocproc => true
  | _ => false

/-- Processes are scheduled, sleep and wake up, and enter and leave system calls.  Who
falls asleep in `wait` has no dead child. -/
structure Calm (s s' : Procs) : Prop where
  nextpid : s'.nextpid = s.nextpid
  born : s'.born = s.born
  pid : ∀ p, (s'.table p).pid = (s.table p).pid
  parent : ∀ p, (s'.table p).parent = (s.table p).parent
  killed : ∀ p, (s'.table p).killed = (s.table p).killed
  state : ∀ p, (s'.table p).state = (s.table p).state ∨
    ((s.table p).state.isAlive = true ∧ (s'.table p).state.isAlive = true)
  running : ∀ p, s'.cur = some p → (s'.table p).state = .running
  exiting : ∀ p, s.place p = .exiting → s'.place p = .exiting
  initStays : s'.place INITPROC = .exiting → s.place INITPROC = .exiting
  asleep : ∀ q, s'.table.Asleep q (.proc q) → s.table.Asleep q (.proc q) ∨
    ∀ z, (s.table z).parent = some q → (s.table z).state ≠ .zombie
  waits : ∀ q, s'.place q = .waiting → (s'.table q).state = .sleeping →
    (s.place q = .waiting ∧ (s.table q).state = .sleeping ∧ (s'.table q).chan = (s.table q).chan) ∨
      (s'.table q).chan = some (.proc q)

/-- One thing a step does; `hits` restricts the slots `kill` finds. -/
inductive Effect (hits : Procs → Pid → Prop) : Procs → Procs → List ProcObs → Prop where
  | calm {s s' : Procs} {obs : List ProcObs} (calm : Calm s s')
      (quiet : ∀ o ∈ obs, o.isQuiet = true) : Effect hits s s' obs
  | user {s : Procs} {p : Pid} (current : s.cur = some p) (place : s.place p = .user) :
      Effect hits s s [.user (s.born p)]
  | fork {s : Procs} {p np : Pid} (current : s.cur = some p)
      (free : (s.table np).state = .unused) :
      Effect hits s (s.child p np) [.allocproc, .forked (s.born p) s.nextpid]
  | forkFailed {s : Procs} {np : Pid} (free : (s.table np).state = .unused) :
      Effect hits s (s.stillborn np) [.allocproc]
  | strike {s : Procs} {q : Pid} (hit : hits s q) :
      Effect hits s (s.strike q).1 (s.strike q).2
  | die {s : Procs} {p : Pid} (current : s.cur = some p) (exiting : s.place p = .exiting) :
      Effect hits s (s.die p).1 [.exited (s.born p)]
  | reap {s : Procs} {p q : Pid} (current : s.cur = some p)
      (child : (s.table q).parent = some p) (dead : (s.table q).state = .zombie) :
      Effect hits s { s with table := s.table.reap q }
        [.reaped (s.born p) (s.born q) (s.table q).pid]

/-- Effects one after the other. -/
inductive Effects (hits : Procs → Pid → Prop) : Procs → Procs → List ProcObs → Prop where
  | none {s : Procs} : Effects hits s s []
  | more {s s' z : Procs} {first rest : List ProcObs} (effect : Effect hits s s' first)
      (effects : Effects hits s' z rest) : Effects hits s z (first ++ rest)

/-- The invariant rule for effects. -/
theorem Effects.keeps {hits : Procs → Pid → Prop} {I : List ProcObs → Procs → Prop}
    (keeps : ∀ seen s s' obs, I seen s → Effect hits s s' obs → I (seen ++ obs) s')
    {seen obs : List ProcObs} {s s' : Procs} (holds : I seen s) (effects : Effects hits s s' obs) :
    I (seen ++ obs) s' := by
  induction effects generalizing seen with
  | none => simpa using holds
  | more effect _ ih =>
    rw [← List.append_assoc]
    exact ih (keeps _ _ _ _ holds effect)

namespace Calm

variable {s : Procs} {p : Pid}

/-- The current process moves to another place. -/
theorem move {place : Place} (running : ∀ q, s.cur = some q → (s.table q).state = .running)
    (current : s.cur = some p) (stays : s.place p ≠ .exiting)
    (notInit : place = .exiting → p ≠ INITPROC) :
    Calm s { s with place := upd s.place p place } := by
  refine ⟨rfl, rfl, fun _ => rfl, fun _ => rfl, fun _ => rfl, fun _ => .inl rfl, running,
    ?_, ?_, fun _ asleep => .inl asleep, ?_⟩
  · intro q exiting
    have apart : q ≠ p := by
      rintro rfl
      exact stays exiting
    simpa [apart] using exiting
  · intro exiting
    by_cases same : INITPROC = p
    · subst same
      simp only [upd_same] at exiting
      exact absurd rfl (notInit exiting)
    · simpa [same] using exiting
  · intro q waits sleeps
    have apart : q ≠ p := by
      rintro rfl
      have runs := running q current
      rw [runs] at sleeps
      cases sleeps
    exact .inl ⟨by simpa [apart] using waits, sleeps, rfl⟩

theorem refl (running : ∀ q, s.cur = some q → (s.table q).state = .running) : Calm s s :=
  ⟨rfl, rfl, fun _ => rfl, fun _ => rfl, fun _ => rfl, fun _ => .inl rfl, running,
    fun _ same => same, fun same => same, fun _ asleep => .inl asleep,
    fun _ waits sleeps => .inl ⟨waits, sleeps, rfl⟩⟩

/-- Sleepers are woken up. -/
theorem stir {t : Ptable} (running : ∀ q, s.cur = some q → (s.table q).state = .running)
    (stirred : Stirred s.table t) (parent : ∀ q, (t q).parent = (s.table q).parent) :
    Calm s { s with table := t } := by
  refine ⟨rfl, rfl, stirred.pid, parent, stirred.killed, ?_, ?_, fun _ same => same,
    fun same => same, fun _ asleep => .inl (stirred.asleep asleep), ?_⟩
  · intro q
    rcases stirred.state q with same | ⟨slept, woken⟩
    · exact .inl same
    · exact .inr ⟨by rw [slept]; rfl, by rw [woken]; rfl⟩
  · intro q current
    exact stirred.state_of_awake (running q current) (by decide)
  · intro q waits sleeps
    rcases stirred.state q with same | ⟨_, woken⟩
    · exact .inl ⟨waits, same ▸ sleeps, stirred.chan q⟩
    · rw [woken] at sleeps
      cases sleeps

/-- The current process goes to sleep; in `wait`, without a dead child. -/
theorem sleep {chan : Chan} {place : Place} (runs : (s.table p).state = .running)
    (stays : s.place p = .exiting → place = .exiting)
    (notInit : place = .exiting → s.place p = .exiting)
    (inWait : place = .waiting → chan = .proc p)
    (childless : chan = .proc p → ∀ z, (s.table z).parent = some p → (s.table z).state ≠ .zombie) :
    Calm s { s with table := s.table.sleep p chan, cur := none, place := upd s.place p place } := by
  have entry : ∀ q, q ≠ p → s.table.sleep p chan q = s.table q := fun q apart => upd_ne _ _ apart
  have here : s.table.sleep p chan p = { s.table p with chan := some chan, state := .sleeping } :=
    upd_same _ _ _
  refine ⟨rfl, rfl, ?_, ?_, ?_, ?_, (fun _ nobody => by cases nobody), ?_, ?_, ?_, ?_⟩
  case refine_1 | refine_2 | refine_3 =>
    intro q
    by_cases same : q = p
    · subst same
      simp only [here]
    · simp only [entry q same]
  case refine_4 =>
    intro q
    by_cases same : q = p
    · subst same
      exact .inr ⟨by rw [runs]; rfl, by simp only [here]; rfl⟩
    · simp only [entry q same]
      exact .inl trivial
  case refine_5 =>
    intro q exiting
    by_cases same : q = p
    · subst same
      simpa using stays exiting
    · simpa [same] using exiting
  case refine_6 =>
    intro exiting
    by_cases same : INITPROC = p
    · subst same
      exact notInit (by simpa using exiting)
    · simpa [same] using exiting
  case refine_7 =>
    intro q asleep
    by_cases same : q = p
    · subst same
      have onChan : (.proc q : Chan) = chan := by
        simpa using Ptable.asleep_sleep.1 asleep
      exact .inr (childless onChan.symm)
    · exact .inl (by simpa [same] using Ptable.asleep_sleep.1 asleep)
  case refine_8 =>
    intro q waits sleeps
    by_cases same : q = p
    · subst same
      have isWait : place = .waiting := by simpa using waits
      right
      simp only [here]
      rw [inWait isWait]
    · simp only [entry q same] at sleeps ⊢
      exact .inl ⟨by simpa [same] using waits, sleeps, trivial⟩

/-- The scheduler picks a process. -/
theorem awaken (picked : (s.table p).state = .runnable) :
    Calm s { s with table := s.table.awaken p, cur := some p } := by
  have entry : ∀ q, q ≠ p → s.table.awaken p q = s.table q := fun q apart => upd_ne _ _ apart
  have here : s.table.awaken p p = { s.table p with chan := none, state := .running } :=
    upd_same _ _ _
  refine ⟨rfl, rfl, ?_, ?_, ?_, ?_, ?_, fun _ same => same, fun same => same, ?_, ?_⟩
  case refine_1 | refine_2 | refine_3 =>
    intro q
    by_cases same : q = p
    · subst same
      simp only [here]
    · simp only [entry q same]
  case refine_4 =>
    intro q
    by_cases same : q = p
    · subst same
      exact .inr ⟨by rw [picked]; rfl, by simp only [here]; rfl⟩
    · simp only [entry q same]
      exact .inl trivial
  case refine_5 =>
    intro q current
    obtain rfl := Option.some.inj current
    simp only [here]
  case refine_6 =>
    intro q asleep
    exact .inl (Ptable.asleep_awaken.1 asleep).2
  case refine_7 =>
    intro q waits sleeps
    have apart : q ≠ p := by
      rintro rfl
      simp only [here] at sleeps
      cases sleeps
    simp only [entry q apart] at sleeps ⊢
    exact .inl ⟨waits, sleeps, trivial⟩

end Calm

/-! ## The effects of a step -/

/-- Every slot that `kill` finds is one of those. -/
def ProcOp.Hits (hits : Procs → Pid → Prop) (s : Procs) (op : ProcOp) : Prop :=
  ∀ pid q, op = .kill pid → s.table.find pid = some q → hits s q

instance (hits : Procs → Pid → Prop) [∀ s q, Decidable (hits s q)] (s : Procs) (op : ProcOp) :
    Decidable (op.Hits hits s) :=
  match op with
  | .kill pid => decidable_of_iff (∀ q, s.table.find pid = some q → hits s q)
      ⟨fun all _ q same found => all q (by cases same; exact found), fun all q found => all pid q rfl found⟩
  | .schedule _ | .user | .irq _ | .fork .. | .wait | .exit | .enter | .wakeup _ | .sleep _ | .leave
  | .die => .isTrue fun _ _ same => by cases same

section Steps

variable {hits : Procs → Pid → Prop} {s s' : Procs} {p : Pid} {obs : List ProcObs}

theorem Effect.only (effect : Effect hits s s' obs) : Effects hits s s' obs := by
  simpa using Effects.more effect .none

theorem Effect.then (effect : Effect hits s s' obs) {z : Procs} {more : List ProcObs}
    (next : Effect hits s' z more) : Effects hits s z (obs ++ more) :=
  .more effect next.only

/-- The current process is RUNNING. -/
def Procs.Runs (s : Procs) : Prop := ∀ p, s.cur = some p → (s.table p).state = .running

/-- Returning to user mode. -/
theorem Procs.trapret_effect (runs : s.Runs) (current : s.cur = some p)
    (notExiting : s.place p ≠ .exiting) : Effect hits s (s.trapret p).1 (s.trapret p).2 := by
  refine .calm (Calm.move runs current notExiting (fun isExiting => by cases isExiting)) ?_
  intro o isIn
  rw [List.mem_singleton.1 isIn]
  rfl

theorem Ptable.unusedSlot_free {t : Ptable} {np : Pid} (found : t.unusedSlot = some np) :
    (t np).state = .unused := by
  simpa using List.find?_some found

theorem Ptable.zombieChild_some {t : Ptable} {q : Pid} (found : t.zombieChild p = some q) :
    (t q).parent = some p ∧ (t q).state = .zombie := by
  simpa using List.find?_some found

theorem Ptable.zombieChild_none {t : Ptable} (found : t.zombieChild p = none) (z : Pid)
    (child : (t z).parent = some p) : (t z).state ≠ .zombie := by
  have nobody := List.find?_eq_none.1 found z (List.mem_finRange z)
  simp only [decide_eq_true_eq, not_and] at nobody
  exact nobody child

theorem Procs.fork_effects (runs : s.Runs) (current : s.cur = some p) (stack pages : Bool) :
    Effects hits s (s.fork p stack pages).1 (s.fork p stack pages).2 := by
  have quiet : ∀ o ∈ [ProcObs.returned (s.born p)], o.isQuiet = true := by simp [ProcObs.isQuiet]
  unfold fork
  cases found : s.table.unusedSlot with
  | none =>
    refine Effect.only (.calm (Calm.refl runs) ?_)
    simp [ProcObs.isQuiet]
  | some np =>
    have free := Ptable.unusedSlot_free found
    have apart : ∀ q, s.cur = some q → q ≠ np := by
      rintro q isCur rfl
      rw [runs q isCur] at free
      cases free
    cases both : stack && pages with
    | true =>
      have after : (s.child p np).Runs := by
        intro q isCur
        simpa [child, apart q isCur] using runs q isCur
      exact (Effect.fork current free).then (.calm (Calm.refl after) quiet)
    | false =>
      have after : (s.stillborn np).Runs := by
        intro q isCur
        simpa [stillborn, apart q isCur] using runs q isCur
      exact (Effect.forkFailed free).then (.calm (Calm.refl after) quiet)

theorem Procs.kill_effects {pid : Int} (runs : s.Runs)
    (allowed : ∀ q, s.table.find pid = some q → hits s q) :
    Effects hits s (s.kill p pid).1 (s.kill p pid).2 := by
  have quiet : ∀ o ∈ [ProcObs.returned (s.born p)], o.isQuiet = true := by simp [ProcObs.isQuiet]
  unfold kill
  cases found : s.table.find pid with
  | none => exact Effect.only (.calm (Calm.refl runs) quiet)
  | some q =>
    have after : (s.strike q).1.Runs := by
      intro r isCur
      have running := runs r isCur
      by_cases same : r = q
      · subst same
        simp [strike, Ptable.strike, running]
      · simpa [strike, same] using running
    exact (Effect.strike (allowed q found)).then (.calm (Calm.refl after) quiet)

theorem Procs.wait_effects (runs : s.Runs) (current : s.cur = some p)
    (notExiting : s.place p ≠ .exiting) : Effects hits s (s.wait p).1 (s.wait p).2 := by
  unfold wait
  cases found : s.table.zombieChild p with
  | some q =>
    obtain ⟨child, dead⟩ := Ptable.zombieChild_some found
    have after : Procs.Runs { s with table := s.table.reap q } := by
      intro r isCur
      have running := runs r isCur
      have apart : r ≠ q := by
        rintro rfl
        rw [running] at dead
        cases dead
      simpa [Ptable.reap, apart] using running
    exact (Effect.reap current child dead).then (trapret_effect after current notExiting)
  | none =>
    dsimp only
    split
    case isTrue =>
      have failed : Effect hits s s [.waitFailed (s.born p)] :=
        .calm (Calm.refl runs) (by simp [ProcObs.isQuiet])
      exact failed.then (trapret_effect runs current notExiting)
    case isFalse =>
      refine Effect.only (.calm ?_ (by simp))
      refine Calm.sleep (runs p current) (fun isExiting => absurd isExiting notExiting)
        (fun isWaiting => by cases isWaiting) (fun _ => rfl) ?_
      exact fun _ z child => Ptable.zombieChild_none found z child

theorem Procs.dispatch_effects (picked : (s.table p).state = .runnable) :
    Effects hits s (s.dispatch p).1 (s.dispatch p).2 := by
  have awake := Calm.awaken picked
  have first : Effect hits s { s with table := s.table.awaken p, cur := some p } [] :=
    .calm awake (by simp)
  cases place : s.place p with
  | fresh =>
    have back : Effect hits _ _ _ := trapret_effect awake.running rfl (p := p) (by simp [place])
    simpa [dispatch, place] using first.then back
  | waiting =>
    have waits : Effects hits _ _ _ := wait_effects awake.running rfl (p := p) (by simp [place])
    simpa [dispatch, place] using Effects.more first waits
  | user | exiting | kernel => simpa [dispatch, place] using first.only

/-- A guarded step is taken when its guard holds. -/
theorem Procs.taken {r : Procs × List ProcObs} {guard : Prop} [Decidable guard]
    (stepped : (if guard then some r else none) = some (s', obs)) :
    guard ∧ r.1 = s' ∧ r.2 = obs := by
  split at stepped
  case isTrue holds =>
    obtain rfl := Option.some.inj stepped
    exact ⟨holds, rfl, rfl⟩
  case isFalse => cases stepped

theorem Procs.act_effects {op : ProcOp} (runs : s.Runs) (current : s.cur = some p)
    (allowed : op.Hits hits s) (stepped : s.act p op = some (s', obs)) :
    Effects hits s s' obs := by
  cases op with
  | user =>
    obtain ⟨place, rfl, rfl⟩ := taken stepped
    exact (Effect.user current place).only
  | fork stack pages =>
    obtain ⟨_, rfl, rfl⟩ := taken stepped
    exact fork_effects runs current stack pages
  | kill pid =>
    obtain ⟨_, rfl, rfl⟩ := taken stepped
    exact kill_effects runs (fun q found => allowed pid q rfl found)
  | wait =>
    obtain ⟨place, rfl, rfl⟩ := taken stepped
    exact wait_effects runs current (by simp [place])
  | exit =>
    obtain ⟨⟨place, notInit⟩, rfl, rfl⟩ := taken stepped
    exact Effect.only (.calm (Calm.move runs current (by simp [place]) (fun _ => notInit)) (by simp))
  | enter =>
    obtain ⟨place, rfl, rfl⟩ := taken stepped
    refine Effect.only (.calm (Calm.move runs current (by simp [place]) ?_) (by simp))
    exact fun isExiting => by cases isExiting
  | wakeup chan =>
    obtain ⟨_, rfl, rfl⟩ := taken stepped
    refine Effect.only (.calm (Calm.stir runs (Stirred.wakeup1 _ chan) ?_) (by simp))
    exact fun q => Ptable.parent_wakeup1 chan
  | sleep chan =>
    obtain ⟨⟨place, notProc⟩, rfl, rfl⟩ := taken stepped
    have asleep : Calm s
        { s with table := s.table.sleep p chan, cur := none, place := upd s.place p (s.place p) } := by
      refine Calm.sleep (runs p current) (fun same => same) (fun same => same) ?_ ?_
      · intro isWaiting
        rw [isWaiting] at place
        rcases place with wrong | wrong <;> cases wrong
      · rintro rfl
        cases notProc
    rw [Kernel.upd_eq_self] at asleep
    exact Effect.only (.calm asleep (by simp))
  | leave =>
    obtain ⟨place, rfl, rfl⟩ := taken stepped
    exact (trapret_effect runs current (by simp [place])).only
  | die =>
    obtain ⟨place, rfl, rfl⟩ := taken stepped
    exact (Effect.die current place).only
  | schedule p => cases stepped
  | irq chans => cases stepped

theorem Procs.interrupted_quiet (s : Procs) : ∀ o ∈ s.interrupted, o.isQuiet = true := by
  intro o isIn
  unfold interrupted at isIn
  split at isIn
  · split at isIn
    · rw [List.mem_singleton.1 isIn]
      rfl
    · cases isIn
  · cases isIn

/-- **What a step does.** -/
theorem Procs.step_effects {op : ProcOp} (runs : s.Runs) (allowed : op.Hits hits s)
    (stepped : s.step op = some (s', obs)) : Effects hits s s' obs := by
  unfold step at stepped
  split at stepped
  case h_1 _ _ chans =>
    obtain ⟨_, rfl, rfl⟩ := taken stepped
    refine Effect.only (.calm (Calm.stir runs (Ptable.stirred_wakeups chans) ?_) s.interrupted_quiet)
    exact fun q => Ptable.parent_wakeups chans
  case h_2 _ _ p _ =>
    obtain ⟨picked, rfl, rfl⟩ := taken stepped
    exact dispatch_effects picked
  case h_3 p _ current => exact act_effects runs current allowed stepped
  case h_4 => cases stepped

end Steps

end Xv6Rpi.Proc
