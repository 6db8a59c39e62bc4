/-
# Proc.LifeRun -- the family of processes over whole runs

Two invariants, each kept by every effect of a step.  `Roster`: processes are numbered
apart and every one but init has a living parent.  `Waiters`: nobody sleeps in `wait` with
a dead child.
-/
import Xv6Rpi.Proc.LifeStep

namespace Xv6Rpi.Proc

open Theory Kernel

set_option autoImplicit false

namespace Procs

def Alive (s : Procs) (p : Pid) : Prop := (s.table p).state.isAlive = true

def Zombie (s : Procs) (p : Pid) : Prop := (s.table p).state = .zombie

variable {s s' : Procs} {p q : Pid}

theorem Alive.live (alive : s.Alive p) : s.Live p := by
  intro free
  unfold Alive at alive
  rw [free] at alive
  cases alive

theorem Alive.not_zombie (alive : s.Alive p) : ¬ s.Zombie p := by
  intro dead
  unfold Alive at alive
  rw [dead] at alive
  cases alive

theorem Zombie.live (dead : s.Zombie p) : s.Live p := by
  intro free
  unfold Zombie at dead
  rw [free] at dead
  cases dead

/-- A failed `fork` changes no more of the table than a number. -/
theorem stillborn_entry {np : Pid} (free : (s.table np).state = .unused) (q : Pid) :
    (s.stillborn np).table q = { s.table q with pid := ((s.stillborn np).table q).pid } := by
  by_cases same : q = np
  · subst same
    simp [stillborn, free]
  · simp [stillborn, same]

theorem stillborn_live {np : Pid} (free : (s.table np).state = .unused) (q : Pid) :
    (s.stillborn np).Live q ↔ s.Live q := by
  unfold Live
  rw [stillborn_entry free q]

end Procs

namespace Calm

variable {s s' : Procs} {p : Pid}

theorem alive_iff (calm : Calm s s') : s'.Alive p ↔ s.Alive p := by
  unfold Procs.Alive
  rcases calm.state p with same | ⟨before, after⟩
  · rw [same]
  · simp [before, after]

/-- The states in which a process is not alive are neither entered nor left. -/
theorem state_iff {st : Procstate} (calm : Calm s s') (notAlive : st.isAlive = false) :
    (s'.table p).state = st ↔ (s.table p).state = st := by
  rcases calm.state p with same | ⟨before, after⟩
  · rw [same]
  · constructor <;> rintro rfl
    · rw [after] at notAlive
      cases notAlive
    · rw [before] at notAlive
      cases notAlive

theorem live_iff (calm : Calm s s') : s'.Live p ↔ s.Live p :=
  not_congr (calm.state_iff rfl)

theorem zombie_iff (calm : Calm s s') : s'.Zombie p ↔ s.Zombie p := calm.state_iff rfl

end Calm

/-! ## Who there is -/

/-- The processes are numbered apart, and all but init have a living parent. -/
structure Roster (seen : List ProcObs) (s : Procs) : Prop where
  runs : s.Runs
  initAlive : s.Alive INITPROC
  initStays : s.place INITPROC ≠ .exiting
  initBorn : s.born INITPROC = 1
  whole : ∀ p, (s.table p).state ≠ .embryo
  older : ∀ p, s.Live p → 0 < s.born p ∧ s.born p < s.nextpid
  apart : ∀ p q, s.Live p → s.Live q → s.born p = s.born q → p = q
  numbered : ∀ p, s.Live p → (s.table p).pid = int32 (s.born p % 4294967296)
  orphan : ∀ p, ¬ s.Live p → (s.table p).parent = none
  parent : ∀ p, s.Live p → p ≠ INITPROC → ∃ q, (s.table p).parent = some q ∧ s.Alive q
  initOrphan : (s.table INITPROC).parent = none
  selfless : ∀ p, (s.table p).parent ≠ some p
  counted : s.nextpid ≤ seen.count .allocproc + 2

namespace Roster

variable {hits : Procs → Pid → Prop} {seen obs : List ProcObs} {s s' : Procs} {p q np : Pid}

theorem cur_alive (roster : Roster seen s) (current : s.cur = some p) : s.Alive p := by
  unfold Procs.Alive
  rw [roster.runs p current]
  rfl

/-- Everyone's parent lives, if they have one. -/
theorem parent_alive (roster : Roster seen s) (isParent : (s.table p).parent = some q) :
    s.Alive q := by
  have notInit : p ≠ INITPROC := by
    rintro rfl
    rw [roster.initOrphan] at isParent
    cases isParent
  by_cases live : s.Live p
  · obtain ⟨r, known, alive⟩ := roster.parent p live notInit
    rw [isParent] at known
    cases known
    exact alive
  · rw [roster.orphan p live] at isParent
    cases isParent

theorem calm (roster : Roster seen s) (calm : Calm s s') : Roster (seen ++ obs) s' := by
  refine ⟨calm.running, calm.alive_iff.2 roster.initAlive,
    fun exiting => roster.initStays (calm.initStays exiting), ?_, ?_, ?_, ?_, ?_, ?_, ?_, ?_, ?_, ?_⟩
  · rw [calm.born]
    exact roster.initBorn
  · intro p embryo
    exact roster.whole p ((calm.state_iff rfl).1 embryo)
  · intro p live
    rw [calm.born, calm.nextpid]
    exact roster.older p (calm.live_iff.1 live)
  · intro p q liveP liveQ
    rw [calm.born]
    exact roster.apart p q (calm.live_iff.1 liveP) (calm.live_iff.1 liveQ)
  · intro p live
    rw [calm.pid, calm.born]
    exact roster.numbered p (calm.live_iff.1 live)
  · intro p free
    rw [calm.parent]
    exact roster.orphan p (fun live => free (calm.live_iff.2 live))
  · intro p live notInit
    obtain ⟨q, known, alive⟩ := roster.parent p (calm.live_iff.1 live) notInit
    exact ⟨q, by rw [calm.parent, known], calm.alive_iff.2 alive⟩
  · rw [calm.parent]
    exact roster.initOrphan
  · intro p
    rw [calm.parent]
    exact roster.selfless p
  · rw [calm.nextpid, List.count_append]
    have bound := roster.counted
    omega

theorem fork (roster : Roster seen s) (current : s.cur = some p)
    (free : (s.table np).state = .unused) :
    Roster (seen ++ [.allocproc, .forked (s.born p) s.nextpid]) (s.child p np) := by
  have notLive : ¬ s.Live np := fun live => live free
  have entry : ∀ q, q ≠ np → (s.child p np).table q = s.table q := fun q other => upd_ne _ _ other
  have born : ∀ q, q ≠ np → (s.child p np).born q = s.born q := fun q other => upd_ne _ _ other
  have here : (s.child p np).born np = s.nextpid := upd_same _ _ _
  have keeps : ∀ q, s.Alive q → q ≠ np ∧ (s.child p np).Alive q := by
    intro q alive
    have other : q ≠ np := by
      rintro rfl
      exact notLive alive.live
    refine ⟨other, ?_⟩
    unfold Procs.Alive
    rw [entry q other]
    exact alive
  have live : ∀ q, q ≠ np → (s.child p np).Live q → s.Live q := by
    intro q other lives
    unfold Procs.Live at lives
    rwa [entry q other] at lives
  have initOther := (keeps INITPROC roster.initAlive).1
  refine ⟨?_, (keeps _ roster.initAlive).2, ?_, ?_, ?_, ?_, ?_, ?_, ?_, ?_, ?_, ?_, ?_⟩
  · intro q isCur
    rw [entry q (keeps q (roster.cur_alive isCur)).1]
    exact roster.runs q isCur
  · simpa [Procs.child, initOther] using roster.initStays
  · rw [born _ initOther]
    exact roster.initBorn
  · intro q
    by_cases same : q = np
    · subst same
      simp [Procs.child]
    · rw [entry q same]
      exact roster.whole q
  · intro q lives
    show 0 < _ ∧ _ < s.nextpid + 1
    by_cases same : q = np
    · subst same
      have initOlder := roster.older _ roster.initAlive.live
      rw [here]
      omega
    · have old := roster.older q (live q same lives)
      rw [born q same]
      omega
  · intro q r livesQ livesR equal
    by_cases sameQ : q = np
    · by_cases sameR : r = np
      · rw [sameQ, sameR]
      · subst sameQ
        have old := roster.older r (live r sameR livesR)
        rw [here, born r sameR] at equal
        omega
    · by_cases sameR : r = np
      · subst sameR
        have old := roster.older q (live q sameQ livesQ)
        rw [here, born q sameQ] at equal
        omega
      · rw [born q sameQ, born r sameR] at equal
        exact roster.apart q r (live q sameQ livesQ) (live r sameR livesR) equal
  · intro q lives
    by_cases same : q = np
    · subst same
      simp [Procs.child]
    · rw [entry q same, born q same]
      exact roster.numbered q (live q same lives)
  · intro q dead
    have other : q ≠ np := by
      rintro rfl
      apply dead
      simp [Procs.Live, Procs.child]
    rw [entry q other]
    unfold Procs.Live at dead
    rw [entry q other] at dead
    exact roster.orphan q dead
  · intro q lives notInit
    by_cases same : q = np
    · subst same
      exact ⟨p, by simp [Procs.child], (keeps p (roster.cur_alive current)).2⟩
    · obtain ⟨r, known, alive⟩ := roster.parent q (live q same lives) notInit
      exact ⟨r, by rw [entry q same, known], (keeps r alive).2⟩
  · rw [entry _ initOther]
    exact roster.initOrphan
  · intro q
    by_cases same : q = np
    · subst same
      have other := (keeps p (roster.cur_alive current)).1
      simpa [Procs.child] using other
    · rw [entry q same]
      exact roster.selfless q
  · show s.nextpid + 1 ≤ _
    have bound := roster.counted
    simp only [List.count_append, List.count_cons, List.count_nil, beq_self_eq_true, if_true]
    omega

/-- The table changed without anyone being born: the numbering stays. -/
theorem change {t : Ptable} {cur : Option Pid} (roster : Roster seen s)
    (runs : Procs.Runs { s with table := t, cur := cur })
    (initAlive : (t INITPROC).state.isAlive = true)
    (whole : ∀ p, (t p).state ≠ .embryo)
    (live : ∀ p, (t p).state ≠ .unused → s.Live p ∧ (t p).pid = (s.table p).pid)
    (orphan : ∀ p, (t p).state = .unused → (t p).parent = none)
    (parent : ∀ p, (t p).state ≠ .unused → p ≠ INITPROC →
      ∃ q, (t p).parent = some q ∧ (t q).state.isAlive = true)
    (adopted : ∀ p, (t p).parent = (s.table p).parent ∨ (t p).parent = none ∨
      ((t p).parent = some INITPROC ∧ p ≠ INITPROC)) :
    Roster (seen ++ obs) { s with table := t, cur := cur } := by
  refine ⟨runs, initAlive, roster.initStays, roster.initBorn, whole, ?_, ?_, ?_, ?_, parent, ?_, ?_, ?_⟩
  · exact fun p lives => roster.older p (live p lives).1
  · exact fun p q livesP livesQ => roster.apart p q (live p livesP).1 (live q livesQ).1
  · intro p lives
    exact (live p lives).2.trans (roster.numbered p (live p lives).1)
  · exact fun p dead => orphan p (not_not.1 dead)
  · rcases adopted INITPROC with same | gone | ⟨_, wrong⟩
    · exact same.trans roster.initOrphan
    · exact gone
    · exact absurd rfl wrong
  · intro p own
    rcases adopted p with same | gone | ⟨byInit, notInit⟩
    · exact roster.selfless p (same.symm.trans own)
    · rw [gone] at own
      cases own
    · rw [byInit] at own
      exact notInit (Option.some.inj own).symm
  · have bound := roster.counted
    rw [List.count_append]
    exact Nat.le_trans bound (by omega)

theorem forkFailed (roster : Roster seen s) (free : (s.table np).state = .unused) :
    Roster (seen ++ [.allocproc]) (s.stillborn np) := by
  have entry := Procs.stillborn_entry free
  have live := Procs.stillborn_live free
  have state : ∀ q, ((s.stillborn np).table q).state = (s.table q).state := fun q => by rw [entry q]
  have parent : ∀ q, ((s.stillborn np).table q).parent = (s.table q).parent := fun q => by rw [entry q]
  have older : ∀ q, s.Live q → q ≠ np := by
    rintro q lives rfl
    exact lives free
  refine ⟨?_, ?_, roster.initStays, roster.initBorn, ?_, ?_, ?_, ?_, ?_, ?_,
    (parent _).trans roster.initOrphan, fun q own => roster.selfless q ((parent q).symm.trans own), ?_⟩
  · intro q isCur
    rw [state]
    exact roster.runs q isCur
  · unfold Procs.Alive
    rw [state]
    exact roster.initAlive
  · intro q
    rw [state]
    exact roster.whole q
  · intro q lives
    have old := roster.older q ((live q).1 lives)
    exact ⟨old.1, Nat.lt_succ_of_lt old.2⟩
  · intro q r livesQ livesR
    exact roster.apart q r ((live q).1 livesQ) ((live r).1 livesR)
  · intro q lives
    rw [live] at lives
    have other := older q lives
    simpa [Procs.stillborn, other] using roster.numbered q lives
  · intro q dead
    rw [live] at dead
    rw [parent]
    exact roster.orphan q dead
  · intro q lives notInit
    obtain ⟨r, known, alive⟩ := roster.parent q ((live q).1 lives) notInit
    refine ⟨r, by rw [parent, known], ?_⟩
    unfold Procs.Alive
    rw [state]
    exact alive
  · show s.nextpid + 1 ≤ _
    have bound := roster.counted
    simp only [List.count_append, List.count_cons, List.count_nil, beq_self_eq_true, if_true]
    omega

/-- What `kill` does to the states. -/
theorem strike_state (e : Entry) : (Ptable.strike e).state = e.state ∨
    (e.state = .sleeping ∧ (Ptable.strike e).state = .runnable) := by
  unfold Ptable.strike
  by_cases asleep : e.state = .sleeping
  · exact .inr ⟨asleep, by simp [asleep]⟩
  · exact .inl (by simp [asleep])

/-- `kill` only stirs, apart from the mark. -/
theorem strike_entry (s : Procs) (q r : Pid) :
    let e := (s.strike q).1.table r
    e.pid = (s.table r).pid ∧ e.parent = (s.table r).parent ∧ e.chan = (s.table r).chan ∧
      (e.state = (s.table r).state ∨ ((s.table r).state = .sleeping ∧ e.state = .runnable)) := by
  by_cases same : r = q
  · subst same
    simpa [Procs.strike, Ptable.strike] using strike_state (s.table r)
  · simp [Procs.strike, same]

/-- The states in which a process is not alive are neither entered nor left. -/
theorem strike_state_iff (s : Procs) (q r : Pid) {st : Procstate} (notAlive : st.isAlive = false) :
    ((s.strike q).1.table r).state = st ↔ (s.table r).state = st := by
  rcases (strike_entry s q r).2.2.2 with same | ⟨slept, woken⟩
  · rw [same]
  · rw [slept, woken]
    constructor <;> rintro rfl <;> cases notAlive

theorem strike (roster : Roster seen s) : Roster (seen ++ obs) (s.strike q).1 := by
  have alive : ∀ r, (((s.strike q).1.table r).state.isAlive = true) ↔ s.Alive r := by
    intro r
    unfold Procs.Alive
    rcases (strike_entry s q r).2.2.2 with same | ⟨slept, woken⟩
    · rw [same]
    · rw [slept, woken]
      exact Iff.rfl
  refine roster.change ?_ ((alive _).2 roster.initAlive) ?_ ?_ ?_ ?_
    (fun r => .inl (strike_entry s q r).2.1)
  · intro r isCur
    have running := roster.runs r isCur
    rcases (strike_entry s q r).2.2.2 with same | ⟨slept, _⟩
    · exact same.trans running
    · rw [running] at slept
      cases slept
  · exact fun r embryo => roster.whole r ((strike_state_iff s q r rfl).1 embryo)
  · intro r lives
    exact ⟨fun free => lives ((strike_state_iff s q r rfl).2 free), (strike_entry s q r).1⟩
  · intro r free
    exact (strike_entry s q r).2.1.trans
      (roster.orphan r (fun live => live ((strike_state_iff s q r rfl).1 free)))
  · intro r lives notInit
    obtain ⟨z, known, living⟩ :=
      roster.parent r (fun free => lives ((strike_state_iff s q r rfl).2 free)) notInit
    exact ⟨z, (strike_entry s q r).2.1.trans known, (alive z).2 living⟩

/-- `exit` leaves the others where they are: free, dead or alive. -/
theorem exit_state_iff {t t' : Ptable} {st : Procstate} (exited : Ptable.Exited p t t')
    (other : q ≠ p) (notAlive : st.isAlive = false) : (t' q).state = st ↔ (t q).state = st := by
  rcases exited.state q other with same | ⟨slept, woken⟩
  · rw [same]
  · rw [slept, woken]
    constructor <;> rintro rfl <;> cases notAlive

theorem not_init_of_exiting (roster : Roster seen s) (exiting : s.place p = .exiting) :
    p ≠ INITPROC := by
  rintro rfl
  exact roster.initStays exiting

theorem die_live (roster : Roster seen s) (current : s.cur = some p)
    (exiting : s.place p = .exiting) : (s.die p).1.Live q ↔ s.Live q := by
  have exited := Ptable.exit_spec s.table (roster.not_init_of_exiting exiting)
  by_cases same : q = p
  · subst same
    have dead : (s.die q).1.Zombie q := exited.dead
    exact iff_of_true dead.live (roster.cur_alive current).live
  · exact not_congr (exit_state_iff exited same rfl)

theorem die (roster : Roster seen s) (current : s.cur = some p) (exiting : s.place p = .exiting) :
    Roster (seen ++ obs) (s.die p).1 := by
  have notInit := roster.not_init_of_exiting exiting
  have exited := Ptable.exit_spec s.table notInit
  have others : ∀ q, q ≠ p → s.Alive q → (s.table.exit p q).state.isAlive = true := by
    intro q other alive
    rcases exited.state q other with same | ⟨_, woken⟩
    · rw [same]
      exact alive
    · rw [woken]
      rfl
  have wasLive : ∀ q, (s.table.exit p q).state ≠ .unused → s.Live q :=
    fun q lives => (roster.die_live current exiting).1 lives
  refine roster.change (fun _ nobody => by cases nobody)
    (others _ notInit.symm roster.initAlive) ?_ ?_ ?_ ?_ ?_
  · intro q embryo
    by_cases same : q = p
    · subst same
      rw [exited.dead] at embryo
      cases embryo
    · exact roster.whole q ((exit_state_iff exited same rfl).1 embryo)
  · exact fun q lives => ⟨wasLive q lives, exited.pid q⟩
  · intro q free
    have none := roster.orphan q (fun live => (roster.die_live current exiting).2 live free)
    rw [exited.parent, none]
    rfl
  · intro q lives qNotInit
    obtain ⟨r, known, alive⟩ := roster.parent q (wasLive q lives) qNotInit
    rw [exited.parent]
    by_cases mine : (s.table q).parent = some p
    · exact ⟨INITPROC, by simp [mine], others _ notInit.symm roster.initAlive⟩
    · have other : r ≠ p := by
        rintro rfl
        exact mine known
      exact ⟨r, by simp [known, other], others r other alive⟩
  · intro q
    rw [exited.parent]
    by_cases mine : (s.table q).parent = some p
    · refine .inr (.inr ⟨by simp [mine], ?_⟩)
      rintro rfl
      rw [roster.initOrphan] at mine
      cases mine
    · exact .inl (by simp [mine])

theorem reap (roster : Roster seen s) (dead : s.Zombie q) :
    Roster (seen ++ obs) { s with table := s.table.reap q } := by
  have other : ∀ r, s.Alive r → r ≠ q := by
    rintro r alive rfl
    exact alive.not_zombie dead
  have entry : ∀ r, r ≠ q → s.table.reap q r = s.table r := fun r apart => upd_ne _ _ apart
  have freed : (s.table.reap q q).state = .unused := by simp [Ptable.reap]
  refine roster.change ?_ ?_ ?_ ?_ ?_ ?_ ?_
  · intro r isCur
    simp only [entry r (other r (roster.cur_alive isCur))]
    exact roster.runs r isCur
  · rw [entry _ (other _ roster.initAlive)]
    exact roster.initAlive
  · intro r
    by_cases same : r = q
    · subst same
      simp [freed]
    · rw [entry r same]
      exact roster.whole r
  · intro r lives
    have apart : r ≠ q := by
      rintro rfl
      exact lives freed
    rw [entry r apart] at lives ⊢
    exact ⟨lives, rfl⟩
  · intro r free
    by_cases same : r = q
    · subst same
      simp [Ptable.reap]
    · rw [entry r same] at free ⊢
      exact roster.orphan r (fun live => live free)
  · intro r lives notInit
    have apart : r ≠ q := by
      rintro rfl
      exact lives freed
    rw [entry r apart] at lives ⊢
    obtain ⟨z, known, alive⟩ := roster.parent r lives notInit
    exact ⟨z, known, by rw [entry z (other z alive)]; exact alive⟩
  · intro r
    by_cases same : r = q
    · subst same
      exact .inr (.inl (by simp [Ptable.reap]))
    · exact .inl (by rw [entry r same])

theorem effect (roster : Roster seen s) (effect : Effect hits s s' obs) :
    Roster (seen ++ obs) s' := by
  cases effect with
  | calm calm _ => exact roster.calm calm
  | user => exact roster.calm (Calm.refl roster.runs)
  | fork current free => exact roster.fork current free
  | forkFailed free => exact roster.forkFailed free
  | strike => exact roster.strike
  | die current exiting => exact roster.die current exiting
  | reap current child dead => exact roster.reap dead

end Roster

/-! ## Who waits -/

/-- Who sleeps in `wait` sleeps on its own slot, and has no dead child. -/
structure Waiters (s : Procs) : Prop where
  chan : ∀ q, s.place q = .waiting → (s.table q).state = .sleeping →
    (s.table q).chan = some (.proc q)
  childless : ∀ q, s.table.Asleep q (.proc q) → ∀ z, (s.table z).parent = some q → ¬ s.Zombie z

namespace Waiters

variable {hits : Procs → Pid → Prop} {seen obs : List ProcObs} {s s' : Procs} {p q np : Pid}

theorem calm (waiters : Waiters s) (calm : Calm s s') : Waiters s' := by
  constructor
  · intro q waits sleeps
    rcases calm.waits q waits sleeps with ⟨waited, slept, same⟩ | known
    · rw [same]
      exact waiters.chan q waited slept
    · exact known
  · intro q asleep z child dead
    rw [calm.parent] at child
    rw [calm.zombie_iff] at dead
    rcases calm.asleep q asleep with before | nobody
    · exact waiters.childless q before z child dead
    · exact nobody z child dead

/-- Entries of processes that do not sleep in `wait` may change in any way that neither
makes a zombie nor a parent. -/
theorem change (waiters : Waiters s) {t : Ptable} {place : Pid → Place}
    (asleep : ∀ q, (t q).state = .sleeping →
      (s.table q).state = .sleeping ∧ (t q).chan = (s.table q).chan ∧ place q = s.place q)
    (dead : ∀ z, (t z).state = .zombie →
      (s.table z).state = .zombie ∧ (t z).parent = (s.table z).parent) :
    Waiters { s with table := t, place := place } := by
  constructor
  · intro q waits sleeps
    obtain ⟨slept, sameChan, samePlace⟩ := asleep q sleeps
    exact sameChan.trans (waiters.chan q (samePlace.symm.trans waits) slept)
  · intro q sleeps z child zombie
    obtain ⟨slept, sameChan, _⟩ := asleep q sleeps.1
    obtain ⟨was, sameParent⟩ := dead z zombie
    refine waiters.childless q ⟨slept, sameChan.symm.trans sleeps.2⟩ z ?_ was
    exact sameParent.symm.trans child

theorem fork (waiters : Waiters s) : Waiters (s.child p np) := by
  have changed : ∀ q, q = np ∧ ((s.child p np).table q).state = .runnable ∨
      q ≠ np ∧ (s.child p np).table q = s.table q ∧ (s.child p np).place q = s.place q := by
    intro q
    by_cases same : q = np
    · exact .inl ⟨same, by simp [Procs.child, same]⟩
    · exact .inr ⟨same, by simp [Procs.child, same], by simp [Procs.child, same]⟩
  have kept : Waiters { s with table := (s.child p np).table, place := (s.child p np).place } := by
    apply waiters.change
    · intro q sleeps
      rcases changed q with ⟨_, runnable⟩ | ⟨_, entry, place⟩
      · rw [runnable] at sleeps
        cases sleeps
      · rw [entry] at sleeps ⊢
        exact ⟨sleeps, rfl, place⟩
    · intro z dead
      rcases changed z with ⟨_, runnable⟩ | ⟨_, entry, _⟩
      · rw [runnable] at dead
        cases dead
      · rw [entry] at dead ⊢
        exact ⟨dead, rfl⟩
  exact ⟨kept.chan, kept.childless⟩

theorem forkFailed (waiters : Waiters s) (free : (s.table np).state = .unused) :
    Waiters (s.stillborn np) := by
  have kept : Waiters { s with table := (s.stillborn np).table, place := s.place } := by
    apply waiters.change
    · intro q sleeps
      rw [Procs.stillborn_entry free q] at sleeps ⊢
      exact ⟨sleeps, rfl, rfl⟩
    · intro z dead
      rw [Procs.stillborn_entry free z] at dead ⊢
      exact ⟨dead, rfl⟩
  exact ⟨kept.chan, kept.childless⟩

theorem strike (waiters : Waiters s) : Waiters (s.strike q).1 := by
  have kept : Waiters { s with table := (s.strike q).1.table, place := s.place } := by
    apply waiters.change
    · intro r sleeps
      obtain ⟨_, _, sameChan, state⟩ := Roster.strike_entry s q r
      rcases state with same | ⟨_, woken⟩
      · exact ⟨same.symm.trans sleeps, sameChan, rfl⟩
      · rw [woken] at sleeps
        cases sleeps
    · intro z dead
      obtain ⟨_, sameParent, _, state⟩ := Roster.strike_entry s q z
      rcases state with same | ⟨_, woken⟩
      · exact ⟨same.symm.trans dead, sameParent⟩
      · rw [woken] at dead
        cases dead
  exact kept

/-- The case the order in `exit` is about: the parent is woken before its child is a
zombie, and init when it inherits one. -/
theorem die (waiters : Waiters s) (roster : Roster seen s) (notInit : p ≠ INITPROC) :
    Waiters (s.die p).1 := by
  have exited := Ptable.exit_spec s.table notInit
  constructor
  · intro q waits sleeps
    have other : q ≠ p := by
      rintro rfl
      cases exited.dead.symm.trans sleeps
    apply (exited.chan q).trans
    apply waiters.chan q waits
    rcases exited.state q other with same | ⟨slept, _⟩
    · exact same.symm.trans sleeps
    · exact slept
  · intro q asleep z child dead
    obtain ⟨_, slept⟩ := exited.asleep q _ asleep
    have parent : (s.table.exit p z).parent = some q := child
    rw [exited.parent] at parent
    by_cases same : z = p
    · subst same
      have own : (s.table z).parent ≠ some z := roster.selfless z
      rw [if_neg own] at parent
      exact exited.parentAwake q q parent asleep
    · have was : (s.table z).state = .zombie := by
        rcases exited.state z same with kept | ⟨_, woken⟩
        · exact kept.symm.trans dead
        · cases woken.symm.trans dead
      by_cases mine : (s.table z).parent = some p
      · rw [if_pos mine] at parent
        obtain rfl := Option.some.inj parent
        exact exited.initAwake _ z mine was asleep
      · rw [if_neg mine] at parent
        exact waiters.childless q slept z parent was

theorem reap (waiters : Waiters s) : Waiters { s with table := s.table.reap q } := by
  have changed : ∀ r, (s.table.reap q r).state = .unused ∨ s.table.reap q r = s.table r := by
    intro r
    by_cases same : r = q
    · exact .inl (by simp [Ptable.reap, same])
    · exact .inr (by simp [Ptable.reap, same])
  have kept : Waiters { s with table := s.table.reap q, place := s.place } := by
    apply waiters.change
    · intro r sleeps
      rcases changed r with free | entry
      · rw [free] at sleeps
        cases sleeps
      · rw [entry] at sleeps ⊢
        exact ⟨sleeps, rfl, rfl⟩
    · intro z dead
      rcases changed z with free | entry
      · rw [free] at dead
        cases dead
      · rw [entry] at dead ⊢
        exact ⟨dead, rfl⟩
  exact kept

theorem effect (waiters : Waiters s) (roster : Roster seen s) (effect : Effect hits s s' obs) :
    Waiters s' := by
  cases effect with
  | calm calm _ => exact waiters.calm calm
  | user => exact waiters
  | fork => exact waiters.fork
  | forkFailed free => exact waiters.forkFailed free
  | strike => exact waiters.strike
  | die _ exiting => exact waiters.die roster (roster.not_init_of_exiting exiting)
  | reap => exact waiters.reap

end Waiters

end Xv6Rpi.Proc
