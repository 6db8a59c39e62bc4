/-
# Proc.Slots -- what is left in a slot, and whom `kill` finds

`wait` resets `pid`, `parent` and `killed` of the slot it frees.  The failure paths of
`allocproc` and `fork` do not, and `kill` looks for a pid in every slot, used or not.  A
slot therefore stays clean as long as `kill` is not asked for the pid of an UNUSED slot
(0, as long as the slots are clean) and no `fork` fails after it took a pid.

`Tidy` is that condition on a step; a step from a clean state is as it should be exactly
if it is tidy.
-/
import Xv6Rpi.Proc.LifeHistory

namespace Xv6Rpi.Proc

open Theory Theory.Machine Kernel

set_option autoImplicit false

/-! ## Clean slots -/

/-- No trace of a process in the slot. -/
structure Entry.Clean (e : Entry) : Prop where
  pid : e.pid = 0
  parent : e.parent = none
  killed : e.killed = false

namespace Ptable

/-- Every UNUSED slot is clean. -/
def Clean (t : Ptable) : Prop := ∀ p, (t p).state = .unused → (t p).Clean

/-- Slots that are UNUSED stay so and stay clean, and a slot that becomes UNUSED is clean. -/
structure Tidied (t t' : Ptable) : Prop where
  free : ∀ p, (t p).state = .unused → (t' p).state = .unused
  clean : t.Clean → t'.Clean

/-- Only a slot that is replaced by an UNUSED one needs a look. -/
theorem Clean.set {t : Ptable} {q : Pid} {e : Entry} (clean : t.Clean)
    (new : e.state = .unused → e.Clean) : Clean (upd t q e) := by
  intro r free
  by_cases same : r = q
  · subst same
    rw [upd_same] at free ⊢
    exact new free
  · rw [upd_ne _ _ same] at free ⊢
    exact clean r free

namespace Tidied

variable {t t' t'' : Ptable} {p q : Pid} {chan : Chan} {e : Entry}

theorem refl (t : Ptable) : Tidied t t := ⟨fun _ free => free, fun clean => clean⟩

theorem trans (first : Tidied t t') (second : Tidied t' t'') : Tidied t t'' :=
  ⟨fun p free => second.free p (first.free p free), fun clean => second.clean (first.clean clean)⟩

theorem set (used : (t q).state ≠ .unused) (new : e.state = .unused → e.Clean) :
    Tidied t (upd t q e) := by
  refine ⟨fun r free => ?_, fun clean => clean.set new⟩
  have apart : r ≠ q := by
    rintro rfl
    exact used free
  rwa [upd_ne _ _ apart]

theorem stirred (stirred : Stirred t t') (parent : ∀ q, (t q).parent = none → (t' q).parent = none) :
    Tidied t t' := by
  refine ⟨fun r free => (stirred.state_iff (by decide) (by decide)).2 free, fun clean r free => ?_⟩
  have before := clean r ((stirred.state_iff (by decide) (by decide)).1 free)
  refine ⟨?_, parent r before.parent, ?_⟩
  · rw [stirred.pid, before.pid]
  · rw [stirred.killed, before.killed]

theorem wakeup1 (t : Ptable) (chan : Chan) : Tidied t (t.wakeup1 chan) := by
  apply Tidied.stirred (Stirred.wakeup1 t chan)
  intro r none
  rw [parent_wakeup1, none]

theorem wakeups (t : Ptable) (chans : List Chan) : Tidied t (t.wakeups chans) := by
  apply Tidied.stirred (stirred_wakeups chans)
  intro r none
  rw [parent_wakeups, none]

theorem sleep (runs : (t p).state = .running) : Tidied t (t.sleep p chan) :=
  Tidied.set (by rw [runs]; decide) fun free => by cases free

theorem awaken (picked : (t p).state = .runnable) : Tidied t (t.awaken p) :=
  Tidied.set (by rw [picked]; decide) fun free => by cases free

theorem reap (dead : (t q).state = .zombie) : Tidied t (t.reap q) :=
  Tidied.set (by rw [dead]; decide) fun _ => ⟨rfl, rfl, rfl⟩

theorem exit (notInit : p ≠ INITPROC) (runs : (t p).state = .running) : Tidied t (t.exit p) := by
  have exited := exit_spec t notInit
  have free_iff : ∀ r, (t.exit p r).state = .unused ↔ (t r).state = .unused := by
    intro r
    by_cases same : r = p
    · subst same
      simp [exited.dead, runs]
    · rcases exited.state r same with kept | ⟨slept, woken⟩
      · rw [kept]
      · simp [slept, woken]
  refine ⟨fun r free => (free_iff r).2 free, fun clean r free => ?_⟩
  have entry := clean r ((free_iff r).1 free)
  refine ⟨?_, ?_, ?_⟩
  · rw [exited.pid, entry.pid]
  · rw [exited.parent, entry.parent]
    rfl
  · rw [exited.killed, entry.killed]

end Tidied

/-! ## kill -/

/-- The first slot with the pid, if there is one, holds a process. -/
def FindsLive (t : Ptable) (pid : Int) : Prop := ∀ q, t.find pid = some q → (t q).state ≠ .unused

instance (t : Ptable) (pid : Int) : Decidable (t.FindsLive pid) := inferInstanceAs (Decidable (∀ _, _))

/-- `kill` returns 0 if a process has the pid; otherwise it returns -1 and changes nothing. -/
structure KillsLive (t : Ptable) (pid : Int) : Prop where
  found : (∃ p, (t p).state ≠ .unused ∧ (t p).pid = pid) → (t.kill pid).2 = true
  missed : (∀ p, (t p).state ≠ .unused → (t p).pid ≠ pid) → t.kill pid = (t, false)

section Kill

variable {t : Ptable} {pid : Int} {q : Pid}

theorem pid_of_find (found : t.find pid = some q) : (t q).pid = pid := by
  simpa using List.find?_some found

theorem find_isSome {p : Pid} (same : (t p).pid = pid) : ∃ q, t.find pid = some q := by
  apply Option.isSome_iff_exists.1
  rw [find, List.find?_isSome]
  exact ⟨p, List.mem_finRange p, by simp [same]⟩

/-- A mark neither frees nor fills a slot. -/
theorem strike_unused_iff (e : Entry) : (strike e).state = .unused ↔ e.state = .unused := by
  unfold strike
  dsimp only
  split
  case isTrue asleep => simp [asleep]
  case isFalse => rfl

theorem unused_kill {p : Pid} (free : (t p).state = .unused) : ((t.kill pid).1 p).state = .unused := by
  cases found : t.find pid with
  | none => simpa [kill, found] using free
  | some q =>
    by_cases same : p = q
    · subst same
      simpa [kill, found] using (strike_unused_iff _).2 free
    · simpa [kill, found, same] using free

theorem FindsLive.killsLive (live : t.FindsLive pid) : t.KillsLive pid := by
  constructor
  · rintro ⟨p, -, same⟩
    obtain ⟨q, found⟩ := find_isSome same
    simp [kill, found]
  · intro nobody
    cases found : t.find pid with
    | none => simp [kill, found]
    | some q => exact absurd (pid_of_find found) (nobody q (live q found))

/-- The mark is set in the slot that is found; it stays clean only when it holds a process. -/
theorem clean_kill_iff (clean : t.Clean) : (t.kill pid).1.Clean ↔ t.FindsLive pid := by
  constructor
  · intro after q found free
    have marked := (after q (by simp [kill, found, strike, free])).killed
    simp [kill, found, strike] at marked
  · intro live
    cases found : t.find pid with
    | none =>
      simp only [kill, found]
      exact clean
    | some q =>
      simp only [kill, found]
      apply clean.set
      intro free
      exact absurd ((strike_unused_iff _).1 free) (live q found)

end Kill

end Ptable

/-! ## Steps -/

namespace Procs

/-- `kill` finds a process or nothing; `fork` finds no slot, does not fail, or has come to
the pid 0 again. -/
def Tidy (s : Procs) : ProcOp → Prop
  | .kill pid => s.table.FindsLive pid
  | .fork stack pages =>
    s.table.unusedSlot = none ∨ (stack && pages) = true ∨ int32 (s.nextpid % 4294967296) = 0
  | _ => True

instance (s : Procs) (op : ProcOp) : Decidable (s.Tidy op) :=
  match op with
  | .kill _ => inferInstanceAs (Decidable (Ptable.FindsLive _ _))
  | .fork .. => inferInstanceAs (Decidable (_ ∨ _ ∨ _))
  | .schedule _ | .user | .irq _ | .wait | .exit | .enter | .wakeup _ | .sleep _ | .leave | .die =>
    .isTrue trivial

/-- A step is as it should be: `kill` acts on processes only, UNUSED slots are clean
afterwards, and a process that is created is not marked. -/
structure Sound (s : Procs) (op : ProcOp) (s' : Procs) : Prop where
  kills : ∀ pid, op = .kill pid → s.table.KillsLive pid
  clean : s'.table.Clean
  unmarked : ∀ p, (s.table p).state = .unused → s'.Live p → (s'.table p).killed = false

section Steps

variable {s s' : Procs} {p np : Pid} {op : ProcOp} {obs : List ProcObs} {pid : Int}

/-- The table after `kill`. -/
theorem kill_table (s : Procs) (p : Pid) (pid : Int) :
    (s.kill p pid).1.table = (s.table.kill pid).1 := by
  unfold kill Ptable.kill
  cases s.table.find pid <;> rfl

theorem tidied_wait (runs : (s.table p).state = .running) : Ptable.Tidied s.table (s.wait p).1.table := by
  unfold wait
  cases found : s.table.zombieChild p with
  | some q => exact .reap (Ptable.zombieChild_some found).2
  | none =>
    dsimp only
    split
    · exact .refl _
    · exact .sleep runs

theorem tidied_dispatch (picked : (s.table p).state = .runnable) :
    Ptable.Tidied s.table (s.dispatch p).1.table := by
  have awake : Ptable.Tidied s.table (s.table.awaken p) := .awaken picked
  cases place : s.place p with
  | waiting =>
    simp only [dispatch, place]
    refine awake.trans (tidied_wait (s := { s with table := s.table.awaken p, cur := some p }) ?_)
    simp [Ptable.awaken]
  | fresh | user | exiting | kernel =>
    simp only [dispatch, place]
    exact awake

theorem clean_child (clean : s.table.Clean) : (s.child p np).table.Clean :=
  clean.set fun free => by cases free

theorem clean_stillborn_iff (clean : s.table.Clean) (free : (s.table np).state = .unused) :
    (s.stillborn np).table.Clean ↔ int32 (s.nextpid % 4294967296) = 0 := by
  constructor
  · intro after
    simpa [stillborn] using (after np (by simp [stillborn])).pid
  · intro zero
    exact clean.set fun _ => ⟨zero, (clean np free).parent, (clean np free).killed⟩

theorem clean_fork_iff (clean : s.table.Clean) (stack pages : Bool) :
    (s.fork p stack pages).1.table.Clean ↔ s.Tidy (.fork stack pages) := by
  cases found : s.table.unusedSlot with
  | none => simp [fork, found, Tidy, clean]
  | some np =>
    cases both : stack && pages with
    | true => simp [fork, found, both, Tidy, clean_child clean]
    | false =>
      simp [fork, found, both, Tidy,
        clean_stillborn_iff clean (Ptable.unusedSlot_free found)]

/-- Every step but `fork` and `kill` leaves the slots tidy. -/
theorem tidied_act (runs : s.Runs) (current : s.cur = some p)
    (notInit : ∀ p, s.place p = .exiting → p ≠ INITPROC) (notFork : ∀ a b, op ≠ .fork a b)
    (notKill : ∀ n, op ≠ .kill n) (stepped : s.act p op = some (s', obs)) :
    Ptable.Tidied s.table s'.table := by
  have running := runs p current
  cases op with
  | fork stack pages => exact absurd rfl (notFork stack pages)
  | kill pid => exact absurd rfl (notKill pid)
  | user | exit | enter | leave =>
    obtain ⟨_, rfl, rfl⟩ := taken stepped
    exact .refl _
  | wait =>
    obtain ⟨_, rfl, rfl⟩ := taken stepped
    exact tidied_wait running
  | wakeup chan =>
    obtain ⟨_, rfl, rfl⟩ := taken stepped
    exact .wakeup1 _ chan
  | sleep chan =>
    obtain ⟨_, rfl, rfl⟩ := taken stepped
    exact .sleep running
  | die =>
    obtain ⟨place, rfl, rfl⟩ := taken stepped
    exact .exit (notInit p place) running
  | schedule q => cases stepped
  | irq chans => cases stepped

theorem tidied_step (runs : s.Runs) (notInit : ∀ p, s.place p = .exiting → p ≠ INITPROC)
    (notFork : ∀ a b, op ≠ .fork a b) (notKill : ∀ n, op ≠ .kill n)
    (stepped : s.step op = some (s', obs)) : Ptable.Tidied s.table s'.table := by
  unfold step at stepped
  split at stepped
  case h_1 _ _ chans =>
    obtain ⟨_, rfl, rfl⟩ := taken stepped
    exact .wakeups _ chans
  case h_2 _ _ p _ =>
    obtain ⟨picked, rfl, rfl⟩ := taken stepped
    exact tidied_dispatch picked
  case h_3 p _ current => exact tidied_act runs current notInit notFork notKill stepped
  case h_4 => cases stepped

/-- The slot a fork fills was clean, so the child is not marked. -/
theorem unmarked_fork (clean : s.table.Clean) (stack pages : Bool) {q : Pid}
    (free : (s.table q).state = .unused) :
    ((s.fork p stack pages).1.table q).killed = false := by
  have unmarked := (clean q free).killed
  cases found : s.table.unusedSlot with
  | none => simpa [fork, found] using unmarked
  | some np =>
    cases both : stack && pages with
    | true =>
      simp only [fork, found, both, if_true, child]
      by_cases same : q = np
      · subst same
        simpa using unmarked
      · simpa [same] using unmarked
    | false =>
      simp only [fork, found, both, Bool.false_eq_true, if_false, stillborn]
      by_cases same : q = np
      · subst same
        simpa using unmarked
      · simpa [same] using unmarked

theorem sound_fork_iff (clean : s.table.Clean) (stack pages : Bool) :
    s.Sound (.fork stack pages) (s.fork p stack pages).1 ↔ s.Tidy (.fork stack pages) := by
  constructor
  · exact fun sound => (clean_fork_iff clean stack pages).1 sound.clean
  · intro tidy
    refine ⟨?_, (clean_fork_iff clean stack pages).2 tidy, ?_⟩
    · intro pid isKill
      cases isKill
    · exact fun q free _ => unmarked_fork clean stack pages free

theorem sound_kill_iff (clean : s.table.Clean) :
    s.Sound (.kill pid) (s.kill p pid).1 ↔ s.Tidy (.kill pid) := by
  have after : (s.kill p pid).1.table.Clean ↔ s.table.FindsLive pid := by
    rw [kill_table]
    exact Ptable.clean_kill_iff clean
  constructor
  · exact fun sound => after.1 sound.clean
  · intro tidy
    refine ⟨?_, after.2 tidy, ?_⟩
    · intro other same
      cases same
      exact Ptable.FindsLive.killsLive tidy
    · intro q free live
      unfold Live at live
      rw [kill_table] at live
      exact absurd (Ptable.unused_kill free) live

/-- **A step from a clean state is as it should be exactly if it is tidy.** -/
theorem sound_iff (clean : s.table.Clean) (runs : s.Runs)
    (notInit : ∀ p, s.place p = .exiting → p ≠ INITPROC) (stepped : s.step op = some (s', obs)) :
    s.Sound op s' ↔ s.Tidy op := by
  have others : (∀ a b, op ≠ .fork a b) → (∀ n, op ≠ .kill n) → s.Tidy op →
      (s.Sound op s' ↔ s.Tidy op) := by
    intro notFork notKill tidy
    have tidied := tidied_step runs notInit notFork notKill stepped
    refine iff_of_true ⟨fun pid same => absurd same (notKill pid), tidied.clean clean, ?_⟩ tidy
    exact fun q free live => absurd (tidied.free q free) live
  cases op with
  | fork stack pages =>
    unfold step at stepped
    cases current : s.cur with
    | none => simp [current] at stepped
    | some p =>
      simp only [current] at stepped
      obtain ⟨_, rfl, rfl⟩ := taken stepped
      exact sound_fork_iff clean stack pages
  | kill pid =>
    unfold step at stepped
    cases current : s.cur with
    | none => simp [current] at stepped
    | some p =>
      simp only [current] at stepped
      obtain ⟨_, rfl, rfl⟩ := taken stepped
      exact sound_kill_iff clean
  | schedule | user | irq | wait | exit | enter | wakeup | sleep | leave | die =>
    exact others (by simp) (by simp) trivial

end Steps

end Procs

/-! ## Runs -/

/-- **Slots are recycled clean, and `kill` acts on processes only.**  In every state that
tidy steps lead to, every UNUSED slot is clean, `kill` of a pid that it does not find in an
UNUSED slot first acts on processes only, and the next step is as it should be exactly if
it is tidy. -/
theorem slots_recycled_clean (ops : List ProcOp) (z : Procs) (seen : List ProcObs)
    (ran : run Procs.step Procs.boot ops = some (z, seen))
    (tidy : Meets Procs.step Procs.Tidy Procs.boot ops) :
    z.table.Clean ∧ (∀ pid, z.table.FindsLive pid → z.table.KillsLive pid) ∧
      ∀ op z' obs, z.step op = some (z', obs) → (z.Sound op z' ↔ z.Tidy op) := by
  have holds := @run_keeps_where _ _ _ Procs.step Procs.Tidy
    (fun seen s => Roster seen s ∧ s.table.Clean) ?_ ops [] Procs.boot z
    seen ⟨Family.boot.roster, ?_⟩ tidy ran
  · obtain ⟨roster, clean⟩ := holds
    refine ⟨clean, fun pid live => live.killsLive, fun op z' obs stepped => ?_⟩
    exact Procs.sound_iff clean roster.runs (fun p exiting => roster.not_init_of_exiting exiting) stepped
  · rintro seen s op s' more ⟨roster, clean⟩ isTidy stepped
    have effects : Effects (fun _ _ => True) s s' more :=
      Procs.step_effects roster.runs (fun _ _ _ _ => trivial) stepped
    have sound := (Procs.sound_iff clean roster.runs
      (fun p exiting => roster.not_init_of_exiting exiting) stepped).2 isTidy
    exact ⟨effects.keeps (fun _ _ _ _ now effect => Roster.effect now effect) roster, sound.clean⟩
  · intro p free
    by_cases same : p = INITPROC
    · subst same
      simp [Procs.boot] at free
    · simp only [Procs.boot, upd_ne _ _ same]
      exact ⟨rfl, rfl, rfl⟩

/-- Two processes, one of them killed by its parent and waited for, and a new one. -/
def killedAndReaped : List ProcOp :=
  [.schedule 0, .fork true true, .kill 2, .wait, .schedule 1, .exit, .die, .schedule 0, .fork true true]

theorem slots_recycled_clean_session : ∃ z seen,
    run Procs.step Procs.boot killedAndReaped = some (z, seen) ∧ z.table.Clean ∧
      (∀ pid, z.table.FindsLive pid → z.table.KillsLive pid) ∧
      ∀ op z' obs, z.step op = some (z', obs) → (z.Sound op z' ↔ z.Tidy op) := by
  have runs : (run Procs.step Procs.boot killedAndReaped).isSome = true := by decide +kernel
  obtain ⟨⟨z, seen⟩, ran⟩ := Option.isSome_iff_exists.1 runs
  exact ⟨z, seen, ran, slots_recycled_clean killedAndReaped z seen ran (by decide +kernel)⟩

/-- **`kill(0)` finds an UNUSED slot.**  It returns 0 although no process has pid 0, it leaves
its mark in the slot, and the next child is born with it; and a `fork` that fails leaves its
pid behind. -/
theorem kill_marks_unused_slot :
    (Procs.boot.table.kill 0).2 = true ∧
    (∀ p, (Procs.boot.table p).state ≠ .unused → (Procs.boot.table p).pid ≠ 0) ∧
    (run Procs.step Procs.boot [.schedule 0, .kill 0]).map
      (fun r => ((r.1.table 1).state, (r.1.table 1).killed)) = some (.unused, true) ∧
    (run Procs.step Procs.boot [.schedule 0, .kill 0, .fork true true]).map
      (fun r => ((r.1.table 1).state, (r.1.table 1).killed)) = some (.runnable, true) ∧
    (run Procs.step Procs.boot [.schedule 0, .fork false true]).map
      (fun r => ((r.1.table 1).state, (r.1.table 1).pid)) = some (.unused, 2) := by
  decide +kernel

end Xv6Rpi.Proc
