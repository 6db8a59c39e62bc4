/-
# Proc.Killed -- the way back to user mode of a killed process

`kill` sets a mark and wakes its process up; by its comment the process exits when it
returns to user space, "see trap in trap.c".  `trap.c` has no such check: `swi_handler`,
`irq_handler` and `trapret` restore the trap frame whatever the mark says, and so does the
first return of a new process.  A killed process therefore runs on in user mode, unless
it was on its way out already.
-/
import Xv6Rpi.Proc.LifeHistory

namespace Xv6Rpi.Proc

open Theory Theory.Machine Kernel

set_option autoImplicit false

/-- Process `i` executes an instruction in user mode after it was killed and the trap it
was in, or entered next, has completed. -/
def RunsOn (seen : List ProcObs) (i : Nat) : Prop :=
  ∃ before between after rest,
    seen = before ++ .killed i :: between ++ .returned i :: after ++ .user i :: rest

/-- The process is in `exit` if there is one; zombies stay there. -/
def InExit (s : Procs) (q : Pid) : Prop := s.Live q → s.place q = .exiting

instance (s : Procs) (q : Pid) : Decidable (InExit s q) := inferInstanceAs (Decidable (_ → _))

/-- Killed processes are in `exit`, and nothing was heard of them from user mode. -/
structure Doomed (seen : List ProcObs) (s : Procs) : Prop where
  past : ∀ i, .killed i ∈ seen → i < s.nextpid
  exiting : ∀ p, s.Live p → .killed (s.born p) ∈ seen → s.place p = .exiting
  silent : Each (fun before o => ∀ i, o = .user i → .killed i ∉ before) seen

namespace Doomed

variable {seen obs : List ProcObs} {s s' : Procs}

/-- Nobody is killed or heard of. -/
theorem same (doomed : Doomed seen s) (nextpid : s.nextpid ≤ s'.nextpid)
    (exiting : ∀ p, s'.Live p → .killed (s'.born p) ∈ seen → s'.place p = .exiting)
    (unkilled : ∀ i, .killed i ∉ obs) (unheard : ∀ i, .user i ∉ obs) : Doomed (seen ++ obs) s' := by
  have killed : ∀ i, .killed i ∈ seen ++ obs ↔ .killed i ∈ seen := by
    intro i
    simp [unkilled i]
  refine ⟨?_, ?_, ?_⟩
  · intro i isIn
    exact Nat.lt_of_lt_of_le (doomed.past i ((killed i).1 isIn)) nextpid
  · simpa only [killed] using exiting
  · apply Each.append doomed.silent
    intro before o after split i isUser
    subst isUser
    exact absurd (by simp [split]) (unheard i)

theorem effect (doomed : Doomed seen s) (roster : Roster seen s) (effect : Effect InExit s s' obs) :
    Doomed (seen ++ obs) s' := by
  cases effect with
  | calm calm quiet =>
    apply doomed.same (Nat.le_of_eq calm.nextpid.symm)
    · intro p lives killed
      rw [calm.born] at killed
      exact calm.exiting p (doomed.exiting p (calm.live_iff.1 lives) killed)
    · exact fun i isIn => by cases quiet _ isIn
    · exact fun i isIn => by cases quiet _ isIn
  | @user p current place =>
    have unkilled : .killed (s.born p) ∉ seen := by
      intro killed
      have exiting := doomed.exiting p (roster.cur_alive current).live killed
      cases place.symm.trans exiting
    refine ⟨?_, ?_, ?_⟩
    · simpa using doomed.past
    · simpa using doomed.exiting
    · apply Each.snoc doomed.silent
      intro i isUser
      cases isUser
      exact unkilled
  | @fork p np current free =>
    refine doomed.same (Nat.le_succ _) ?_ ?_ ?_
    · intro q lives killed
      by_cases isNew : q = np
      · subst isNew
        have here : (s.child p q).born q = s.nextpid := upd_same _ _ _
        rw [here] at killed
        exact absurd (doomed.past _ killed) (Nat.lt_irrefl _)
      · have born : (s.child p np).born q = s.born q := upd_ne _ _ isNew
        have place : (s.child p np).place q = s.place q := upd_ne _ _ isNew
        have entry : (s.child p np).table q = s.table q := upd_ne _ _ isNew
        simp only [Procs.Live, entry] at lives
        rw [born] at killed
        rw [place]
        exact doomed.exiting q lives killed
    · simp
    · simp
  | @forkFailed np free =>
    refine doomed.same (Nat.le_succ _) ?_ ?_ ?_
    · intro q lives killed
      refine doomed.exiting q ?_ killed
      intro isFree
      apply lives
      by_cases here : q = np
      · simp [Procs.stillborn, here]
      · simpa [Procs.stillborn, here] using isFree
    · simp
    · simp
  | @strike q hit =>
    have live : ∀ r, (s.strike q).1.Live r ↔ s.Live r :=
      fun r => not_congr (Roster.strike_state_iff s q r rfl)
    by_cases isFree : (s.table q).state = .unused
    · have shown : (s.strike q).2 = [] := if_pos isFree
      rw [shown]
      refine doomed.same (Nat.le_refl _) ?_ ?_ ?_
      · exact fun r lives killed => doomed.exiting r ((live r).1 lives) killed
      · simp
      · simp
    · have shown : (s.strike q).2 = [.killed (s.born q)] := if_neg isFree
      have killed : ∀ i, .killed i ∈ seen ++ [.killed (s.born q)] ↔
          .killed i ∈ seen ∨ i = s.born q := by simp
      rw [shown]
      refine ⟨?_, ?_, ?_⟩
      · intro i isIn
        rcases (killed i).1 isIn with old | rfl
        · exact doomed.past i old
        · exact (roster.older q isFree).2
      · intro r lives isIn
        rcases (killed _).1 isIn with old | new
        · exact doomed.exiting r ((live r).1 lives) old
        · obtain rfl := roster.apart r q ((live r).1 lives) isFree new
          exact hit isFree
      · apply Each.snoc doomed.silent
        intro i isUser
        cases isUser
  | @die p current exiting =>
    refine doomed.same (Nat.le_refl _) ?_ ?_ ?_
    · intro q lives killed
      exact doomed.exiting q ((roster.die_live current exiting).1 lives) killed
    · simp
    · simp
  | @reap p q current child dead =>
    refine doomed.same (Nat.le_refl _) ?_ ?_ ?_
    · intro r lives killed
      refine doomed.exiting r ?_ killed
      have other : r ≠ q := by
        rintro rfl
        exact lives (by simp [Ptable.reap])
      simpa [Procs.Live, Ptable.reap, other] using lives
    · simp
    · simp

theorem boot : Doomed [] Procs.boot := by
  refine ⟨?_, ?_, Each.nil⟩
  · intro i nobody
    cases nobody
  · intro p _ nobody
    cases nobody

/-- Kept by every step in which `kill` finds processes in `exit` only. -/
theorem step {op : ProcOp} (holds : Family seen s ∧ Doomed seen s) (found : op.Hits InExit s)
    (stepped : s.step op = some (s', obs)) : Family (seen ++ obs) s' ∧ Doomed (seen ++ obs) s' := by
  have effects : Effects InExit s s' obs := Procs.step_effects holds.1.roster.runs found stepped
  refine effects.keeps (I := fun seen s => Family seen s ∧ Doomed seen s) ?_ holds
  intro seen s s' obs now effect
  exact ⟨now.1.effect effect, now.2.effect now.1.roster effect⟩

end Doomed

/-- **A killed process does not run on in user mode**, in every run in which `kill` finds
processes in `exit` only. -/
theorem killed_not_in_user_mode (ops : List ProcOp) (z : Procs) (seen : List ProcObs)
    (ran : run Procs.step Procs.boot ops = some (z, seen))
    (found : Meets Procs.step (fun s op => op.Hits InExit s) Procs.boot ops) (i : Nat) :
    ¬ RunsOn seen i := by
  have holds := run_keeps_where (I := fun seen s => Family seen s ∧ Doomed seen s)
    (fun _ _ _ _ _ now met stepped => Doomed.step now met stepped) ops [] Procs.boot z seen
    ⟨Family.boot, Doomed.boot⟩ found ran
  obtain ⟨_, doomed⟩ : Family seen z ∧ Doomed seen z := holds
  rintro ⟨before, between, after, rest, split⟩
  refine doomed.silent _ _ rest split i rfl ?_
  simp

/-- A process that closes its files in `exit` is killed by its brother. -/
def killedInExit : List ProcOp :=
  [.schedule 0, .fork true true, .fork true true, .wait, .schedule 1, .exit, .sleep (.other 0),
    .schedule 2, .kill 2, .user]

theorem killed_not_in_user_mode_exiting : ∃ z seen,
    run Procs.step Procs.boot killedInExit = some (z, seen) ∧ .killed 2 ∈ seen ∧
      ¬ RunsOn seen 2 := by
  have shown : (run Procs.step Procs.boot killedInExit).map (fun r => decide (.killed 2 ∈ r.2)) =
      some true := by decide +kernel
  obtain ⟨⟨z, seen⟩, ran, killed⟩ := Option.map_eq_some_iff.1 shown
  exact ⟨z, seen, ran, of_decide_eq_true killed,
    killed_not_in_user_mode killedInExit z seen ran (by decide +kernel) 2⟩

/-- **A process that kills itself goes on**: it is killed, its system call returns, and the
next user instruction is executed. -/
theorem killed_runs_on : ∃ z seen,
    run Procs.step Procs.boot [.schedule 0, .fork true true, .wait, .schedule 1, .kill 2, .user] =
      some (z, seen) ∧ RunsOn seen 2 := by
  have shown : (run Procs.step Procs.boot [.schedule 0, .fork true true, .wait, .schedule 1, .kill 2,
      .user]).map (·.2) =
      some [.returned 1, .allocproc, .forked 1 2, .returned 1, .returned 2, .killed 2, .returned 2,
        .user 2] := by decide +kernel
  obtain ⟨⟨z, seen⟩, ran, rfl⟩ := Option.map_eq_some_iff.1 shown
  exact ⟨z, _, ran, [.returned 1, .allocproc, .forked 1 2, .returned 1, .returned 2], [], [], [], rfl⟩

end Xv6Rpi.Proc
