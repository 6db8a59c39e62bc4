/-
# Proc.Table -- the process table, sleeping and waking

The part of `proc.c` every blocking operation rests on: the fields of `struct proc` that
scheduling and `wait` read, `sleep`, `wakeup1` and `kill`.  There is one CPU and no
preemption inside the kernel, so a stretch of kernel code between two sleeps is one
step; the locks then exclude nothing more and are left out.

A channel is an address.  What matters of it is which object it belongs to.
-/
import Xv6Rpi.Kernel.State

namespace Xv6Rpi.Proc

open Theory Kernel

set_option autoImplicit false

/-- `enum procstate`. -/
inductive Procstate where
  | unused
  | embryo
  | sleeping
  | runnable
  | running
  | zombie
  deriving DecidableEq, Repr

/-- What a process sleeps on: a process (in `wait`), the two counters of the pipe, or
anything else. -/
inductive Chan where
  | proc (p : Pid)
  | nread
  | nwrite
  | other (a : Nat)
  deriving DecidableEq, Repr

/-- `struct proc`; `chan` is none for 0, and so is `parent`. -/
structure Entry where
  state : Procstate
  pid : Int
  parent : Option Pid
  chan : Option Chan
  killed : Bool
  deriving DecidableEq, Repr

/-- `ptable.proc`. -/
abbrev Ptable : Type := Pid → Entry

/-- A slot no process has used. -/
def Entry.zeroed : Entry := ⟨.unused, 0, none, none, false⟩

namespace Ptable

/-- Is process `p` sleeping on `chan`? -/
def Asleep (t : Ptable) (p : Pid) (chan : Chan) : Prop :=
  (t p).state = .sleeping ∧ (t p).chan = some chan

instance (t : Ptable) (p : Pid) (chan : Chan) : Decidable (t.Asleep p chan) :=
  inferInstanceAs (Decidable (_ ∧ _))

/-- Wake up all processes sleeping on `chan`. -/
def wakeup1 (t : Ptable) (chan : Chan) : Ptable := fun p =>
  if t.Asleep p chan then { t p with state := .runnable } else t p

/-- Go to sleep on `chan`: `sleep` up to its `sched`. -/
def sleep (t : Ptable) (p : Pid) (chan : Chan) : Ptable :=
  upd t p { t p with chan := some chan, state := .sleeping }

/-- The process is chosen to run, and `sleep` tidies up. -/
def awaken (t : Ptable) (p : Pid) : Ptable := upd t p { t p with chan := none, state := .running }

/-- The slot `kill` finds. -/
def find (t : Ptable) (pid : Int) : Option Pid := (List.finRange NPROC).find? fun p => (t p).pid == pid

/-- What `kill` does to the slot. -/
def strike (e : Entry) : Entry :=
  { e with killed := true, state := if e.state = .sleeping then .runnable else e.state }

/-- Kill the process with the given pid; `false` is -1. -/
def kill (t : Ptable) (pid : Int) : Ptable × Bool :=
  match t.find pid with
  | some p => (upd t p (strike (t p)), true)
  | none => (t, false)

/-! ## Who sleeps afterwards -/

variable {t : Ptable} {p q : Pid} {chan c : Chan}

/-- After a wakeup nobody sleeps on the channel, and no other sleeper is woken. -/
theorem asleep_wakeup1 : (t.wakeup1 chan).Asleep p c ↔ t.Asleep p c ∧ c ≠ chan := by
  unfold wakeup1 Asleep
  by_cases here : (t p).state = .sleeping ∧ (t p).chan = some chan
  · simp only [here, and_self, if_true, reduceCtorEq, false_and, false_iff, not_and, not_not,
      Option.some.injEq, true_and]
    exact fun same => same.symm
  · simp only [here, if_false]
    constructor
    · intro asleep
      refine ⟨asleep, ?_⟩
      rintro rfl
      exact here asleep
    · exact fun both => both.1

theorem asleep_sleep : (t.sleep p chan).Asleep q c ↔ if q = p then c = chan else t.Asleep q c := by
  unfold sleep Asleep
  by_cases same : q = p
  · subst same
    simp only [upd_same, true_and, Option.some.injEq, if_true]
    exact eq_comm
  · simp only [upd_ne _ _ same, same, if_false]

theorem asleep_awaken : (t.awaken p).Asleep q c ↔ q ≠ p ∧ t.Asleep q c := by
  unfold awaken Asleep
  by_cases same : q = p
  · subst same
    simp
  · simp [same]

/-- `kill` puts nobody to sleep. -/
theorem asleep_kill {pid : Int} (asleep : (t.kill pid).1.Asleep q c) : t.Asleep q c := by
  unfold kill at asleep
  cases found : t.find pid with
  | none =>
    rw [found] at asleep
    exact asleep
  | some p =>
    rw [found] at asleep
    obtain ⟨state, isChan⟩ := asleep
    by_cases same : q = p
    · subst same
      simp only [upd_same, strike] at state isChan
      split at state
      case isTrue => cases state
      case isFalse awake => exact absurd state awake
    · simp only [upd_ne _ _ same] at state isChan
      exact ⟨state, isChan⟩

end Ptable

end Xv6Rpi.Proc
