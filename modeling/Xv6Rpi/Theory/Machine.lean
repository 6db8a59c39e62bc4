/-
# Theory.Machine -- runs of a partial step function, with what they show

A machine is a step function that may refuse an operation and otherwise gives the
next state and the observations made on the way.  `run` feeds it a list of
operations.  `run_keeps_where` is the one induction all run results use: a property of
the state together with everything observed so far, kept by every step that meets a
condition, holds at the end of every run whose steps all meet it.

`Each` says of every observation what held of those before it.
-/
import Mathlib.Tactic.Common

namespace Xv6Rpi.Theory.Machine

set_option autoImplicit false

variable {State Op Obs : Type}

/-- Run a list of operations; the observations come in order. -/
def run (step : State → Op → Option (State × List Obs)) :
    State → List Op → Option (State × List Obs)
  | s, [] => some (s, [])
  | s, op :: ops =>
    match step s op with
    | none => none
    | some (s', seen) => (run step s' ops).map fun r => (r.1, seen ++ r.2)

variable {step : State → Op → Option (State × List Obs)}

theorem run_cons {s z : State} {op : Op} {ops : List Op} {seen : List Obs}
    (ran : run step s (op :: ops) = some (z, seen)) :
    ∃ s' first rest, step s op = some (s', first) ∧ run step s' ops = some (z, rest) ∧
      seen = first ++ rest := by
  rw [run] at ran
  cases stepped : step s op with
  | none =>
    rw [stepped] at ran
    cases ran
  | some r =>
    rw [stepped] at ran
    obtain ⟨⟨z', rest⟩, ranRest, same⟩ := Option.map_eq_some_iff.1 ran
    obtain ⟨rfl, rfl⟩ := Prod.mk.injEq .. ▸ same
    exact ⟨r.1, r.2, rest, rfl, ranRest, rfl⟩

/-- Every step of the run that is taken meets a condition on the state before it. -/
def Meets (step : State → Op → Option (State × List Obs)) (cond : State → Op → Prop) :
    State → List Op → Prop
  | _, [] => True
  | s, op :: ops => cond s op ∧ ∀ s' seen, step s op = some (s', seen) → Meets step cond s' ops

/-- A condition that can be decided can be decided along a run. -/
instance decidableMeets {cond : State → Op → Prop} [decided : ∀ s op, Decidable (cond s op)] :
    ∀ (s : State) (ops : List Op), Decidable (Meets step cond s ops)
  | _, [] => .isTrue trivial
  | s, op :: ops =>
    match stepped : step s op with
    | none => decidable_of_iff (cond s op)
        ⟨fun met => ⟨met, fun _ _ taken => by rw [stepped] at taken; cases taken⟩, fun met => met.1⟩
    | some r =>
      have : Decidable (Meets step cond r.1 ops) := decidableMeets r.1 ops
      decidable_of_iff (cond s op ∧ Meets step cond r.1 ops)
        ⟨fun met => ⟨met.1, fun s' seen taken => by
            rw [stepped] at taken; cases taken; exact met.2⟩,
          fun met => ⟨met.1, met.2 r.1 r.2 stepped⟩⟩

/-- **The invariant rule**, for runs whose steps meet a condition. -/
theorem run_keeps_where {cond : State → Op → Prop} {I : List Obs → State → Prop}
    (keeps : ∀ seen s op s' more, I seen s → cond s op → step s op = some (s', more) →
      I (seen ++ more) s') :
    ∀ (ops : List Op) (seen : List Obs) (s z : State) (more : List Obs), I seen s →
      Meets step cond s ops → run step s ops = some (z, more) → I (seen ++ more) z := by
  intro ops
  induction ops with
  | nil =>
    intro seen s z more holds _ ran
    obtain ⟨rfl, rfl⟩ := Prod.mk.injEq .. ▸ Option.some.inj ran
    simpa using holds
  | cons op ops ih =>
    intro seen s z more holds meets ran
    obtain ⟨s', first, rest, stepped, ranRest, rfl⟩ := run_cons ran
    rw [← List.append_assoc]
    have now := keeps seen s op s' first holds meets.1 stepped
    exact ih (seen ++ first) s' z rest now (meets.2 s' first stepped) ranRest

theorem meets_true (s : State) (ops : List Op) : Meets step (fun _ _ => True) s ops := by
  induction ops generalizing s with
  | nil => exact trivial
  | cons op ops ih => exact ⟨trivial, fun s' _ _ => ih s'⟩

theorem meets_mono {cond cond' : State → Op → Prop} (weaker : ∀ s op, cond s op → cond' s op)
    {s : State} {ops : List Op} (meets : Meets step cond s ops) : Meets step cond' s ops := by
  induction ops generalizing s with
  | nil => exact trivial
  | cons op ops ih => exact ⟨weaker s op meets.1, fun s' seen taken => ih (meets.2 s' seen taken)⟩

/-- The invariant rule. -/
theorem run_keeps {I : List Obs → State → Prop}
    (keeps : ∀ seen s op s' more, I seen s → step s op = some (s', more) → I (seen ++ more) s')
    (ops : List Op) (seen : List Obs) (s z : State) (more : List Obs) (holds : I seen s)
    (ran : run step s ops = some (z, more)) : I (seen ++ more) z :=
  run_keeps_where (fun seen s op s' more holds _ stepped => keeps seen s op s' more holds stepped)
    ops seen s z more holds (meets_true s ops) ran

/-! ## Observations in order -/

/-- Every observation is in order, given those before it. -/
def Each (P : List Obs → Obs → Prop) (seen : List Obs) : Prop :=
  ∀ before o after, seen = before ++ o :: after → P before o

variable {P : List Obs → Obs → Prop} {seen more : List Obs}

theorem Each.nil : Each P [] := by
  intro before o after split
  simp at split

theorem Each.append (each : Each P seen)
    (new : ∀ before o after, more = before ++ o :: after → P (seen ++ before) o) :
    Each P (seen ++ more) := by
  intro before o after split
  rcases List.append_eq_append_iff.1 split with ⟨between, rfl, rest⟩ | ⟨between, rfl, rest⟩
  · exact new between o after rest
  · cases between with
    | nil => simpa using new [] o after (by simpa using rest.symm)
    | cons o' between =>
      obtain ⟨rfl, rfl⟩ := List.cons.inj rest
      exact each before o between rfl

theorem Each.snoc {o : Obs} (each : Each P seen) (new : P seen o) : Each P (seen ++ [o]) := by
  apply each.append
  intro before o' after split
  obtain ⟨rfl, same⟩ : before = [] ∧ o' = o := by
    rcases before with - | ⟨x, before⟩
    · simp at split
      exact ⟨rfl, split.1.symm⟩
    · simp at split
  subst same
  simpa using new

end Xv6Rpi.Theory.Machine
