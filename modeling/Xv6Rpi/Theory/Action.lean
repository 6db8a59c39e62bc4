/-
# Theory.Action -- resumable code, its outcomes, and contracts for them

Code that runs on a shared state until it finishes, fails, or goes to sleep is
an action `S → Outcome`.  An outcome is a tree: `done` and `fail` are its ends,
`wait` is a sleep (the code is resumed in some later state that is `ready`), and
`event` shows something to an observer and goes on.  The tree is finite, so
every property of a run is an induction on it.

A `Contract` says what the code owes and what it may assume: what holds whenever
it sleeps (`rest`), which failures are allowed (`fails`), what every event
satisfies (`shows`), and which events the surroundings promise (`given`).
`Sat C Q o` is the weakest precondition of the tree `o` under `C` for the result
`Q`.  The rules are

* `sat_bind_iff`, `Sat.seq`: sequencing;
* `Sat.mono`: consequence in the result;
* `Sat.leaf`: what a satisfied outcome's last leaf satisfies, given its events.
-/
import Mathlib.Tactic.Common

namespace Xv6Rpi.Theory

set_option autoImplicit false

/-- The outcome of resumable code over states `S`, failures `E`, events `V`. -/
inductive Outcome (S E V α : Type) where
  | done (a : α) (s : S)
  | fail (e : E) (s : S)
  | wait (ready : S → Bool) (s : S) (k : S → Outcome S E V α)
  | event (v : V) (s : S) (o : Outcome S E V α)

/-- An action runs from a state to an outcome. -/
def Act (S E V α : Type) : Type := S → Outcome S E V α

variable {S E V α β : Type}

namespace Outcome

def bind : Outcome S E V α → (α → S → Outcome S E V β) → Outcome S E V β
  | .done a s, f => f a s
  | .fail e s, _ => .fail e s
  | .wait ready s k, f => .wait ready s fun s' => (k s').bind f
  | .event v s o, f => .event v s (o.bind f)

/-- The events an outcome shows before its leaf, each with the state it left. -/
def trace : Outcome S E V α → List (V × S)
  | .event v s o => (v, s) :: o.trace
  | _ => []

/-- The outcome with its events taken off: a `done`, a `fail` or a `wait`. -/
def leaf : Outcome S E V α → Outcome S E V α
  | .event _ _ o => o.leaf
  | o => o

/-- The state in which the outcome's leaf stands. -/
def final : Outcome S E V α → S
  | .done _ s => s
  | .fail _ s => s
  | .wait _ s _ => s
  | .event _ _ o => o.final

/-- The value of an outcome that runs to its end. -/
def value? : Outcome S E V α → Option α
  | .done a _ => some a
  | .event _ _ o => o.value?
  | _ => none

/-- The failure an outcome ends in. -/
def failure? : Outcome S E V α → Option E
  | .fail e _ => some e
  | .event _ _ o => o.failure?
  | _ => none

/-- The outcome of code for one part of a larger state. -/
def zoom {T : Type} (part : T → S) (put : S → T → T) : Outcome S E V α → T → Outcome T E V α
  | .done a s, t => .done a (put s t)
  | .fail e s, t => .fail e (put s t)
  | .wait ready s k, t =>
    .wait (fun t' => ready (part t')) (put s t) fun t' => (k (part t')).zoom part put t'
  | .event v s o, t => .event v (put s t) (o.zoom part put t)

theorem leaf_of_value? {o : Outcome S E V α} {a : α} (returned : o.value? = some a) :
    o.leaf = .done a o.final := by
  induction o with
  | done b s =>
    obtain rfl := Option.some.inj returned
    rfl
  | fail e s => cases returned
  | wait ready s k _ => cases returned
  | event v s o ih => exact ih returned

/-- The outcome ends with a value and a state that pass a test. -/
def passes (o : Outcome S E V α) (test : α → S → Bool) : Bool :=
  match o.leaf with
  | .done a s => test a s
  | _ => false

theorem exists_of_passes {o : Outcome S E V α} {test : α → S → Bool} (works : o.passes test = true) :
    ∃ a s, o.leaf = .done a s ∧ test a s = true := by
  unfold passes at works
  split at works
  · exact ⟨_, _, by assumption, works⟩
  · cases works

end Outcome

namespace Act

instance : Monad (Act S E V) where
  pure a := fun s => .done a s
  bind x f := fun s => (x s).bind f

def get : Act S E V S := fun s => .done s s

def modify (f : S → S) : Act S E V Unit := fun s => .done () (f s)

def fail (e : E) : Act S E V α := fun s => .fail e s

/-- Fail on a condition. -/
def failIf (c : Bool) (e : E) : Act S E V Unit := fun s => if c then .fail e s else .done () s

/-- Run `x` on a condition. -/
def runIf (c : Bool) (x : Act S E V Unit) : Act S E V Unit := fun s =>
  if c then x s else .done () s

/-- Sleep until `ready` holds; go on at once when it holds already. -/
def await (ready : S → Bool) : Act S E V Unit := fun s =>
  if ready s then .done () s else .wait ready s fun s' => .done () s'

/-- Run `f` on the members of a list, in order. -/
def forEach {ι : Type} (f : ι → Act S E V Unit) : List ι → Act S E V Unit
  | [] => pure ()
  | i :: l => do
      f i
      forEach f l

/-- Show `v` to the observer. -/
def emit (v : V) : Act S E V Unit := fun s => .event v s (.done () s)

@[simp] theorem pure_apply (a : α) (s : S) : (pure a : Act S E V α) s = .done a s := rfl

@[simp] theorem bind_apply (x : Act S E V α) (f : α → Act S E V β) (s : S) :
    (x >>= f) s = (x s).bind fun a s' => f a s' := rfl

@[simp] theorem get_apply (s : S) : (get : Act S E V S) s = .done s s := rfl

@[simp] theorem modify_apply (f : S → S) (s : S) :
    (modify f : Act S E V Unit) s = .done () (f s) := rfl

@[simp] theorem emit_apply (v : V) (s : S) :
    (emit v : Act S E V Unit) s = .event v s (.done () s) := rfl

@[simp] theorem failIf_false (e : E) (s : S) :
    (failIf false e : Act S E V Unit) s = .done () s := rfl

@[simp] theorem failIf_true (e : E) (s : S) :
    (failIf true e : Act S E V Unit) s = .fail e s := rfl

@[simp] theorem runIf_false (x : Act S E V Unit) (s : S) : runIf false x s = .done () s := rfl

@[simp] theorem runIf_true (x : Act S E V Unit) (s : S) : runIf true x s = x s := rfl

theorem await_of_ready (ready : S → Bool) {s : S} (isReady : ready s = true) :
    (await ready : Act S E V Unit) s = .done () s := by
  simp [await, isReady]

/-- Run code for one part of a larger state. -/
def zoom {T : Type} (part : T → S) (put : S → T → T) (x : Act S E V α) : Act T E V α := fun t =>
  (x (part t)).zoom part put t

end Act

@[simp] theorem Outcome.done_bind (a : α) (s : S) (f : α → S → Outcome S E V β) :
    (Outcome.done a s : Outcome S E V α).bind f = f a s := rfl

@[simp] theorem Outcome.fail_bind (e : E) (s : S) (f : α → S → Outcome S E V β) :
    (Outcome.fail e s : Outcome S E V α).bind f = .fail e s := rfl

@[simp] theorem Outcome.event_bind (v : V) (s : S) (o : Outcome S E V α)
    (f : α → S → Outcome S E V β) :
    (Outcome.event v s o).bind f = .event v s (o.bind f) := rfl

/-- A sequence returns if both parts do. -/
theorem Outcome.leaf_bind_done_iff {o : Outcome S E V α} {f : α → S → Outcome S E V β} {b : β} {s' : S} :
    (o.bind f).leaf = .done b s' ↔ ∃ a s, o.leaf = .done a s ∧ (f a s).leaf = .done b s' := by
  induction o with
  | done a s =>
    constructor
    · exact fun returned => ⟨a, s, rfl, returned⟩
    · rintro ⟨a', s1, first, second⟩
      cases first
      exact second
  | fail e s => exact ⟨fun never => (nomatch never), fun ⟨_, _, never, _⟩ => (nomatch never)⟩
  | wait ready s k _ => exact ⟨fun never => (nomatch never), fun ⟨_, _, never, _⟩ => (nomatch never)⟩
  | event v s o ih => exact ih

/-- Code for a part of the state returns what it returns by itself. -/
theorem Outcome.leaf_zoom_done {T : Type} {part : T → S} {put : S → T → T} {o : Outcome S E V α} {t t' : T}
    {a : α} (returned : (o.zoom part put t).leaf = .done a t') :
    ∃ s, o.leaf = .done a s ∧ t' = put s t := by
  induction o with
  | done b s =>
    cases returned
    exact ⟨s, rfl, rfl⟩
  | fail e s => cases returned
  | wait ready s k _ => cases returned
  | event v s o ih => exact ih returned

/-- What code owes its surroundings, and what it may assume of them. -/
structure Contract (S E V : Type) where
  /-- Holds whenever the code sleeps, and again whenever it is resumed. -/
  rest : S → Prop
  /-- The failures the code is allowed. -/
  fails : E → S → Prop
  /-- Holds of every event the code shows, in the state right after it. -/
  shows : V → S → Prop
  /-- The events after which the code is still answerable for what it does. -/
  given : V → Prop

/-- The outcome keeps the contract and ends, if it ends, in `Q`. -/
def Sat (C : Contract S E V) (Q : α → S → Prop) : Outcome S E V α → Prop
  | .done a s => Q a s
  | .fail e s => C.fails e s
  | .wait ready s k => C.rest s ∧ ∀ s', C.rest s' → ready s' = true → Sat C Q (k s')
  | .event v s o => C.shows v s ∧ (C.given v → Sat C Q o)

section Rules

variable {C : Contract S E V}

@[simp] theorem sat_done {Q : α → S → Prop} {a : α} {s : S} :
    Sat C Q (.done a s : Outcome S E V α) ↔ Q a s := Iff.rfl

theorem Sat.mono {Q R : α → S → Prop} {o : Outcome S E V α} (sat : Sat C Q o)
    (imp : ∀ a s, Q a s → R a s) : Sat C R o := by
  induction o with
  | done a s => exact imp a s sat
  | fail e s => exact sat
  | wait ready s k ih => exact ⟨sat.1, fun s' rest isReady => ih s' (sat.2 s' rest isReady)⟩
  | event v s o ih => exact ⟨sat.1, fun given => ih (sat.2 given)⟩

theorem sat_bind_iff {Q : β → S → Prop} (o : Outcome S E V α)
    (f : α → S → Outcome S E V β) :
    Sat C Q (o.bind f) ↔ Sat C (fun a s => Sat C Q (f a s)) o := by
  induction o with
  | done a s => exact Iff.rfl
  | fail e s => exact Iff.rfl
  | wait ready s k ih =>
    constructor
    · exact fun sat => ⟨sat.1, fun s' rest isReady => (ih s').1 (sat.2 s' rest isReady)⟩
    · exact fun sat => ⟨sat.1, fun s' rest isReady => (ih s').2 (sat.2 s' rest isReady)⟩
  | event v s o ih =>
    constructor
    · exact fun sat => ⟨sat.1, fun given => ih.1 (sat.2 given)⟩
    · exact fun sat => ⟨sat.1, fun given => ih.2 (sat.2 given)⟩

/-- Sequencing: the first action's result is all the second one knows. -/
theorem Sat.seq {P : α → S → Prop} {Q : β → S → Prop} {x : Act S E V α}
    {f : α → Act S E V β} {s : S} (first : Sat C P (x s))
    (second : ∀ a s', P a s' → Sat C Q (f a s')) : Sat C Q ((x >>= f) s) := by
  rw [Act.bind_apply, sat_bind_iff]
  exact first.mono second

/-- Calling an action with its continuation as the postcondition. -/
theorem Sat.call {Q : β → S → Prop} {x : Act S E V α} {f : α → Act S E V β} {s : S}
    (first : Sat C (fun a s' => Sat C Q (f a s')) (x s)) : Sat C Q ((x >>= f) s) := by
  rw [Act.bind_apply, sat_bind_iff]
  exact first

/-- An action that simply returns hands its state on. -/
theorem Sat.step {Q : β → S → Prop} {x : Act S E V α} {f : α → Act S E V β} {s s' : S} {a : α}
    (eq : x s = .done a s') (next : Sat C Q (f a s')) : Sat C Q ((x >>= f) s) := by
  rw [Act.bind_apply, eq]
  exact next

/-- An action that shows one event and returns. -/
theorem Sat.event {Q : β → S → Prop} {x : Act S E V α} {f : α → Act S E V β} {s s' : S} {a : α}
    {v : V} (eq : x s = .event v s' (.done a s')) (shown : C.shows v s')
    (next : C.given v → Sat C Q (f a s')) : Sat C Q ((x >>= f) s) := by
  rw [Act.bind_apply, eq]
  exact ⟨shown, next⟩

theorem Sat.failIf {Q : α → S → Prop} {c : Bool} {e : E} {f : Unit → Act S E V α} {s : S}
    (bad : c = true → C.fails e s) (good : c = false → Sat C Q (f () s)) :
    Sat C Q ((Act.failIf c e >>= f) s) := by
  cases c with
  | true => exact bad rfl
  | false => exact good rfl

theorem Sat.runIf {Q : α → S → Prop} {c : Bool} {x : Act S E V Unit} {f : Unit → Act S E V α}
    {s : S} (yes : c = true → Sat C Q ((x >>= f) s)) (no : c = false → Sat C Q (f () s)) :
    Sat C Q ((Act.runIf c x >>= f) s) := by
  cases c with
  | true => exact yes rfl
  | false => exact no rfl

/-- The loop rule: `I l` holds when the members of `l` are still to be done. -/
theorem Sat.forEach {ι : Type} {f : ι → Act S E V Unit} {I : List ι → S → Prop}
    (body : ∀ i l s, I (i :: l) s → Sat C (fun _ s' => I l s') (f i s)) :
    ∀ (l : List ι) (s : S), I l s → Sat C (fun _ s' => I [] s') (Act.forEach f l s) := by
  intro l
  induction l with
  | nil => exact fun s holds => holds
  | cons i l ih => exact fun s holds => (body i l s holds).seq fun _ s' holds' => ih s' holds'

/-- Code for a part of the state leaves the rest of it alone. -/
theorem Sat.zoom {T : Type} {part : T → S} (put : S → T → T) {D : Contract T E V}
    {Q : α → S → Prop} {o : Outcome S E V α} {t : T} (sat : Sat C Q o)
    (awake : ∀ s, ¬ C.rest s) (fails : ∀ e s, C.fails e s → D.fails e (put s t))
    (shows : ∀ v s, C.shows v s → D.shows v (put s t)) (given : ∀ v, D.given v → C.given v) :
    Sat D (fun a t' => ∃ s, t' = put s t ∧ Q a s) (o.zoom part put t) := by
  induction o with
  | done a s => exact ⟨s, rfl, sat⟩
  | fail e s => exact fails e s sat
  | wait ready s k _ => exact absurd sat.1 (awake s)
  | event v s o ih => exact ⟨shows v s sat.1, fun isGiven => ih (sat.2 (given v isGiven))⟩

/-- The leaf of a satisfied outcome satisfies it alone, when every event it
shows is given. -/
theorem Sat.leaf {Q : α → S → Prop} {o : Outcome S E V α} (sat : Sat C Q o)
    (given : ∀ v ∈ o.trace, C.given v.1) : Sat C Q o.leaf := by
  induction o with
  | done a s => exact sat
  | fail e s => exact sat
  | wait ready s k _ => exact sat
  | event v s o ih =>
    have here : C.given v := given (v, s) List.mem_cons_self
    exact ih (sat.2 here) fun w member => given w (List.mem_cons_of_mem _ member)

/-- The contract of code that may neither fail nor sleep. -/
def Contract.total : Contract S E V where
  rest := fun _ => False
  fails := fun _ _ => False
  shows := fun _ _ => True
  given := fun _ => True

/-- Such code returns. -/
theorem Sat.returns {Q : α → S → Prop} {o : Outcome S E V α} (sat : Sat Contract.total Q o) :
    ∃ a s, o.leaf = .done a s ∧ Q a s := by
  induction o with
  | done a s => exact ⟨a, s, rfl, sat⟩
  | fail e s => exact absurd sat id
  | wait ready s k _ => exact absurd sat.1 id
  | event v s o ih => exact ih (sat.2 trivial)

/-- Code that never sleeps ends in its result or in a failure that is allowed. -/
theorem Sat.ends {Q : α → S → Prop} {o : Outcome S E V α} (sat : Sat C Q o)
    (awake : ∀ s, ¬ C.rest s) (given : ∀ v, C.given v) :
    (∃ a, o.leaf = .done a o.final ∧ o.value? = some a ∧ Q a o.final) ∨
      ∃ e, o.leaf = .fail e o.final ∧ o.value? = none ∧ C.fails e o.final := by
  induction o with
  | done a s => exact Or.inl ⟨a, rfl, rfl, sat⟩
  | fail e s => exact Or.inr ⟨e, rfl, rfl, sat⟩
  | wait ready s k _ => exact absurd sat.1 (awake s)
  | event v s o ih => exact ih (sat.2 (given v))

/-- Code that can end in no way at all shows an event that is not given. -/
theorem Sat.exposed {Q : α → S → Prop} {o : Outcome S E V α} (sat : Sat C Q o)
    (noResult : ∀ a s, ¬ Q a s) (noFail : ∀ e s, ¬ C.fails e s) (noRest : ∀ s, ¬ C.rest s) :
    ∃ e ∈ o.trace, C.shows e.1 e.2 ∧ ¬ C.given e.1 := by
  induction o with
  | done a s => exact absurd sat (noResult a s)
  | fail e s => exact absurd sat (noFail e s)
  | wait ready s k _ => exact absurd sat.1 (noRest s)
  | event v s o ih =>
    by_cases given : C.given v
    · obtain ⟨e, member, shown⟩ := ih (sat.2 given)
      exact ⟨e, List.mem_cons_of_mem _ member, shown⟩
    · exact ⟨(v, s), List.mem_cons_self, sat.1, given⟩

/-- Every event of a satisfied outcome is shown as the contract says, as long as
the events before it are given. -/
theorem Sat.shows {Q : α → S → Prop} {o : Outcome S E V α} (sat : Sat C Q o)
    {before after : List (V × S)} {v : V × S} (split : o.trace = before ++ v :: after)
    (given : ∀ w ∈ before, C.given w.1) : C.shows v.1 v.2 := by
  induction o generalizing before with
  | done a s => simp [Outcome.trace] at split
  | fail e s => simp [Outcome.trace] at split
  | wait ready s k _ => simp [Outcome.trace] at split
  | event w s o ih =>
    cases before with
    | nil =>
      obtain ⟨rfl, -⟩ : (w, s) = v ∧ o.trace = after := by
        simpa [Outcome.trace] using split
      exact sat.1
    | cons u before =>
      obtain ⟨rfl, rest⟩ : (w, s) = u ∧ o.trace = before ++ v :: after := by
        simpa [Outcome.trace] using split
      have here : C.given w := given (w, s) List.mem_cons_self
      exact ih (sat.2 here) rest fun x member => given x (List.mem_cons_of_mem _ member)

end Rules

/-! ## Watching the events of a run

An observer keeps a value `g`, advances it at every event, and checks each event
against the value after it.  Failures and sleeps are nothing to it. -/

section Watching

variable {G : Type} {next : G → V → G} {check : G → V → S → Prop}

def Watch (next : G → V → G) (check : G → V → S → Prop) (Q : G → α → S → Prop) :
    G → Outcome S E V α → Prop
  | g, .done a s => Q g a s
  | _, .fail _ _ => True
  | _, .wait _ _ _ => True
  | g, .event v s o => check (next g v) v s ∧ Watch next check Q (next g v) o

theorem Watch.mono {P Q : G → α → S → Prop} {g : G} {o : Outcome S E V α}
    (watched : Watch next check P g o) (imp : ∀ g a s, P g a s → Q g a s) :
    Watch next check Q g o := by
  induction o generalizing g with
  | done a s => exact imp g a s watched
  | fail e s => exact trivial
  | wait ready s k _ => exact trivial
  | event v s o ih => exact ⟨watched.1, ih watched.2⟩

theorem Watch.seq {P : G → α → S → Prop} {Q : G → β → S → Prop} {x : Act S E V α}
    {f : α → Act S E V β} {g : G} {s : S} (first : Watch next check P g (x s))
    (second : ∀ g' a s', P g' a s' → Watch next check Q g' (f a s')) :
    Watch next check Q g ((x >>= f) s) := by
  rw [Act.bind_apply]
  generalize x s = o at first
  induction o generalizing g with
  | done a s => exact second g a s first
  | fail e s => exact trivial
  | wait ready s k _ => exact trivial
  | event v s o ih => exact ⟨first.1, ih first.2⟩

/-- A satisfied outcome whose events leave the observer's value alone. -/
theorem Sat.watch {C : Contract S E V} {Q : α → S → Prop} {g : G} {o : Outcome S E V α}
    (sat : Sat C Q o) (accepts : ∀ v s, C.shows v s → C.given v ∧ next g v = g ∧ check g v s) :
    Watch next check (fun g' a s => g' = g ∧ Q a s) g o := by
  induction o with
  | done a s => exact ⟨rfl, sat⟩
  | fail e s => exact trivial
  | wait ready s k _ => exact trivial
  | event v s o ih =>
    obtain ⟨given, same, checked⟩ := accepts v s sat.1
    refine ⟨?_, ?_⟩
    · rw [same]
      exact checked
    · rw [same]
      exact ih (sat.2 given)

/-- What the observer knows at every point of the run: right after each event. -/
theorem Watch.atEvent {Q : G → α → S → Prop} {g : G} {o : Outcome S E V α}
    (watched : Watch next check Q g o) {before after : List (V × S)} {v : V × S}
    (split : o.trace = before ++ v :: after) :
    check ((before ++ [v]).foldl (fun g w => next g w.1) g) v.1 v.2 := by
  induction o generalizing g before with
  | done a s => simp [Outcome.trace] at split
  | fail e s => simp [Outcome.trace] at split
  | wait ready s k _ => simp [Outcome.trace] at split
  | event w s o ih =>
    cases before with
    | nil =>
      obtain ⟨rfl, -⟩ : (w, s) = v ∧ o.trace = after := by
        simpa [Outcome.trace] using split
      exact watched.1
    | cons u before =>
      obtain ⟨rfl, rest⟩ : (w, s) = u ∧ o.trace = before ++ v :: after := by
        simpa [Outcome.trace] using split
      exact ih watched.2 rest

end Watching

end Xv6Rpi.Theory
