/-
# Theory.Frame -- what code leaves alone

`Fixes f x`: when the action `x` returns, `f` of the state is what it was, whatever else has
changed.  It is a class, and its instances take code apart, so that one instance for each
function is enough.  `Fixes.also` adds it to a specification.
-/
import Xv6Rpi.Theory.Action

namespace Xv6Rpi.Theory

set_option autoImplicit false

variable {S E V α β ι : Type}

/-- The contract that asks for nothing. -/
def Contract.free : Contract S E V where
  rest := fun _ => True
  fails := fun _ _ => True
  shows := fun _ _ => True
  given := fun _ => True

theorem Sat.and {C : Contract S E V} {Q R : α → S → Prop} {o : Outcome S E V α} (sat : Sat C Q o)
    (also : Sat Contract.free R o) : Sat C (fun a s => Q a s ∧ R a s) o := by
  induction o with
  | done a s => exact ⟨sat, also⟩
  | fail e s => exact sat
  | wait ready s k ih =>
    exact ⟨sat.1, fun s' rest isReady => ih s' (sat.2 s' rest isReady) (also.2 s' trivial isReady)⟩
  | event v s o ih => exact ⟨sat.1, fun given => ih (sat.2 given) (also.2 trivial)⟩

/-- The action leaves `f` of the state alone. -/
class Fixes (f : S → β) (x : Act S E V α) : Prop where
  sat : ∀ s, Sat Contract.free (fun _ s' => f s' = f s) (x s)

namespace Fixes

variable {f : S → β} {γ : Type}

/-- A specification, with what the action leaves alone. -/
theorem also {C : Contract S E V} {Q : α → S → Prop} {x : Act S E V α} {s : S} [fixes : Fixes f x]
    (sat : Sat C Q (x s)) : Sat C (fun a s' => Q a s' ∧ f s' = f s) (x s) :=
  sat.and (fixes.sat s)

instance pure (a : α) : Fixes f (Pure.pure a : Act S E V α) := ⟨fun _ => rfl⟩

instance bind {x : Act S E V α} {k : α → Act S E V γ} [first : Fixes f x] [second : ∀ a, Fixes f (k a)] :
    Fixes f (x >>= k) where
  sat s := (first.sat s).seq fun a s' same => by
    refine ((second a).sat s').mono fun b s'' same' => ?_
    exact same'.trans same

instance get : Fixes f (Act.get : Act S E V S) := ⟨fun _ => rfl⟩

instance fail (e : E) : Fixes f (Act.fail e : Act S E V α) := ⟨fun _ => trivial⟩

instance failIf (c : Bool) (e : E) : Fixes f (Act.failIf c e : Act S E V Unit) where
  sat s := by
    cases c with
    | true => exact trivial
    | false => rfl

instance runIf (c : Bool) (x : Act S E V Unit) [body : Fixes f x] : Fixes f (Act.runIf c x) where
  sat s := by
    cases c with
    | true => exact body.sat s
    | false => rfl

instance emit (v : V) : Fixes f (Act.emit v : Act S E V Unit) := ⟨fun _ => ⟨trivial, fun _ => rfl⟩⟩

instance ite (c : Prop) [Decidable c] (x y : Act S E V α) [yes : Fixes f x] [no : Fixes f y] :
    Fixes f (if c then x else y) := by
  split
  · exact yes
  · exact no

instance forEach (g : ι → Act S E V Unit) [body : ∀ i, Fixes f (g i)] (l : List ι) :
    Fixes f (Act.forEach g l) := by
  induction l with
  | nil => exact pure ()
  | cons i l ih => exact bind

end Fixes

end Xv6Rpi.Theory
