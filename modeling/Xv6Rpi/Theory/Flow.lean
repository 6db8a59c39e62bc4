/-
# Theory.Flow -- the shape of a program over some primitives

A `Flow` is a program of which only the primitives of interest are kept: branches and loops
are taken or not, and a value is picked, as the surroundings decide.

* `wp`: the weakest precondition of a flow, given that of the primitives, over any type of
  states (which may be abstract ones);
* `Keeps A c`: the flow can be run from the states of `A` and leaves each of them as it was;
* `Weighs w c n`: whichever way through the flow is taken, the weights of the primitives on
  it add up to `n`; `Balanced w c` if to zero.

`Keeps` and `Balanced` are classes.  Their instances take a flow apart, so that one instance
for each function is enough.
-/
import Mathlib.Algebra.Group.Int.Defs
import Mathlib.Tactic.Common

namespace Xv6Rpi.Theory

set_option autoImplicit false

/-- A program over primitives `P`, which may pick values of `ι`. -/
inductive Flow (P ι : Type) where
  | skip
  | prim (p : P)
  | seq (a b : Flow P ι)
  | choice (a b : Flow P ι)
  | loop (body : Flow P ι)
  | forever (body : Flow P ι)
  | any (f : ι → Flow P ι)

namespace Flow

variable {P ι : Type}

/-- One after the other. -/
def block (l : List (Flow P ι)) : Flow P ι := l.foldr .seq .skip

/-- Do it, or not. -/
def opt (c : Flow P ι) : Flow P ι := .choice .skip c

/-- One of several. -/
def oneOf : List (Flow P ι) → Flow P ι
  | [] => .skip
  | [c] => c
  | c :: l => .choice c (oneOf l)

/-! ## Preconditions -/

section Wp

variable {S : Type} (pre : P → (S → Prop) → S → Prop)

def wp : Flow P ι → (S → Prop) → S → Prop
  | .skip, Q, s => Q s
  | .prim p, Q, s => pre p Q s
  | .seq a b, Q, s => wp a (wp b Q) s
  | .choice a b, Q, s => wp a Q s ∧ wp b Q s
  | .loop body, Q, s => ∃ I : S → Prop, I s ∧ ∀ t, I t → Q t ∧ wp body I t
  | .forever body, _, s => ∃ I : S → Prop, I s ∧ ∀ t, I t → wp body I t
  | .any f, Q, s => ∀ i, wp (f i) Q s

variable {pre} {Q R : S → Prop} {s : S} {A B : S → Prop} {a b c : Flow P ι}

theorem wp_mono (mono : ∀ p (Q R : S → Prop) s, (∀ t, Q t → R t) → pre p Q s → pre p R s)
    (weaker : ∀ t, Q t → R t) (holds : wp pre c Q s) : wp pre c R s := by
  induction c generalizing Q R s with
  | skip => exact weaker s holds
  | prim p => exact mono p Q R s weaker holds
  | seq a b iha ihb => exact iha (fun t => ihb weaker) holds
  | choice a b iha ihb => exact ⟨iha weaker holds.1, ihb weaker holds.2⟩
  | loop body _ =>
    obtain ⟨I, start, step⟩ := holds
    exact ⟨I, start, fun t inv => ⟨weaker t (step t inv).1, (step t inv).2⟩⟩
  | forever body _ => exact holds
  | any f ih => exact fun i => ih i weaker (holds i)

/-- A loop is left, or its body is run and the loop comes again. -/
theorem wp_loop (mono : ∀ p (Q R : S → Prop) s, (∀ t, Q t → R t) → pre p Q s → pre p R s)
    (holds : wp pre (.loop c) Q s) : Q s ∧ wp pre c (wp pre (.loop c) Q) s := by
  obtain ⟨I, start, step⟩ := holds
  refine ⟨(step s start).1, wp_mono mono (fun t inv => ?_) (step s start).2⟩
  exact ⟨I, inv, step⟩

theorem wp_forever (mono : ∀ p (Q R : S → Prop) s, (∀ t, Q t → R t) → pre p Q s → pre p R s)
    (holds : wp pre (.forever c) Q s) : wp pre c (wp pre (.forever c) Q) s := by
  obtain ⟨I, start, step⟩ := holds
  exact wp_mono mono (fun t inv => ⟨I, inv, step⟩) (step s start)

@[simp] theorem wp_block_nil : wp pre (block ([] : List (Flow P ι))) Q s ↔ Q s := Iff.rfl

@[simp] theorem wp_block_cons (l : List (Flow P ι)) :
    wp pre (block (c :: l)) Q s ↔ wp pre c (wp pre (block l) Q) s := Iff.rfl

theorem wp_block_append (l m : List (Flow P ι)) :
    wp pre (block (l ++ m)) Q s ↔ wp pre (block l) (wp pre (block m) Q) s := by
  suffices equal : wp pre (block (l ++ m)) Q = wp pre (block l) (wp pre (block m) Q) by rw [equal]
  induction l with
  | nil => rfl
  | cons c l ih =>
    show wp pre c (wp pre (block (l ++ m)) Q) = _
    rw [ih]
    rfl

variable (pre) in
/-- The flow can be run from the states of `A`, and changes none of them. -/
class Keeps (A : S → Prop) (c : Flow P ι) : Prop where
  wp : ∀ Q s, A s → Q s → wp pre c Q s

namespace Keeps

instance skip : Keeps pre A (.skip : Flow P ι) := ⟨fun _ _ _ holds => holds⟩

instance seq [first : Keeps pre A a] [second : Keeps pre A b] : Keeps pre A (.seq a b) :=
  ⟨fun Q s inA holds => first.wp _ s inA (second.wp Q s inA holds)⟩

instance choice [left : Keeps pre A a] [right : Keeps pre A b] : Keeps pre A (.choice a b) :=
  ⟨fun Q s inA holds => ⟨left.wp Q s inA holds, right.wp Q s inA holds⟩⟩

instance loop [body : Keeps pre A c] : Keeps pre A (.loop c) where
  wp Q s inA holds := by
    refine ⟨fun t => t = s, rfl, ?_⟩
    rintro t rfl
    exact ⟨holds, body.wp _ t inA rfl⟩

instance opt [Keeps pre A c] : Keeps pre A (Flow.opt c) := choice

instance block_nil : Keeps pre A (block ([] : List (Flow P ι))) := skip

instance block_cons {l : List (Flow P ι)} [Keeps pre A c] [Keeps pre A (block l)] :
    Keeps pre A (block (c :: l)) := seq (b := block l)

instance oneOf_single [Keeps pre A c] : Keeps pre A (oneOf [c]) := inferInstanceAs (Keeps pre A c)

instance oneOf_cons {l : List (Flow P ι)} [Keeps pre A a] [Keeps pre A (oneOf (b :: l))] :
    Keeps pre A (oneOf (a :: b :: l)) := choice (b := oneOf (b :: l))

/-- What a block starts with can be left out. -/
theorem pass {l m : List (Flow P ι)} [keeps : Keeps pre A (block l)] (inA : A s)
    (rest : Flow.wp pre (block m) Q s) : Flow.wp pre (block (l ++ m)) Q s := by
  rw [wp_block_append]
  exact keeps.wp _ s inA rest

end Keeps

end Wp

/-! ## Weights -/

section Weights

variable (w : P → Int → Prop)

/-- Every way through the flow has this weight. -/
def Weighs : Flow P ι → Int → Prop
  | .skip, n => n = 0
  | .prim p, n => w p n
  | .seq a b, n => ∃ m k, Weighs a m ∧ Weighs b k ∧ n = m + k
  | .choice a b, n => Weighs a n ∧ Weighs b n
  | .loop body, n => n = 0 ∧ Weighs body 0
  | .forever body, _ => Weighs body 0
  | .any f, n => ∀ i, Weighs (f i) n

variable {w}

variable (w) in
/-- Every way through the flow has weight zero. -/
class Balanced (c : Flow P ι) : Prop where
  weighs : Weighs w c 0

namespace Balanced

variable {a b c : Flow P ι}

instance skip : Balanced w (.skip : Flow P ι) := ⟨rfl⟩

instance seq [first : Balanced w a] [second : Balanced w b] : Balanced w (.seq a b) :=
  ⟨0, 0, first.weighs, second.weighs, rfl⟩

instance choice [left : Balanced w a] [right : Balanced w b] : Balanced w (.choice a b) :=
  ⟨left.weighs, right.weighs⟩

instance loop [body : Balanced w c] : Balanced w (.loop c) := ⟨rfl, body.weighs⟩

instance opt [Balanced w c] : Balanced w (Flow.opt c) := choice

instance block_nil : Balanced w (block ([] : List (Flow P ι))) := skip

instance block_cons {l : List (Flow P ι)} [Balanced w c] [Balanced w (block l)] :
    Balanced w (block (c :: l)) := seq (b := block l)

instance oneOf_single [Balanced w c] : Balanced w (oneOf [c]) := inferInstanceAs (Balanced w c)

instance oneOf_cons {l : List (Flow P ι)} [Balanced w a] [Balanced w (oneOf (b :: l))] :
    Balanced w (oneOf (a :: b :: l)) := choice (b := oneOf (b :: l))

end Balanced

end Weights

end Flow

end Xv6Rpi.Theory
