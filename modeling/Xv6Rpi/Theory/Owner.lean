/-
# Theory.Owner -- storage that belongs to exactly one place

A table of places `ι` each names a unit of storage, or none (0).  `Owns at_ used loose`
says that the units in use are those the places name, each named once, and the loose
ones, which are in use and not named yet or any more.  The four rules are the steps of
an allocator and its client: `alloc` makes a unit loose, `assign` gives it a place,
`drop` takes it from its place, `free` gives it back.  `part` looks at some of the places
alone, as if what the others name were loose, and `whole` puts them together again.
-/
import Mathlib.Algebra.Notation.Defs
import Mathlib.Data.Set.Insert
import Mathlib.Logic.Function.Basic
import Mathlib.Tactic.Common

namespace Xv6Rpi.Theory

set_option autoImplicit false

variable {ι β : Type} [Zero β]

structure Owns (at_ : ι → β) (used loose : Set β) : Prop where
  named : ∀ p, at_ p ≠ 0 → at_ p ∈ used ∧ at_ p ∉ loose
  once : ∀ p q, at_ p ≠ 0 → at_ p = at_ q → p = q
  onto : ∀ b ∈ used, b ∈ loose ∨ ∃ p, at_ p = b
  loose_used : ∀ b ∈ loose, b ∈ used
  nonzero : ∀ b ∈ used, b ≠ 0

namespace Owns

variable {at_ a : ι → β} {used loose : Set β} {b : β} {p : ι}

theorem ne_of_not_used (owns : Owns at_ used loose) (free : b ∉ used) (some_ : at_ p ≠ 0) :
    at_ p ≠ b := fun same => free (same ▸ (owns.named p some_).1)

theorem ne_of_loose (owns : Owns at_ used loose) (isLoose : b ∈ loose) (some_ : at_ p ≠ 0) :
    at_ p ≠ b := fun same => (owns.named p some_).2 (same ▸ isLoose)

/-- Taking an unused unit. -/
theorem alloc (owns : Owns at_ used loose) (free : b ∉ used) (nonzero : b ≠ 0) :
    Owns at_ (insert b used) (insert b loose) where
  named p some_ := by
    obtain ⟨inUse, tight⟩ := owns.named p some_
    refine ⟨Or.inr inUse, fun member => ?_⟩
    rcases member with same | isLoose
    · exact owns.ne_of_not_used free some_ same
    · exact tight isLoose
  once := owns.once
  onto c member := by
    rcases member with same | inUse
    · exact Or.inl (Or.inl same)
    · rcases owns.onto c inUse with isLoose | named
      · exact Or.inl (Or.inr isLoose)
      · exact Or.inr named
  loose_used c member := by
    rcases member with same | isLoose
    · exact Or.inl same
    · exact Or.inr (owns.loose_used c isLoose)
  nonzero c member := by
    rcases member with rfl | inUse
    · exact nonzero
    · exact owns.nonzero c inUse

/-- Naming a loose unit at an empty place; the other places stay. -/
theorem assign (owns : Owns at_ used loose) (isLoose : b ∈ loose) (empty : at_ p = 0)
    (here : a p = b) (others : ∀ q, q ≠ p → a q = at_ q) : Owns a used (loose \ {b}) where
  named q some_ := by
    by_cases same : q = p
    · subst same
      rw [here]
      exact ⟨owns.loose_used b isLoose, fun member => member.2 rfl⟩
    · rw [others q same] at some_ ⊢
      obtain ⟨inUse, tight⟩ := owns.named q some_
      exact ⟨inUse, fun member => tight member.1⟩
  once q r some_ eq := by
    by_cases sameQ : q = p
    · by_cases sameR : r = p
      · rw [sameQ, sameR]
      · rw [others r sameR] at eq
        rw [sameQ, here] at some_ eq
        exact absurd eq.symm (owns.ne_of_loose isLoose (eq ▸ some_))
    · rw [others q sameQ] at some_ eq
      by_cases sameR : r = p
      · rw [sameR, here] at eq
        exact absurd eq (owns.ne_of_loose isLoose some_)
      · rw [others r sameR] at eq
        exact owns.once q r some_ eq
  onto c inUse := by
    by_cases same : c = b
    · exact Or.inr ⟨p, here.trans same.symm⟩
    · rcases owns.onto c inUse with cLoose | ⟨q, named⟩
      · exact Or.inl ⟨cLoose, same⟩
      · have ne : q ≠ p := by
          intro eq
          rw [eq, empty] at named
          exact owns.nonzero c inUse named.symm
        exact Or.inr ⟨q, (others q ne).trans named⟩
  loose_used c member := owns.loose_used c member.1
  nonzero := owns.nonzero

/-- Emptying places `D`: what they named is loose. -/
theorem drop (owns : Owns at_ used loose) {D : Set ι} (empty : ∀ q ∈ D, a q = 0)
    (others : ∀ q, q ∉ D → a q = at_ q) :
    Owns a used (loose ∪ {b | b ≠ 0 ∧ ∃ q ∈ D, at_ q = b}) where
  named q some_ := by
    have out : q ∉ D := fun inside => some_ (empty q inside)
    rw [others q out] at some_ ⊢
    obtain ⟨inUse, tight⟩ := owns.named q some_
    refine ⟨inUse, fun member => ?_⟩
    rcases member with isLoose | ⟨-, r, inside, same⟩
    · exact tight isLoose
    · exact out (owns.once q r some_ same.symm ▸ inside)
  once q r some_ eq := by
    have outQ : q ∉ D := fun inside => some_ (empty q inside)
    have outR : r ∉ D := fun inside => some_ (eq.trans (empty r inside))
    rw [others q outQ] at some_ eq
    rw [others r outR] at eq
    exact owns.once q r some_ eq
  onto c inUse := by
    rcases owns.onto c inUse with isLoose | ⟨q, named⟩
    · exact Or.inl (Or.inl isLoose)
    · by_cases inside : q ∈ D
      · exact Or.inl (Or.inr ⟨owns.nonzero c inUse, q, inside, named⟩)
      · exact Or.inr ⟨q, (others q inside).trans named⟩
  loose_used c member := by
    rcases member with isLoose | ⟨nonzero, q, -, same⟩
    · exact owns.loose_used c isLoose
    · exact same ▸ (owns.named q (same ▸ nonzero)).1
  nonzero := owns.nonzero

/-- Emptying one place. -/
theorem drop_one (owns : Owns at_ used loose) (some_ : at_ p ≠ 0) (empty : a p = 0)
    (others : ∀ q, q ≠ p → a q = at_ q) : Owns a used (insert (at_ p) loose) := by
  have dropped := owns.drop (D := {p}) (a := a)
    (fun q isP => by rw [Set.mem_singleton_iff.1 isP, empty]) (fun q other => others q other)
  have same : loose ∪ {b | b ≠ 0 ∧ ∃ q ∈ ({p} : Set ι), at_ q = b} = insert (at_ p) loose := by
    ext b
    simp only [Set.mem_union, Set.mem_ofPred_eq, Set.mem_singleton_iff, exists_eq_left,
      Set.mem_insert_iff]
    constructor
    · rintro (isLoose | ⟨-, isP⟩)
      · exact Or.inr isLoose
      · exact Or.inl isP.symm
    · rintro (rfl | isLoose)
      · exact Or.inr ⟨some_, rfl⟩
      · exact Or.inl isLoose
  rwa [same] at dropped

/-- Giving a loose unit back. -/
theorem free (owns : Owns at_ used loose) (isLoose : b ∈ loose) :
    Owns at_ (used \ {b}) (loose \ {b}) where
  named q some_ := by
    obtain ⟨inUse, tight⟩ := owns.named q some_
    exact ⟨⟨inUse, owns.ne_of_loose isLoose some_⟩, fun member => tight member.1⟩
  once := owns.once
  onto c member := by
    rcases owns.onto c member.1 with cLoose | named
    · exact Or.inl ⟨cLoose, member.2⟩
    · exact Or.inr named
  loose_used c member := ⟨owns.loose_used c member.1, member.2⟩
  nonzero c member := owns.nonzero c member.1

/-- What the places outside the family `f` name. -/
def rest {κ : Type} (at_ : ι → β) (f : κ → ι) : Set β := {b | b ≠ 0 ∧ ∃ p, p ∉ Set.range f ∧ at_ p = b}

/-- For a family of places what the others name is loose. -/
theorem part {κ : Type} (owns : Owns at_ used loose) {f : κ → ι} (injective : f.Injective) :
    Owns (fun q => at_ (f q)) used (loose ∪ rest at_ f) where
  named q some_ := by
    obtain ⟨inUse, tight⟩ := owns.named (f q) some_
    refine ⟨inUse, fun member => member.elim tight ?_⟩
    rintro ⟨-, p, outside, same⟩
    exact outside ⟨q, owns.once (f q) p some_ same.symm⟩
  once q r some_ eq := injective (owns.once (f q) (f r) some_ eq)
  onto c inUse := by
    rcases owns.onto c inUse with isLoose | ⟨p, named⟩
    · exact Or.inl (Or.inl isLoose)
    · by_cases inside : p ∈ Set.range f
      · obtain ⟨q, rfl⟩ := inside
        exact Or.inr ⟨q, named⟩
      · exact Or.inl (Or.inr ⟨owns.nonzero c inUse, p, inside, named⟩)
  loose_used c member := by
    rcases member with isLoose | ⟨some_, p, -, rfl⟩
    · exact owns.loose_used c isLoose
    · exact (owns.named p some_).1
  nonzero := owns.nonzero

/-- Back from a family of places to all of them, when the others have stayed. -/
theorem whole {κ : Type} {c : κ → β} {used' loose' : Set β} {f : κ → ι} (owns : Owns at_ used loose)
    (family : Owns c used' (loose' ∪ rest at_ f)) (fewer : loose' ⊆ loose) (mine : ∀ q, a (f q) = c q)
    (others : ∀ p, p ∉ Set.range f → a p = at_ p) : Owns a used' loose' where
  named p some_ := by
    by_cases inside : p ∈ Set.range f
    · obtain ⟨q, rfl⟩ := inside
      rw [mine] at some_ ⊢
      obtain ⟨inUse, tight⟩ := family.named q some_
      exact ⟨inUse, fun isLoose => tight (Or.inl isLoose)⟩
    · rw [others p inside] at some_ ⊢
      exact ⟨family.loose_used _ (Or.inr ⟨some_, p, inside, rfl⟩),
        fun isLoose => (owns.named p some_).2 (fewer isLoose)⟩
  once p r some_ eq := by
    by_cases inP : p ∈ Set.range f <;> by_cases inR : r ∈ Set.range f
    · obtain ⟨⟨q, rfl⟩, q', rfl⟩ := inP, inR
      rw [mine] at some_ eq
      rw [mine] at eq
      rw [family.once q q' some_ eq]
    · obtain ⟨q, rfl⟩ := inP
      rw [mine] at some_ eq
      rw [others r inR] at eq
      exact absurd (Or.inr ⟨some_, r, inR, eq.symm⟩) (family.named q some_).2
    · obtain ⟨q, rfl⟩ := inR
      rw [others p inP] at some_ eq
      rw [mine] at eq
      exact absurd (Or.inr ⟨eq ▸ some_, p, inP, eq⟩) (family.named q (eq ▸ some_)).2
    · rw [others p inP] at some_ eq
      rw [others r inR] at eq
      exact owns.once p r some_ eq
  onto b inUse := by
    rcases family.onto b inUse with (isLoose | ⟨-, p, outside, named⟩) | ⟨q, named⟩
    · exact Or.inl isLoose
    · exact Or.inr ⟨p, (others p outside).trans named⟩
    · exact Or.inr ⟨f q, (mine q).trans named⟩
  loose_used b isLoose := family.loose_used b (Or.inl isLoose)
  nonzero := family.nonzero

/-- Only the values of the table count. -/
theorem congr (owns : Owns at_ used loose) (same : ∀ q, a q = at_ q) : Owns a used loose := by
  have eq : a = at_ := funext same
  rwa [eq]

end Owns

end Xv6Rpi.Theory
