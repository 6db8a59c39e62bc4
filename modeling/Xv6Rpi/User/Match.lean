/-
# User.Match -- the pattern matcher of `grep`

`match`, `matchhere` and `matchstar` of `grep.c`.  Strings are lists of the characters before
the NUL, so that a test for `'\0'` is one for the end of the list.

What a pattern means is said apart from them: a pattern is a list of items (`items`), each item
takes some of the text (`Item.Takes`), and a pattern matches where its items take the text one
after the other (`Reads`).
-/
import Mathlib.Data.List.Basic
import Mathlib.Tactic.Common
import Xv6Rpi.Theory.Bytes

namespace Xv6Rpi.User

open Theory

set_option autoImplicit false

/-! ## The code -/

abbrev CARET : Byte := 0x5E
abbrev DOLLAR : Byte := 0x24
abbrev DOT : Byte := 0x2E
abbrev STAR : Byte := 0x2A

mutual

/-- matchhere: search for re at beginning of text -/
def matchhere : List Byte → List Byte → Bool
  | [], _ => true
  | c :: re, text =>
    if re.head? = some STAR then matchstar c re.tail text
    else if c = DOLLAR ∧ re = [] then text.isEmpty
    else match text with
      | b :: text => if c = DOT ∨ c = b then matchhere re text else false
      | [] => false
termination_by re text => (re.length, text.length, 0)

/-- matchstar: search for c*re at beginning of text; a * matches zero or more instances -/
def matchstar (c : Byte) (re : List Byte) : List Byte → Bool
  | [] => matchhere re []
  | b :: text =>
    if matchhere re (b :: text) then true
    else if b = c ∨ c = DOT then matchstar c re text
    else false
termination_by text => (re.length, text.length, 1)

end

/-- The loop of `match`, which must look at the empty string too. -/
def matchAny (re : List Byte) : List Byte → Bool
  | [] => matchhere re []
  | b :: text => if matchhere re (b :: text) then true else matchAny re text

/-- `match`. -/
def matchText (re text : List Byte) : Bool :=
  match re with
  | c :: rest => if c = CARET then matchhere rest text else matchAny re text
  | [] => matchAny re text

/-! ## What a pattern means -/

inductive Item where
  /-- Zero or more characters. -/
  | rep (c : Byte)
  /-- One character. -/
  | one (c : Byte)
  /-- The end of the text. -/
  | last

/-- `.` stands for any character. -/
def Fits (c b : Byte) : Prop := c = DOT ∨ b = c

/-- The items of a pattern without its `^`. -/
def items : List Byte → List Item
  | [] => []
  | [c] => if c = DOLLAR then [.last] else [.one c]
  | c :: d :: re => if d = STAR then .rep c :: items re else .one c :: items (d :: re)

/-- An item takes `s` from a text that goes on with `rest`. -/
def Item.Takes : Item → List Byte → List Byte → Prop
  | .rep c, s, _ => ∀ b ∈ s, Fits c b
  | .one c, s, _ => ∃ b, s = [b] ∧ Fits c b
  | .last, s, rest => s = [] ∧ rest = []

/-- The items take `s`, one after the other, from a text that goes on with `rest`. -/
inductive Reads : List Item → List Byte → List Byte → Prop where
  | nil (rest : List Byte) : Reads [] [] rest
  | cons {item : Item} {l : List Item} {s s' rest : List Byte} (first : item.Takes s (s' ++ rest))
      (others : Reads l s' rest) : Reads (item :: l) (s ++ s') rest

/-- The text begins with something that the items take. -/
def Begins (l : List Item) (text : List Byte) : Prop := ∃ s rest, text = s ++ rest ∧ Reads l s rest

/-- **What a pattern matches**: a text with a part that its items take, at the start if the pattern
begins with `^`. -/
def Matches (re text : List Byte) : Prop :=
  match re with
  | c :: rest =>
    if c = CARET then Begins (items rest) text
    else ∃ before after, text = before ++ after ∧ Begins (items re) after
  | [] => ∃ before after, text = before ++ after ∧ Begins (items re) after

/-! ## The matcher is right -/

section Proof

variable {re text : List Byte} {c : Byte} {l : List Item} {item : Item}

theorem begins_nil (text : List Byte) : Begins [] text := ⟨[], text, rfl, .nil text⟩

theorem begins_cons_iff : Begins (item :: l) text ↔
    ∃ s rest, text = s ++ rest ∧ item.Takes s rest ∧ Begins l rest := by
  constructor
  · rintro ⟨s, rest, rfl, reads⟩
    cases reads with
    | @cons _ _ s s' _ first others =>
      exact ⟨s, s' ++ rest, List.append_assoc .., first, s', rest, rfl, others⟩
  · rintro ⟨s, _, rfl, first, s', rest, rfl, others⟩
    exact ⟨s ++ s', rest, (List.append_assoc ..).symm, .cons first others⟩

theorem begins_one_iff : Begins (.one c :: l) text ↔
    ∃ b rest, text = b :: rest ∧ Fits c b ∧ Begins l rest := by
  rw [begins_cons_iff]
  constructor
  · rintro ⟨_, rest, rfl, ⟨b, rfl, fits⟩, others⟩
    exact ⟨b, rest, rfl, fits, others⟩
  · rintro ⟨b, rest, rfl, fits, others⟩
    exact ⟨[b], rest, rfl, ⟨b, rfl, fits⟩, others⟩

theorem begins_last_iff : Begins [.last] text ↔ text = [] := by
  rw [begins_cons_iff]
  constructor
  · rintro ⟨_, _, rfl, ⟨rfl, rfl⟩, -⟩
    rfl
  · rintro rfl
    exact ⟨[], [], rfl, ⟨rfl, rfl⟩, begins_nil []⟩

/-- A repeated character takes nothing, or one character and then some more. -/
theorem begins_rep_iff : Begins (.rep c :: l) text ↔
    Begins l text ∨ ∃ b rest, text = b :: rest ∧ Fits c b ∧ Begins (.rep c :: l) rest := by
  constructor
  · rw [begins_cons_iff]
    rintro ⟨s, rest, rfl, takes, others⟩
    cases s with
    | nil => exact Or.inl others
    | cons b s =>
      refine Or.inr ⟨b, s ++ rest, rfl, takes b List.mem_cons_self, ?_⟩
      rw [begins_cons_iff]
      exact ⟨s, rest, rfl, fun x member => takes x (List.mem_cons_of_mem _ member), others⟩
  · rintro (others | ⟨b, rest, rfl, fits, more⟩)
    · rw [begins_cons_iff]
      exact ⟨[], text, rfl, fun _ never => (nomatch never), others⟩
    · rw [begins_cons_iff] at more ⊢
      obtain ⟨s, rest, rfl, takes, others⟩ := more
      refine ⟨b :: s, rest, rfl, fun x member => ?_, others⟩
      rcases List.mem_cons.1 member with rfl | later
      · exact fits
      · exact takes x later

/-- The loop of `matchstar`, if `matchhere` is right about the rest of the pattern. -/
theorem matchstar_iff (here : ∀ text, matchhere re text = true ↔ Begins l text) :
    matchstar c re text = true ↔ Begins (.rep c :: l) text := by
  induction text with
  | nil =>
    rw [matchstar, here, begins_rep_iff]
    simp
  | cons b text ih =>
    rw [matchstar, begins_rep_iff, ← here]
    by_cases found : matchhere re (b :: text) = true
    · simp [found]
    · simp [found, ih, Fits, or_comm]

theorem matchhere_star (c : Byte) (re text : List Byte) :
    matchhere (c :: STAR :: re) text = matchstar c re text := by
  rw [matchhere.eq_def]
  exact if_pos rfl

theorem matchhere_last (text : List Byte) : matchhere [DOLLAR] text = text.isEmpty := by
  rw [matchhere.eq_def]
  rfl

/-- `matchhere` on a character that stands for itself. -/
theorem matchhere_one (noStar : re.head? ≠ some STAR) (noEnd : ¬ (c = DOLLAR ∧ re = [])) :
    matchhere (c :: re) text = true ↔ ∃ b rest, text = b :: rest ∧ Fits c b ∧
      matchhere re rest = true := by
  rw [matchhere.eq_def]
  dsimp only
  rw [if_neg noStar, if_neg noEnd]
  cases text with
  | nil => exact ⟨fun never => (nomatch never), fun ⟨_, _, never, _⟩ => (nomatch never)⟩
  | cons b text =>
    show (if c = DOT ∨ c = b then matchhere re text else false) = true ↔ _
    constructor
    · intro found
      by_cases fits : c = DOT ∨ c = b
      · rw [if_pos fits] at found
        exact ⟨b, text, rfl, fits.imp_right Eq.symm, found⟩
      · rw [if_neg fits] at found
        cases found
    · rintro ⟨_, _, same, fits, found⟩
      obtain ⟨rfl, rfl⟩ := List.cons.inj same
      rw [if_pos (fits.imp_right Eq.symm)]
      exact found

/-- **`matchhere` finds the items of a pattern at the start of a text.** -/
theorem matchhere_iff : matchhere re text = true ↔ Begins (items re) text := by
  induction re using items.induct generalizing text with
  | case1 => simp [matchhere, items, begins_nil]
  | case2 => rw [matchhere_last, items, if_pos rfl, begins_last_iff, List.isEmpty_iff]
  | case3 c notEnd =>
    rw [matchhere_one (by simp) fun both => notEnd both.1, items, if_neg notEnd, begins_one_iff]
    simp [matchhere, begins_nil]
  | case4 c re ih =>
    rw [matchhere_star, items, if_pos rfl]
    exact matchstar_iff fun text => ih
  | case5 c d re notStar ih =>
    have noStar : (d :: re).head? ≠ some STAR := fun same => notStar (Option.some.inj same)
    rw [matchhere_one noStar fun both => (nomatch both.2), items, if_neg notStar, begins_one_iff]
    simp only [ih]

theorem matchAny_iff : matchAny re text = true ↔
    ∃ before after, text = before ++ after ∧ Begins (items re) after := by
  induction text with
  | nil =>
    rw [matchAny, matchhere_iff]
    constructor
    · exact fun begins => ⟨[], [], rfl, begins⟩
    · rintro ⟨before, after, split, begins⟩
      obtain ⟨-, rfl⟩ := List.append_eq_nil_iff.1 split.symm
      exact begins
  | cons b text ih =>
    rw [matchAny]
    split
    case isTrue here => exact iff_of_true rfl ⟨[], b :: text, rfl, matchhere_iff.1 here⟩
    case isFalse notHere =>
      rw [ih]
      constructor
      · rintro ⟨before, after, rfl, begins⟩
        exact ⟨b :: before, after, rfl, begins⟩
      · rintro ⟨before, after, split, begins⟩
        cases before with
        | nil => exact absurd (matchhere_iff.2 (split ▸ begins)) notHere
        | cons b' before =>
          obtain ⟨-, rfl⟩ := List.cons.inj split
          exact ⟨before, after, rfl, begins⟩

/-- **`match` is right**: it returns 1 exactly for the texts that a pattern matches. -/
theorem matchText_iff (re text : List Byte) : matchText re text = true ↔ Matches re text := by
  cases re with
  | nil => exact matchAny_iff
  | cons c rest =>
    rw [matchText, Matches]
    split
    · exact matchhere_iff
    · exact matchAny_iff

/-- Patterns whose special characters are not where they are special. -/
example : matchText [STAR, STAR, DOLLAR] [STAR, STAR] = true ∧ matchText [CARET, STAR] [STAR, 1] = true ∧
    matchText [DOLLAR, STAR, CARET] [1, CARET] = true ∧ matchText [CARET, DOLLAR] [1] = false := by
  simp [matchText, matchAny, matchhere, matchstar]

end Proof

end Xv6Rpi.User
