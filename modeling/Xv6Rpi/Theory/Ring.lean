/-
# Theory.Ring -- circular doubly linked lists

Two pointer functions `next` and `prev` over cells `α` hold a circular list with
a sentinel.  `Linked next prev a l b` says that the forward walk from `a` passes
exactly through `l` and arrives at `b`, with back pointers to match; a ring
(`IsRing`) is such a walk from the sentinel to itself without repetition.

* `walk_next`, `walk_prev`: a search loop along either pointer, stopped at the
  sentinel, finds what `List.find?` finds in the walk or in its reverse;
* `IsRing.moveToFront`: the six assignments that unlink a cell and put it back
  behind the sentinel make a ring of the same cells with that cell first.
-/
import Mathlib.Data.List.Induction
import Mathlib.Logic.Function.Basic
import Mathlib.Tactic.Common

namespace Xv6Rpi.Theory.Ring

set_option autoImplicit false

variable {α : Type}

/-- The forward walk from `a` through `l` to `b`, with its back pointers. -/
def Linked (next prev : α → α) : α → List α → α → Prop
  | a, [], b => next a = b ∧ prev b = a
  | a, x :: l, b => next a = x ∧ prev x = a ∧ Linked next prev x l b

/-- A ring: the walk from the sentinel back to it meets each cell once. -/
structure IsRing (next prev : α → α) (head : α) (l : List α) : Prop where
  linked : Linked next prev head l head
  nodup : (head :: l).Nodup

section Walks

variable {next prev next' prev' : α → α}

theorem linked_append {a x b : α} {l m : List α} :
    Linked next prev a (l ++ x :: m) b ↔ Linked next prev a l x ∧ Linked next prev x m b := by
  induction l generalizing a with
  | nil => simp only [List.nil_append, Linked, and_assoc]
  | cons y l ih => simp only [List.cons_append, Linked, ih, and_assoc]

theorem Linked.next_mem {a b : α} {l : List α} (linked : Linked next prev a l b) :
    next a ∈ l ++ [b] := by
  cases l with
  | nil => simp [linked.1]
  | cons x l => simp [linked.1]

theorem Linked.prev_mem {a b : α} {l : List α} (linked : Linked next prev a l b) :
    prev b ∈ a :: l := by
  induction l generalizing a with
  | nil => simp [linked.2]
  | cons x l ih => exact List.mem_cons_of_mem _ (ih linked.2.2)

/-- A walk only reads the forward pointers of its start and the back pointers of
its end. -/
theorem Linked.congr {a b : α} {l : List α} (linked : Linked next prev a l b)
    (sameNext : ∀ x ∈ a :: l, next' x = next x) (samePrev : ∀ x ∈ l ++ [b], prev' x = prev x) :
    Linked next' prev' a l b := by
  induction l generalizing a with
  | nil =>
    refine ⟨?_, ?_⟩
    · rw [sameNext a List.mem_cons_self, linked.1]
    · rw [samePrev b (by simp), linked.2]
  | cons x l ih =>
    obtain ⟨toX, fromX, rest⟩ := linked
    refine ⟨?_, ?_, ih rest ?_ ?_⟩
    · rw [sameNext a List.mem_cons_self, toX]
    · rw [samePrev x (by simp), fromX]
    · exact fun y member => sameNext y (List.mem_cons_of_mem _ member)
    · exact fun y member => samePrev y (List.mem_cons_of_mem _ member)

/-- A ring only reads the pointers of its own cells. -/
theorem IsRing.congr {head : α} {l : List α} (ring : IsRing next prev head l)
    (sameNext : ∀ x ∈ head :: l, next' x = next x) (samePrev : ∀ x ∈ head :: l, prev' x = prev x) :
    IsRing next' prev' head l := by
  refine ⟨ring.linked.congr sameNext fun x member => ?_, ring.nodup⟩
  apply samePrev
  rcases List.mem_append.1 member with inside | atEnd
  · exact List.mem_cons_of_mem _ inside
  · exact List.mem_cons.2 (Or.inl (List.mem_singleton.1 atEnd))

end Walks

section Search

variable [DecidableEq α]

/-- The loop `for (x = start; x != stop; x = step x) if (p x) return x`: the
outer `none` is a loop that has not ended within the fuel. -/
def walk (step : α → α) (stop : α) (p : α → Bool) : Nat → α → Option (Option α)
  | 0, _ => none
  | fuel + 1, x =>
    if x = stop then some none
    else if p x then some (some x)
    else walk step stop p fuel (step x)

variable {next prev : α → α}

theorem walk_next {a stop : α} {l : List α} (p : α → Bool)
    (linked : Linked next prev a l stop) (fresh : stop ∉ l) :
    walk next stop p (l.length + 1) (next a) = some (l.find? p) := by
  induction l generalizing a with
  | nil => simp [walk, linked.1]
  | cons x l ih =>
    obtain ⟨toX, -, rest⟩ := linked
    have ne : x ≠ stop := fun same => fresh (same ▸ List.mem_cons_self)
    have freshTail : stop ∉ l := fun member => fresh (List.mem_cons_of_mem _ member)
    rw [toX, List.length_cons, walk, if_neg ne, List.find?_cons]
    cases hit : p x with
    | true => simp
    | false => simpa using ih rest freshTail

theorem walk_prev {stop b : α} {l : List α} (p : α → Bool)
    (linked : Linked next prev stop l b) (fresh : stop ∉ l) :
    walk prev stop p (l.length + 1) (prev b) = some (l.reverse.find? p) := by
  induction l using List.reverseRecOn generalizing b with
  | nil => simp [walk, linked.2]
  | append_singleton l x ih =>
    obtain ⟨front, -, fromB⟩ := linked_append.1 linked
    have ne : x ≠ stop := fun same => fresh (by simp [same])
    have freshFront : stop ∉ l := fun member => fresh (by simp [member])
    rw [fromB, List.length_append, List.length_singleton, walk, if_neg ne, List.reverse_append,
      List.reverse_singleton, List.singleton_append, List.find?_cons]
    cases hit : p x with
    | true => simp
    | false => simpa using ih front freshFront

end Search

section Surgery

variable [DecidableEq α] {next prev : α → α}

/-- Taking `b` out of a walk: its neighbours point at each other. -/
theorem Linked.unlink {a b c : α} {l m : List α} (front : Linked next prev a l b)
    (back : Linked next prev b m c) (nodup : (a :: (l ++ b :: m)).Nodup)
    (fresh : c ∉ l ++ b :: m) :
    Linked (Function.update next (prev b) (next b)) (Function.update prev (next b) (prev b))
      a (l ++ m) c := by
  induction l generalizing a with
  | nil =>
    obtain ⟨-, fromB⟩ := front
    have aOut : a ∉ b :: m := (List.nodup_cons.1 nodup).1
    rw [fromB]
    cases m with
    | nil =>
      obtain ⟨toC, -⟩ := back
      rw [toC]
      exact ⟨Function.update_self .., Function.update_self ..⟩
    | cons y m =>
      obtain ⟨toY, -, rest⟩ := back
      have ym : y ∉ m := (List.nodup_cons.1 (List.nodup_cons.1 (List.nodup_cons.1 nodup).2).2).1
      rw [toY]
      refine ⟨Function.update_self .., Function.update_self .., rest.congr ?_ ?_⟩
      · intro x member
        refine Function.update_of_ne (fun same => ?_) ..
        subst same
        exact aOut (List.mem_cons_of_mem _ member)
      · intro x member
        refine Function.update_of_ne (fun same => ?_) ..
        subst same
        rcases List.mem_append.1 member with inTail | atEnd
        · exact ym inTail
        · exact fresh (by simp [List.mem_singleton.1 atEnd])
  | cons x l ih =>
    obtain ⟨toX, fromX, rest⟩ := front
    obtain ⟨aOut, nodupRest⟩ := List.nodup_cons.1 nodup
    have lastIn : prev b ∈ x :: l := rest.prev_mem
    have firstIn : next b ∈ m ++ [c] := back.next_mem
    refine ⟨?_, ?_, ih rest nodupRest fun member => fresh (List.mem_cons_of_mem _ member)⟩
    · rw [Function.update_of_ne, toX]
      intro same
      refine aOut (List.mem_append_left _ ?_)
      rw [same]
      exact lastIn
    · rw [Function.update_of_ne, fromX]
      intro same
      rcases List.mem_append.1 firstIn with inTail | atEnd
      · refine (List.nodup_cons.1 nodupRest).1 (List.mem_append_right _ ?_)
        rw [same]
        exact List.mem_cons_of_mem _ inTail
      · exact fresh (by simp [same, List.mem_singleton.1 atEnd])

/-- Putting a fresh cell `b` right behind the start of a walk. -/
theorem Linked.insert {a b c : α} {l : List α} (linked : Linked next prev a l c)
    (nodup : (a :: l).Nodup) (fresh : c ∉ l) (ba : b ≠ a) (bl : b ∉ l) (bc : b ≠ c) :
    Linked (Function.update (Function.update next b (next a)) a b)
      (Function.update (Function.update prev b a) (next a) b) a (b :: l) c := by
  have firstIn : next a ∈ l ++ [c] := linked.next_mem
  have bFirst : b ≠ next a := by
    intro same
    rcases List.mem_append.1 firstIn with inside | atEnd
    · exact bl (same ▸ inside)
    · exact bc (same.trans (List.mem_singleton.1 atEnd))
  refine ⟨Function.update_self .., ?_, ?_⟩
  · rw [Function.update_of_ne bFirst, Function.update_self]
  · cases l with
    | nil =>
      rw [linked.1] at *
      refine ⟨?_, Function.update_self ..⟩
      rw [Function.update_of_ne ba, Function.update_self]
    | cons y l =>
      obtain ⟨toY, -, rest⟩ := linked
      obtain ⟨aOut, nodupRest⟩ := List.nodup_cons.1 nodup
      rw [toY]
      refine ⟨?_, Function.update_self .., rest.congr ?_ ?_⟩
      · rw [Function.update_of_ne ba, Function.update_self]
      · intro x member
        have xa : x ≠ a := fun same => aOut (same ▸ member)
        have xb : x ≠ b := fun same => bl (same ▸ member)
        rw [Function.update_of_ne xa, Function.update_of_ne xb]
      · intro x member
        have xy : x ≠ y := by
          rintro rfl
          rcases List.mem_append.1 member with inTail | atEnd
          · exact (List.nodup_cons.1 nodupRest).1 inTail
          · exact fresh (by simp [List.mem_singleton.1 atEnd])
        have xb : x ≠ b := by
          rintro rfl
          rcases List.mem_append.1 member with inTail | atEnd
          · exact bl (List.mem_cons_of_mem _ inTail)
          · exact bc (List.mem_singleton.1 atEnd)
        rw [Function.update_of_ne xy, Function.update_of_ne xb]

/-- Taking a cell out of a ring. -/
theorem IsRing.unlink {head b : α} {front back : List α}
    (ring : IsRing next prev head (front ++ b :: back)) :
    IsRing (Function.update next (prev b) (next b)) (Function.update prev (next b) (prev b)) head
      (front ++ back) := by
  obtain ⟨toB, fromB⟩ := linked_append.1 ring.linked
  have headOut : head ∉ front ++ b :: back := (List.nodup_cons.1 ring.nodup).1
  refine ⟨toB.unlink fromB ring.nodup headOut, ?_⟩
  refine List.Nodup.sublist ?_ ring.nodup
  apply List.Sublist.cons_cons
  exact List.Sublist.append_left (List.sublist_cons_self b back) front

/-- Putting a fresh cell behind the sentinel. -/
theorem IsRing.push {head b : α} {l : List α} (ring : IsRing next prev head l)
    (fresh : b ∉ head :: l) :
    IsRing (Function.update (Function.update next b (next head)) head b)
      (Function.update (Function.update prev b head) (next head) b) head (b :: l) := by
  obtain ⟨headOut, nodup⟩ := List.nodup_cons.1 ring.nodup
  have bHead : b ≠ head := fun same => fresh (by simp [same])
  have bOut : b ∉ l := fun inside => fresh (List.mem_cons_of_mem _ inside)
  refine ⟨ring.linked.insert ring.nodup headOut bHead bOut bHead, ?_⟩
  apply List.nodup_cons.2
  exact ⟨by simp [bHead.symm, headOut], List.nodup_cons.2 ⟨bOut, nodup⟩⟩

/-- The forward pointers after `b` has been unlinked and put behind `head`. -/
def frontNext (next prev : α → α) (head b : α) : α → α :=
  let next1 := Function.update next (prev b) (next b)
  Function.update (Function.update next1 b (next1 head)) head b

/-- The back pointers after `b` has been unlinked and put behind `head`. -/
def frontPrev (next prev : α → α) (head b : α) : α → α :=
  let next1 := Function.update next (prev b) (next b)
  let prev1 := Function.update prev (next b) (prev b)
  Function.update (Function.update prev1 b head) (next1 head) b

/-- **Moving a cell to the front keeps the ring**: the same cells, that one first. -/
theorem IsRing.moveToFront {head b : α} {front back : List α}
    (ring : IsRing next prev head (front ++ b :: back)) :
    IsRing (frontNext next prev head b) (frontPrev next prev head b) head
      (b :: (front ++ back)) := by
  apply ring.unlink.push
  have perm : (head :: (front ++ b :: back)).Perm (b :: head :: (front ++ back)) :=
    (List.perm_middle.cons head).trans (List.Perm.swap b head _)
  exact (List.nodup_cons.1 (perm.nodup_iff.1 ring.nodup)).1

end Surgery

end Xv6Rpi.Theory.Ring
