/-
# Theory.Redo -- what a disk with a redo log stands for

A redo log on a disk `Nat → B` is a header block at `start` that names home
blocks, and one slot after it for each name.  `logical d` is what the disk stands
for: the slot's content for a block the header names, the disk's own content for
any other.  Recovery turns `d` into `logical d`; so a write is safe at every crash
point exactly if it moves `logical` nowhere or by a whole transaction.  There are
four kinds of writes:

* `logical_fill`: filling a slot while the header names nothing changes nothing;
* `logical_commit`: the header write that names blocks moves `logical` at once;
* `logical_install`: copying a slot to its home block changes nothing;
* `logical_erase`: emptying the header changes nothing once all is installed.
-/
import Mathlib.Data.List.Basic
import Mathlib.Data.Set.Basic
import Mathlib.Logic.Function.Basic
import Mathlib.Tactic.Common

namespace Xv6Rpi.Theory

set_option autoImplicit false

/-- The shape of a redo log: its header block, the number of slots that follow it,
and how a header block names home blocks. -/
structure Redo (B : Type) where
  start : Nat
  slots : Nat
  entries : B → List Nat

namespace Redo

variable {B : Type} (r : Redo B)

/-- The header and the slots. -/
def area : Set Nat := {x | r.start ≤ x ∧ x ≤ r.start + r.slots}

/-- What the disk stands for. -/
def logical (d : Nat → B) (x : Nat) : B :=
  if x ∈ r.entries (d r.start) then d (r.start + 1 + (r.entries (d r.start)).idxOf x) else d x

/-- The header of `d` names distinct blocks outside the log, no more than slots. -/
structure Sound (d : Nat → B) : Prop where
  nodup : (r.entries (d r.start)).Nodup
  outside : ∀ x ∈ r.entries (d r.start), x ∉ r.area
  fits : (r.entries (d r.start)).length ≤ r.slots

variable {r} {d : Nat → B}

theorem start_mem_area : r.start ∈ r.area := ⟨le_refl _, Nat.le_add_right _ _⟩

theorem slot_mem_area {i : Nat} (inside : i < r.slots) : r.start + 1 + i ∈ r.area := by
  constructor <;> omega

theorem Sound.slot_mem (sound : r.Sound d) {x : Nat} (member : x ∈ r.entries (d r.start)) :
    r.start + 1 + (r.entries (d r.start)).idxOf x ∈ r.area := by
  have below : (r.entries (d r.start)).idxOf x < (r.entries (d r.start)).length :=
    List.idxOf_lt_length_of_mem member
  exact slot_mem_area (lt_of_lt_of_le below sound.fits)

theorem logical_of_clean (clean : r.entries (d r.start) = []) : r.logical d = d := by
  funext x
  simp [logical, clean]

theorem sound_of_clean (clean : r.entries (d r.start) = []) : r.Sound d := by
  refine ⟨?_, ?_, ?_⟩ <;> simp [clean]

theorem logical_fill (clean : r.entries (d r.start) = []) {i : Nat} {b : B} {x : Nat}
    (inside : i < r.slots) (out : x ∉ r.area) :
    r.logical (Function.update d (r.start + 1 + i) b) x = r.logical d x := by
  have ne : r.start ≠ r.start + 1 + i := by omega
  have header : Function.update d (r.start + 1 + i) b r.start = d r.start :=
    Function.update_of_ne ne ..
  have xne : x ≠ r.start + 1 + i := by
    rintro rfl
    exact out (slot_mem_area inside)
  rw [logical_of_clean clean, logical_of_clean (by rw [header, clean]), Function.update_of_ne xne]

/-- After the header write the named blocks stand for their slots. -/
theorem logical_commit {h : B} {x : Nat} (out : x ∉ r.area) :
    r.logical (Function.update d r.start h) x =
      if x ∈ r.entries h then d (r.start + 1 + (r.entries h).idxOf x) else d x := by
  have xne : x ≠ r.start := by
    rintro rfl
    exact out start_mem_area
  unfold logical
  rw [Function.update_self, Function.update_of_ne xne]
  by_cases member : x ∈ r.entries h
  · have ne : r.start + 1 + (r.entries h).idxOf x ≠ r.start := by omega
    rw [if_pos member, if_pos member, Function.update_of_ne ne]
  · rw [if_neg member, if_neg member]

theorem Sound.install (sound : r.Sound d) {y : Nat} {b : B} (member : y ∈ r.entries (d r.start)) :
    Function.update d y b r.start = d r.start := by
  refine Function.update_of_ne (fun same => ?_) ..
  subst same
  exact sound.outside _ member start_mem_area

theorem sound_install (sound : r.Sound d) {y : Nat} {b : B} (member : y ∈ r.entries (d r.start)) :
    r.Sound (Function.update d y b) := by
  have header := sound.install (b := b) member
  refine ⟨?_, ?_, ?_⟩ <;> rw [header]
  · exact sound.nodup
  · exact sound.outside
  · exact sound.fits

theorem logical_install (sound : r.Sound d) {y : Nat} (member : y ∈ r.entries (d r.start)) :
    r.logical (Function.update d y (d (r.start + 1 + (r.entries (d r.start)).idxOf y))) =
      r.logical d := by
  have header := fun b => sound.install (b := b) member
  funext x
  unfold logical
  rw [header]
  by_cases named : x ∈ r.entries (d r.start)
  · -- slots are in the log, home blocks are not
    rw [if_pos named, if_pos named]
    refine Function.update_of_ne (fun same => ?_) ..
    exact sound.outside y member (same ▸ sound.slot_mem named)
  · have xne : x ≠ y := by
      rintro rfl
      exact named member
    rw [if_neg named, if_neg named, Function.update_of_ne xne]

theorem logical_erase {h : B} {x : Nat} (empty : r.entries h = []) (out : x ∉ r.area)
    (installed : ∀ y ∈ r.entries (d r.start),
      d y = d (r.start + 1 + (r.entries (d r.start)).idxOf y)) :
    r.logical (Function.update d r.start h) x = r.logical d x := by
  have xne : x ≠ r.start := by
    rintro rfl
    exact out start_mem_area
  rw [logical_of_clean (by rw [Function.update_self, empty]), Function.update_of_ne xne]
  unfold logical
  by_cases named : x ∈ r.entries (d r.start)
  · rw [if_pos named, installed x named]
  · rw [if_neg named]

end Redo

end Xv6Rpi.Theory
