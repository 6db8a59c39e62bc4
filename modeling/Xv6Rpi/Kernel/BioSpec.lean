/-
# Kernel.BioSpec -- the buffer cache from outside

`Looks U c v d D h` describes a cache by what its users can tell: the content `v`
it shows for each sector, the disk `d` under it, the dirty sectors `D`, and for
each buffer the sector some process holds in it (`h`).  `U` are the sectors with a
store that is neither written nor marked yet.  Every operation is one equation for
its outcome together with how the cache looks afterwards; the layers above use
nothing else of the cache.
-/
import Xv6Rpi.Kernel.BioInv
import Mathlib.Data.Finset.Card
import Mathlib.Data.Fintype.Card

namespace Xv6Rpi.Kernel

open Theory

set_option autoImplicit false

/-- Which sector each buffer is held for. -/
abbrev Held : Type := BufId → Option Nat

def Held.nothing : Held := fun _ => none

/-- The buffers in use. -/
def Held.count (h : Held) : Nat := (Finset.univ.filter fun b => h b ≠ none).card

structure Looks (U : Set Nat) (c : Bio) (v d : Disk) (D : Set Nat) (h : Held) : Prop where
  inv : BioInv U c
  view : c.view = v
  disk : c.disk = d
  dirty : ∀ x, c.Dirty x ↔ x ∈ D
  held : ∀ b, h b = if (c.bufs b).busy then some (c.bufs b).sector else none

theorem Held.count_upd_some {h : Held} {b : BufId} {x : Nat} (idle : h b = none) :
    Held.count (upd h b (some x)) = h.count + 1 := by
  have grown : (Finset.univ.filter fun a => upd h b (some x) a ≠ none) =
      insert b (Finset.univ.filter fun a => h a ≠ none) := by
    ext a
    by_cases eq : a = b
    · subst eq
      simp
    · simp [eq]
  unfold Held.count
  rw [grown, Finset.card_insert_of_notMem (by simp [idle])]

theorem Held.count_nothing : Held.nothing.count = 0 := by
  simp [Held.count, Held.nothing]

theorem Held.count_one (b : BufId) (x : Nat) : Held.count (upd Held.nothing b (some x)) = 1 := by
  rw [Held.count_upd_some rfl, Held.count_nothing]

theorem Held.upd_upd_none {h : Held} {b : BufId} {x : Option Nat} (idle : h b = none) :
    upd (upd h b x) b none = h := by
  rw [upd_idem, ← idle, upd_eq_self]

namespace Looks

variable {U : Set Nat} {c : Bio} {s : KState} {v d : Disk} {D : Set Nat} {h : Held}
  {b : BufId} {x : Nat}

theorem busy (looks : Looks U c v d D h) (held : h b = some x) :
    (c.bufs b).busy = true ∧ (c.bufs b).sector = x := by
  rw [looks.held b] at held
  cases busy : (c.bufs b).busy with
  | true =>
    rw [busy] at held
    exact ⟨rfl, Option.some.inj held⟩
  | false =>
    rw [busy] at held
    cases held

theorem holds (looks : Looks U c v d D h) (held : h b = some x) : c.Holds b x := by
  obtain ⟨busy, sector⟩ := looks.busy held
  exact sector ▸ looks.inv.holds_of_busy busy

/-- A held buffer shows its sector. -/
theorem data (looks : Looks U c v d D h) (held : h b = some x) : (c.bufs b).data = v x := by
  rw [← looks.view, Bio.view_of_holds looks.inv.unique (looks.holds held)]

theorem inside (looks : Looks U c v d D h) (held : h b = some x) : x < c.disksize :=
  (looks.inv.holds_bound (looks.holds held)).2

theorem busy_iff (looks : Looks U c v d D h) : c.Busy x ↔ ∃ b, h b = some x := by
  constructor
  · rintro ⟨b, holds, busy⟩
    exact ⟨b, by rw [looks.held b, if_pos busy, holds.2]⟩
  · rintro ⟨b, held⟩
    exact ⟨b, looks.holds held, (looks.busy held).1⟩

/-- A clean sector shows what is on the disk. -/
theorem clean (looks : Looks ∅ c v d D h) (out : x ∉ D) : v x = d x := by
  rw [← looks.view, ← looks.disk]
  refine looks.inv.view_eq_disk ?_ (Set.notMem_empty x)
  rwa [looks.dirty]

/-- There is room for any sector while fewer are in use than there are buffers. -/
theorem room (looks : Looks U c v d D h) {L : Finset Nat} (logged : ∀ x, x ∈ D → x ∈ L)
    (small : h.count + L.card < NBUF) (x : Nat) : c.Room x := by
  by_contra full
  -- then every buffer is held or holds a sector of `L`, and no two the same
  have inUse : ∀ b, h b = none → c.Holds b (c.bufs b).sector ∧ (c.bufs b).sector ∈ L := by
    intro b idle
    have notBusy : (c.bufs b).busy = false := by
      cases busy : (c.bufs b).busy with
      | false => rfl
      | true =>
        rw [looks.held b, if_pos busy] at idle
        cases idle
    cases dirty : (c.bufs b).dirty with
    | true =>
      have holds := looks.inv.holds_of_dirty dirty
      exact ⟨holds, logged _ ((looks.dirty _).1 ⟨b, holds, dirty⟩)⟩
    | false => exact absurd (Or.inr ⟨b, notBusy, dirty⟩) full
  have inject : Set.InjOn (fun b => (c.bufs b).sector)
      (Finset.univ.filter fun b => ¬ h b ≠ none : Finset BufId) := by
    intro a aIn b bIn same
    simp only [ne_eq, not_not, Finset.coe_filter, Finset.mem_univ, true_and,
      Set.mem_ofPred_eq] at aIn bIn
    have holdsA := (inUse a aIn).1
    rw [show (c.bufs a).sector = (c.bufs b).sector from same] at holdsA
    exact looks.inv.unique a b _ holdsA (inUse b bIn).1
  have enough : (Finset.univ.filter fun b => ¬ h b ≠ none).card ≤ L.card := by
    refine Finset.card_le_card_of_injOn _ (fun b bIn => ?_) inject
    simp only [ne_eq, not_not, Finset.coe_filter, Finset.mem_univ, true_and,
      Set.mem_ofPred_eq] at bIn
    exact (inUse b bIn).2
  have total : (Finset.univ.filter fun b => h b ≠ none).card +
      (Finset.univ.filter fun b => ¬ h b ≠ none).card = NBUF := by
    rw [Finset.card_filter_add_card_filter_not, Finset.card_univ, Fintype.card_fin]
  unfold Held.count at small
  omega

theorem room_idle (looks : Looks U c v d ∅ Held.nothing) (x : Nat) : c.Room x := by
  refine looks.room (L := ∅) (fun _ member => by cases member) ?_ x
  rw [Held.count_nothing, Finset.card_empty]
  decide

/-! ## The operations -/

theorem bread (looks : Looks U s.bio v d D h) (inside : x < s.bio.disksize)
    (free : ∀ b, h b ≠ some x) (room : s.bio.Room x) :
    ∃ b c, Kernel.bread ROOTDEV x s = .done b { s with bio := c } ∧ h b = none ∧
      c.disksize = s.bio.disksize ∧ Looks U c v d D (upd h b (some x)) := by
  have idle : ¬ s.bio.Busy x := by
    rw [looks.busy_iff]
    exact fun ⟨b, held⟩ => free b held
  obtain ⟨b, c, returned, post⟩ := bread_eq looks.inv inside idle room
  refine ⟨b, c, returned, ?_, post.disksize, post.inv, ?_, ?_, ?_, ?_⟩
  · rw [looks.held b, post.idle]
    rfl
  · rw [post.view, looks.view]
  · rw [post.disk, looks.disk]
  · exact fun y => (post.dirty_iff y).trans (looks.dirty y)
  · intro a
    by_cases eq : a = b
    · subst eq
      rw [upd_same, if_pos post.busy, post.holds.2]
    · rw [upd_ne _ _ eq, post.others a eq, looks.held a]

theorem brelse (looks : Looks U s.bio v d D h) (held : h b = some x) (synced : x ∉ U) :
    Kernel.brelse b s = .done () { s with bio := s.bio.released b } ∧
      Looks U (s.bio.released b) v d D (upd h b none) := by
  obtain ⟨busy, sector⟩ := looks.busy held
  refine ⟨brelse_eq looks.inv busy, ?_, ?_, ?_, ?_, ?_⟩
  · exact bioInv_released looks.inv (sector ▸ synced)
  · rw [view_released, looks.view]
  · exact looks.disk
  · exact fun y => (dirty_released y).trans (looks.dirty y)
  · intro a
    rw [released_bufs]
    by_cases eq : a = b
    · simp [eq]
    · simp [eq, looks.held a]

theorem stored (looks : Looks U c v d D h) (held : h b = some x) (y : Block) :
    Looks (insert x U) (c.stored b y) (upd v x y) d D h := by
  obtain ⟨busy, sector⟩ := looks.busy held
  refine ⟨?_, ?_, looks.disk, ?_, ?_⟩
  · exact sector ▸ bioInv_stored looks.inv busy y
  · rw [view_stored looks.inv busy, looks.view, sector]
  · exact fun z => (dirty_stored looks.inv busy y z).trans (looks.dirty z)
  · intro a
    rw [looks.held a]
    by_cases eq : a = b
    · subst eq
      simp [Bio.stored, Bio.setBuf]
    · simp [Bio.stored, Bio.setBuf, eq]

theorem bwrite (looks : Looks U s.bio v d D h) (held : h b = some x) :
    Kernel.bwrite b s = .event (.write x (v x)) { s with bio := s.bio.written b }
        (.done () { s with bio := s.bio.written b }) ∧
      Looks (U \ {x}) (s.bio.written b) v (upd d x (v x)) (D \ {x}) h := by
  obtain ⟨busy, sector⟩ := looks.busy held
  have shown := looks.data held
  refine ⟨?_, ?_, ?_, ?_, ?_, ?_⟩
  · rw [bwrite_eq looks.inv busy, sector, shown]
  · exact sector ▸ bioInv_written looks.inv busy
  · rw [view_written looks.inv busy, looks.view]
  · show upd s.bio.disk _ _ = _
    rw [looks.disk, sector, shown]
  · intro z
    rw [dirty_written looks.inv busy, looks.dirty z, sector]
    exact Iff.rfl
  · intro a
    rw [looks.held a]
    by_cases eq : a = b
    · subst eq
      simp [Bio.written, Bio.setBuf]
    · simp [Bio.written, Bio.setBuf, eq]

theorem marked (looks : Looks U c v d D h) (held : h b = some x) :
    Looks (U \ {x}) (c.marked b) v d (insert x D) h := by
  obtain ⟨busy, sector⟩ := looks.busy held
  refine ⟨?_, ?_, looks.disk, ?_, ?_⟩
  · exact sector ▸ bioInv_marked looks.inv busy
  · rw [view_marked looks.inv busy, looks.view]
  · intro z
    rw [dirty_marked looks.inv busy, looks.dirty z, sector, Set.mem_insert_iff]
    exact Or.comm
  · intro a
    rw [looks.held a]
    by_cases eq : a = b
    · subst eq
      simp [Bio.marked, Bio.setBuf]
    · simp [Bio.marked, Bio.setBuf, eq]

end Looks

end Xv6Rpi.Kernel
