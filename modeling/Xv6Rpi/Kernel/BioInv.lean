/-
# Kernel.BioInv -- the buffer cache's invariant and one specification per operation

`BioInv U c` is the invariant of the cache between two operations, where `U` is
the set of sectors whose holder has changed the buffer and neither written nor
dirtied it since:

* the list is a ring through all buffers;
* a buffer holds no block (as `binit` left it), or a valid block of the disk;
* no two buffers hold one sector;
* a clean buffer of a sector outside `U` agrees with the disk, and the sectors of
  `U` are held.

`Bio.view c` is the disk as the cache shows it.  Each operation has one
specification, an equation for its outcome with what the new cache is:
`bread_eq`, `brelse_eq`, `bwrite_eq`; stores go through `BioInv.store`.
-/
import Xv6Rpi.Kernel.Bio
import Mathlib.Data.Set.Basic
import Mathlib.Data.List.FinRange
import Mathlib.Data.List.Perm.Basic

namespace Xv6Rpi.Kernel

open Theory

set_option autoImplicit false

namespace Bio

/-- Buffer `b` holds a disk sector. -/
def Holds (c : Bio) (b : BufId) (sector : Nat) : Prop :=
  (c.bufs b).dev = ROOTDEV ∧ (c.bufs b).sector = sector

instance (c : Bio) (b : BufId) (sector : Nat) : Decidable (c.Holds b sector) :=
  inferInstanceAs (Decidable (_ ∧ _))

/-- Some process holds the sector's buffer. -/
def Busy (c : Bio) (sector : Nat) : Prop := ∃ b, c.Holds b sector ∧ (c.bufs b).busy = true

/-- The sector's buffer waits to be written. -/
def Dirty (c : Bio) (sector : Nat) : Prop := ∃ b, c.Holds b sector ∧ (c.bufs b).dirty = true

/-- `bget` finds the sector or a buffer to recycle. -/
def Room (c : Bio) (sector : Nat) : Prop :=
  (∃ b, c.Holds b sector) ∨ ∃ b, (c.bufs b).busy = false ∧ (c.bufs b).dirty = false

/-- The disk as the cache shows it. -/
def view (c : Bio) (sector : Nat) : Block :=
  match (List.finRange NBUF).find? fun b => decide (c.Holds b sector) with
  | some b => (c.bufs b).data
  | none => c.disk sector

/-- The list is a ring through all buffers. -/
def RingOk (c : Bio) : Prop :=
  ∃ l : List BufId, l.Perm (List.finRange NBUF) ∧ Ring.IsRing c.next c.prev none (l.map some)

/-- The buffer is as `binit` left it. -/
def Fresh (x : Buf) : Prop :=
  x.dev = NODEV ∧ x.busy = false ∧ x.valid = false ∧ x.dirty = false

end Bio

structure BioInv (U : Set Nat) (c : Bio) : Prop where
  ring : c.RingOk
  bound : ∀ b, Bio.Fresh (c.bufs b) ∨
    ((c.bufs b).dev = ROOTDEV ∧ (c.bufs b).valid = true ∧ (c.bufs b).sector < c.disksize)
  unique : ∀ a b sector, c.Holds a sector → c.Holds b sector → a = b
  sync : ∀ b sector, c.Holds b sector → (c.bufs b).dirty = false → sector ∉ U →
    (c.bufs b).data = c.disk sector
  held : ∀ b sector, c.Holds b sector → sector ∈ U → (c.bufs b).busy = true

/-! ## The search loops -/

namespace Bio

variable {c : Bio}

theorem find?_map_some {α : Type} (l : List α) (p : α → Bool) :
    (l.map some).find? (fun x => x.any p) = (l.find? p).map some := by
  induction l with
  | nil => rfl
  | cons x l ih =>
    simp only [List.map_cons, List.find?_cons, Option.any_some]
    cases p x with
    | true => rfl
    | false => exact ih

/-- What a search in either direction comes to. -/
theorem ring_search (ring : c.RingOk) (p : BufId → Bool) {found : Option BufPtr}
    (isWalk : (Ring.walk c.next none (fun x => x.any p) (NBUF + 1) (c.next none)).map Option.join = found ∨
      (Ring.walk c.prev none (fun x => x.any p) (NBUF + 1) (c.prev none)).map Option.join = found) :
    (∃ b, found = some (some b) ∧ p b = true) ∨ found = some none ∧ ∀ b, p b = false := by
  obtain ⟨l, perm, isRing⟩ := ring
  have len : (l.map some).length = NBUF := by rw [List.length_map, perm.length_eq]; simp
  have out : none ∉ l.map some := by simp
  have forth := Ring.walk_next (fun x => x.any p) isRing.linked out
  have back := Ring.walk_prev (fun x => x.any p) isRing.linked out
  rw [len] at forth back
  have all : ∀ b, b ∈ l := fun b => perm.mem_iff.2 (List.mem_finRange b)
  obtain ⟨l', all', walked⟩ : ∃ l' : List BufId, (∀ b, b ∈ l') ∧ some (l'.find? p) = found := by
    rcases isWalk with rfl | rfl
    · refine ⟨l, all, ?_⟩
      rw [forth, find?_map_some]
      cases l.find? p <;> rfl
    · refine ⟨l.reverse, fun b => List.mem_reverse.2 (all b), ?_⟩
      rw [back, ← List.map_reverse, find?_map_some]
      cases l.reverse.find? p <;> rfl
  rw [← walked]
  cases search : l'.find? p with
  | some b => exact Or.inl ⟨b, rfl, List.find?_some search⟩
  | none => exact Or.inr ⟨rfl, fun b => by simpa using List.find?_eq_none.1 search b (all' b)⟩

/-- What the first loop of `bget` comes to. -/
theorem cached_cases (ring : c.RingOk) (dev sector : Nat) :
    (∃ b, c.cached dev sector = some (some b) ∧ (c.bufs b).dev = dev ∧
        (c.bufs b).sector = sector) ∨
      (c.cached dev sector = some none ∧
        ∀ b, ¬ ((c.bufs b).dev = dev ∧ (c.bufs b).sector = sector)) := by
  rcases ring_search ring _ (Or.inl rfl) with ⟨b, found, hit⟩ | ⟨found, miss⟩
  · exact Or.inl ⟨b, found, by simpa using hit⟩
  · exact Or.inr ⟨found, fun b holds => by simpa [holds] using miss b⟩

/-- What the second loop of `bget` comes to. -/
theorem victim_cases (ring : c.RingOk) :
    (∃ b, c.victim = some (some b) ∧ (c.bufs b).busy = false ∧ (c.bufs b).dirty = false) ∨
      (c.victim = some none ∧ ∀ b, (c.bufs b).busy = true ∨ (c.bufs b).dirty = true) := by
  rcases ring_search ring _ (Or.inr rfl) with ⟨b, found, hit⟩ | ⟨found, miss⟩
  · exact Or.inl ⟨b, found, by simpa using hit⟩
  · exact Or.inr ⟨found, fun b => by simpa [Decidable.or_iff_not_imp_left] using miss b⟩

/-! ## The view -/

section Unique

variable {b : BufId} {sector : Nat} (unique : ∀ a b sector, c.Holds a sector → c.Holds b sector → a = b)
  (holds : c.Holds b sector)

include unique holds

theorem view_of_holds : c.view sector = (c.bufs b).data := by
  unfold view
  cases found : (List.finRange NBUF).find? fun b => decide (c.Holds b sector) with
  | some a =>
    have hit := List.find?_some found
    rw [decide_eq_true_eq] at hit
    simp only [unique a b sector hit holds]
  | none =>
    have miss := List.find?_eq_none.1 found b (List.mem_finRange b)
    simp [holds] at miss

/-- A property of the buffer of a sector: the pattern behind `Dirty` and `Busy`. -/
theorem exists_holds_iff (P : Buf → Prop) : (∃ a, c.Holds a sector ∧ P (c.bufs a)) ↔ P (c.bufs b) := by
  constructor
  · rintro ⟨a, holdsA, isP⟩
    rwa [unique a b sector holdsA holds] at isP
  · exact fun isP => ⟨b, holds, isP⟩

end Unique

theorem view_of_not_holds {sector : Nat} (free : ∀ b, ¬ c.Holds b sector) :
    c.view sector = c.disk sector := by
  unfold view
  have none_ : (List.finRange NBUF).find? (fun b => decide (c.Holds b sector)) = none := by
    rw [List.find?_eq_none]
    intro b _
    simpa using free b
  rw [none_]

theorem holds_or_not (c : Bio) (sector : Nat) :
    (∃ b, c.Holds b sector) ∨ ∀ b, ¬ c.Holds b sector := by
  by_cases some_ : ∃ b, c.Holds b sector
  · exact Or.inl some_
  · exact Or.inr fun b holds => some_ ⟨b, holds⟩

/-! ### One buffer is replaced

Buffer `b` gets a sector that no other buffer holds. -/

section Put

variable {a b : BufId} {sector : Nat} {x : Buf} {d : Disk} (dev : x.dev = ROOTDEV)
  (same : x.sector = sector) (apart : ∀ a, a ≠ b → ¬ c.Holds a sector)
  (unique : ∀ a b sector, c.Holds a sector → c.Holds b sector → a = b)

theorem holds_put_ne (ne : a ≠ b) (y : Nat) :
    Bio.Holds { c.setBuf b x with disk := d } a y ↔ c.Holds a y := by
  simp only [Holds, setBuf, upd_ne _ _ ne]

include dev same

theorem holds_put (y : Nat) : Bio.Holds { c.setBuf b x with disk := d } b y ↔ y = sector := by
  simp only [Holds, setBuf, upd_same, dev, same, true_and]
  exact eq_comm

include apart unique

theorem unique_put (a a' : BufId) (y : Nat) (holds : Bio.Holds { c.setBuf b x with disk := d } a y)
    (holds' : Bio.Holds { c.setBuf b x with disk := d } a' y) : a = a' := by
  by_cases eq : a = b <;> by_cases eq' : a' = b
  · rw [eq, eq']
  · subst eq
    obtain rfl := (holds_put dev same y).1 holds
    exact absurd ((holds_put_ne eq' y).1 holds') (apart a' eq')
  · subst eq'
    obtain rfl := (holds_put dev same y).1 holds'
    exact absurd ((holds_put_ne eq y).1 holds) (apart a eq)
  · exact unique a a' y ((holds_put_ne eq y).1 holds) ((holds_put_ne eq' y).1 holds')

/-- The view changes there only, if what is thrown out was in step with the disk. -/
theorem view_put (elsewhere : ∀ y, y ≠ sector → d y = c.disk y)
    (out : ∀ y, y ≠ sector → c.Holds b y → (c.bufs b).data = c.disk y) :
    ({ c.setBuf b x with disk := d } : Bio).view = upd c.view sector x.data := by
  have unique' := unique_put (d := d) dev same apart unique
  funext y
  by_cases here : y = sector
  · subst here
    rw [upd_same, view_of_holds unique' ((holds_put dev same y).2 rfl)]
    simp [setBuf]
  · rw [upd_ne _ _ here]
    by_cases other : ∃ a, a ≠ b ∧ c.Holds a y
    · obtain ⟨a, ne, holds⟩ := other
      rw [view_of_holds unique holds, view_of_holds unique' ((holds_put_ne ne y).2 holds)]
      simp [setBuf, ne]
    · have gone : ∀ a, ¬ Bio.Holds { c.setBuf b x with disk := d } a y := by
        intro a holds
        by_cases eq : a = b
        · exact here ((holds_put dev same y).1 (eq ▸ holds))
        · exact other ⟨a, eq, (holds_put_ne eq y).1 holds⟩
      rw [view_of_not_holds gone]
      refine (elsewhere y here).trans ?_
      by_cases holds : c.Holds b y
      · rw [view_of_holds unique holds, out y here holds]
      · refine (view_of_not_holds fun a holdsA => other ⟨a, ?_, holdsA⟩).symm
        rintro rfl
        exact holds holdsA

end Put

end Bio

namespace BioInv

variable {U : Set Nat} {c : Bio}

theorem view_eq_disk (inv : BioInv U c) {sector : Nat} (clean : ¬ c.Dirty sector)
    (synced : sector ∉ U) : c.view sector = c.disk sector := by
  rcases c.holds_or_not sector with ⟨b, holds⟩ | free
  · rw [Bio.view_of_holds inv.unique holds]
    refine inv.sync b sector holds ?_ synced
    cases dirty : (c.bufs b).dirty with
    | false => rfl
    | true => exact absurd ⟨b, holds, dirty⟩ clean
  · exact Bio.view_of_not_holds free

theorem holds_of_busy (inv : BioInv U c) {b : BufId} (busy : (c.bufs b).busy = true) :
    c.Holds b (c.bufs b).sector := by
  rcases inv.bound b with fresh | ⟨dev, -, -⟩
  · rw [fresh.2.1] at busy
    cases busy
  · exact ⟨dev, rfl⟩

theorem holds_of_dirty (inv : BioInv U c) {b : BufId} (dirty : (c.bufs b).dirty = true) :
    c.Holds b (c.bufs b).sector := by
  rcases inv.bound b with fresh | ⟨dev, -, -⟩
  · rw [fresh.2.2.2] at dirty
    cases dirty
  · exact ⟨dev, rfl⟩

theorem holds_bound (inv : BioInv U c) {b : BufId} {sector : Nat} (holds : c.Holds b sector) :
    (c.bufs b).valid = true ∧ sector < c.disksize := by
  rcases inv.bound b with fresh | ⟨-, valid, inside⟩
  · exact absurd (holds.1.symm.trans fresh.1) (by decide)
  · exact ⟨valid, holds.2 ▸ inside⟩

/-! ## Changing one buffer -/

/-- A buffer may be replaced by one of a sector that no other buffer holds, and the sector rewritten
on the disk, as long as the new buffer is dirty, agrees with the disk, or is put into the set of
unsynchronised sectors. -/
theorem put (inv : BioInv U c) {b : BufId} {sector : Nat} {x : Buf} {disk : Disk} {W : Set Nat}
    (apart : ∀ a, a ≠ b → ¬ c.Holds a sector) (inside : sector < c.disksize)
    (dev : x.dev = ROOTDEV) (same : x.sector = sector) (valid : x.valid = true)
    (elsewhere : ∀ y, y ≠ sector → disk y = c.disk y ∧ (y ∈ W ↔ y ∈ U))
    (busy : sector ∈ W → x.busy = true)
    (sync : x.dirty = false → sector ∉ W → x.data = disk sector) :
    BioInv W { c.setBuf b x with disk := disk } := by
  have cases_ : ∀ a y, Bio.Holds { c.setBuf b x with disk := disk } a y →
      a = b ∧ y = sector ∨ a ≠ b ∧ y ≠ sector ∧ c.Holds a y := by
    intro a y holds
    by_cases eq : a = b
    · exact Or.inl ⟨eq, (Bio.holds_put dev same y).1 (eq ▸ holds)⟩
    · have old := (Bio.holds_put_ne eq y).1 holds
      exact Or.inr ⟨eq, fun here => apart a eq (here ▸ old), old⟩
  refine ⟨inv.ring, ?_, Bio.unique_put dev same apart inv.unique, ?_, ?_⟩
  · refine forall_upd (P := fun _ (x : Buf) => Bio.Fresh x ∨ x.dev = ROOTDEV ∧ x.valid = true ∧
      x.sector < c.disksize) ?_ fun a _ => inv.bound a
    exact Or.inr ⟨dev, valid, same ▸ inside⟩
  · intro a y holds clean synced
    rcases cases_ a y holds with ⟨rfl, rfl⟩ | ⟨eq, ne, old⟩
    · simp only [Bio.setBuf, upd_same] at clean ⊢
      exact sync clean synced
    · simp only [Bio.setBuf, upd_ne _ _ eq] at clean ⊢
      rw [(elsewhere y ne).1]
      exact inv.sync a y old clean fun member => synced ((elsewhere y ne).2.2 member)
  · intro a y holds member
    rcases cases_ a y holds with ⟨rfl, rfl⟩ | ⟨eq, ne, old⟩
    · simpa only [Bio.setBuf, upd_same] using busy member
    · simp only [Bio.setBuf, upd_ne _ _ eq]
      exact inv.held a y old ((elsewhere y ne).2.1 member)

/-- **Stores by the holder.** -/
theorem store (inv : BioInv U c) {b : BufId} {sector : Nat} (holds : c.Holds b sector)
    {x : Buf} {disk : Disk} {W : Set Nat}
    (dev : x.dev = ROOTDEV) (same : x.sector = sector) (valid : x.valid = true)
    (elsewhere : ∀ y, y ≠ sector → disk y = c.disk y ∧ (y ∈ W ↔ y ∈ U))
    (busy : sector ∈ W → x.busy = true)
    (sync : x.dirty = false → sector ∉ W → x.data = disk sector) :
    BioInv W { c.setBuf b x with disk := disk } :=
  inv.put (fun a ne holdsA => ne (inv.unique a b sector holdsA holds)) (inv.holds_bound holds).2 dev same
    valid elsewhere busy sync

end BioInv

namespace Bio

variable {c : Bio}

section Store

variable {b : BufId} {sector : Nat} (unique : ∀ a b sector, c.Holds a sector → c.Holds b sector → a = b)
  (holds : c.Holds b sector) {x : Buf}

include unique holds

theorem upd_view_self : upd c.view sector (c.bufs b).data = c.view := by
  rw [← view_of_holds unique holds, upd_eq_self]

/-- A store into the buffer of a sector changes the view there only. -/
theorem view_store {disk : Disk} (dev : x.dev = ROOTDEV) (same : x.sector = sector)
    (elsewhere : ∀ y, y ≠ sector → disk y = c.disk y) :
    ({ c.setBuf b x with disk := disk } : Bio).view = upd c.view sector x.data :=
  view_put dev same (fun a ne holdsA => ne (unique a b sector holdsA holds)) unique elsewhere
    fun _ ne holdsB => absurd (holdsB.2.symm.trans holds.2) ne

/-- A property of buffers, seen by sector, after a store into one buffer. -/
theorem exists_store (P : Buf → Prop) (x : Buf) (disk : Disk) (dev : x.dev = ROOTDEV)
    (same : x.sector = sector) (y : Nat) :
    (∃ a, Bio.Holds { c.setBuf b x with disk := disk } a y ∧ P ((c.setBuf b x).bufs a)) ↔
      if y = sector then P x else ∃ a, c.Holds a y ∧ P (c.bufs a) := by
  by_cases here : y = sector
  · subst here
    have unique' := unique_put (d := disk) dev same
      (fun a ne holdsA => ne (unique a b y holdsA holds)) unique
    refine (exists_holds_iff unique' ((holds_put dev same y).2 rfl) P).trans ?_
    rw [if_pos rfl]
    simp only [setBuf, upd_same]
  · rw [if_neg here]
    refine exists_congr fun a => ?_
    by_cases eq : a = b
    · subst eq
      have old : ¬ c.Holds a y := fun holdsA => here (holdsA.2.symm.trans holds.2)
      simp only [holds_put dev same, here, old, false_and]
    · rw [holds_put_ne eq]
      simp only [setBuf, upd_ne _ _ eq]

end Store

end Bio

/-! ## binit -/

theorem Bio.ring_foldl_binitStep (m : List BufId) : ∀ (c : Bio) (l : List BufId),
    Ring.IsRing c.next c.prev none (l.map some) → (m.reverse ++ l).Nodup →
      Ring.IsRing (m.foldl Bio.binitStep c).next (m.foldl Bio.binitStep c).prev none
        ((m.reverse ++ l).map some) := by
  induction m with
  | nil => exact fun c l ring _ => ring
  | cons b m ih =>
    intro c l ring nodup
    rw [List.reverse_cons, List.append_assoc, List.singleton_append] at nodup ⊢
    have fresh : b ∉ l := (List.nodup_cons.1 (List.nodup_append.1 nodup).2.1).1
    refine ih (c.binitStep b) (b :: l) ⟨?_, ?_⟩ nodup
    · have inserted := ring.linked.insert (b := some b) ring.nodup (by simp) (by simp)
        (by simpa using fresh) (by simp)
      simpa only [Bio.binitStep, upd_eq_update, List.map_cons] using inserted
    · have nodupB : (b :: l).Nodup := (List.nodup_append.1 nodup).2.1
      refine List.nodup_cons.2 ⟨by simp, ?_⟩
      exact nodupB.map (Option.some_injective _)

theorem Bio.foldl_binitStep (m : List BufId) : ∀ (c : Bio),
    (∀ b ∉ m, Bio.Fresh (c.bufs b)) →
    (∀ b, (c.bufs b).busy = false ∧ (c.bufs b).valid = false ∧ (c.bufs b).dirty = false) →
      (m.foldl Bio.binitStep c).disk = c.disk ∧ (m.foldl Bio.binitStep c).disksize = c.disksize ∧
        ∀ b, Bio.Fresh ((m.foldl Bio.binitStep c).bufs b) := by
  induction m with
  | nil => exact fun c fresh _ => ⟨rfl, rfl, fun b => fresh b (by simp)⟩
  | cons a m ih =>
    intro c fresh clear
    refine ih (c.binitStep a) (fun b out => ?_) fun b => ?_
    · refine forall_upd (P := fun b x => b ∉ m → Bio.Fresh x) (x := { c.bufs a with dev := NODEV })
        (fun _ => ⟨rfl, clear a⟩) (fun b ne out => fresh b ?_) b out
      simp [ne, out]
    · exact forall_upd (P := fun _ (x : Buf) => x.busy = false ∧ x.valid = false ∧ x.dirty = false)
        (x := { c.bufs a with dev := NODEV }) (clear a) (fun b _ => clear b) b

section Binit

variable (disk : Disk) (disksize : Nat)

theorem binit_fresh : (Bio.binit disk disksize).disk = disk ∧
    (Bio.binit disk disksize).disksize = disksize ∧
      ∀ b, Bio.Fresh ((Bio.binit disk disksize).bufs b) :=
  Bio.foldl_binitStep (List.finRange NBUF) (KState.zeroed disk disksize).bio
    (fun b out => absurd (List.mem_finRange b) out) fun _ => ⟨rfl, rfl, rfl⟩

theorem not_holds_binit (b : BufId) (sector : Nat) : ¬ (Bio.binit disk disksize).Holds b sector := by
  intro holds
  have fresh := (binit_fresh disk disksize).2.2 b
  exact absurd (holds.1.symm.trans fresh.1) (by decide)

theorem bioInv_binit : BioInv ∅ (Bio.binit disk disksize) := by
  refine ⟨⟨(List.finRange NBUF).reverse, List.reverse_perm _, ?_⟩, ?_, ?_, ?_, ?_⟩
  · have ring := Bio.ring_foldl_binitStep (List.finRange NBUF) (KState.zeroed disk disksize).bio []
      ⟨⟨rfl, rfl⟩, by simp⟩ (by simpa using List.nodup_finRange NBUF)
    rwa [List.append_nil] at ring
  · exact fun b => Or.inl ((binit_fresh disk disksize).2.2 b)
  · exact fun a _ y holds _ => absurd holds (not_holds_binit disk disksize a y)
  · exact fun a y holds _ _ => absurd holds (not_holds_binit disk disksize a y)
  · exact fun a y holds _ => absurd holds (not_holds_binit disk disksize a y)

theorem view_binit : (Bio.binit disk disksize).view = disk := by
  funext y
  rw [Bio.view_of_not_holds (not_holds_binit disk disksize · y), (binit_fresh disk disksize).1]

end Binit

/-! ## bread -/

/-- The buffer `bread` makes of a recycled one. -/
def Bio.loaded (c : Bio) (sector : Nat) : Buf := ⟨true, true, false, ROOTDEV, sector, c.disk sector⟩

namespace BioInv

variable {U : Set Nat} {c : Bio} {b : BufId} {sector : Nat}

/-- Recycling an idle and clean buffer for a sector that no buffer holds. -/
theorem recycle (inv : BioInv U c) (absent : ∀ a, ¬ c.Holds a sector)
    (idle : (c.bufs b).busy = false) (clean : (c.bufs b).dirty = false)
    (inside : sector < c.disksize) :
    BioInv U (c.setBuf b (c.loaded sector)) ∧
      (c.setBuf b (c.loaded sector)).view = c.view := by
  have apart : ∀ a, a ≠ b → ¬ c.Holds a sector := fun a _ => absent a
  refine ⟨inv.put apart inside rfl rfl rfl (fun _ _ => ⟨rfl, Iff.rfl⟩) (fun _ => rfl) fun _ _ => rfl, ?_⟩
  -- the block that is thrown out was in step with the disk
  have view : (c.setBuf b (c.loaded sector)).view = upd c.view sector (c.disk sector) := by
    refine Bio.view_put rfl rfl apart inv.unique (fun _ _ => rfl) fun y _ holds => ?_
    refine inv.sync b y holds clean fun member => ?_
    rw [inv.held b y holds member] at idle
    cases idle
  rw [view, ← Bio.view_of_not_holds absent, upd_eq_self]

end BioInv

/-- What `bread` does to the cache. -/
structure Bread (U : Set Nat) (c : Bio) (sector : Nat) (b : BufId) (c' : Bio) : Prop where
  inv : BioInv U c'
  idle : (c.bufs b).busy = false
  recycled : (c.bufs b).dirty = false ∨ c.Holds b sector
  busy : (c'.bufs b).busy = true
  holds : c'.Holds b sector
  data : (c'.bufs b).data = c.view sector
  dirty : (c'.bufs b).dirty = true ↔ c.Dirty sector
  others : ∀ a, a ≠ b → c'.bufs a = c.bufs a
  next : c'.next = c.next
  prev : c'.prev = c.prev
  disk : c'.disk = c.disk
  disksize : c'.disksize = c.disksize
  view : c'.view = c.view

namespace Bread

variable {U : Set Nat} {c c' : Bio} {sector : Nat} {b : BufId}

theorem holds_other (post : Bread U c sector b c') {a : BufId} (ne : a ≠ b) (y : Nat) :
    c'.Holds a y ↔ c.Holds a y := by
  simp only [Bio.Holds, post.others a ne]

theorem dirty_iff (post : Bread U c sector b c') (y : Nat) : c'.Dirty y ↔ c.Dirty y := by
  by_cases here : y = sector
  · subst here
    rw [← post.dirty]
    exact Bio.exists_holds_iff post.inv.unique post.holds fun x => x.dirty = true
  · constructor
    · rintro ⟨a, holds, dirty⟩
      have ne : a ≠ b := by
        rintro rfl
        exact here (holds.2.symm.trans post.holds.2)
      exact ⟨a, (post.holds_other ne y).1 holds, by rwa [post.others a ne] at dirty⟩
    · rintro ⟨a, holds, dirty⟩
      have ne : a ≠ b := by
        rintro rfl
        rcases post.recycled with clean | holds'
        · rw [clean] at dirty
          cases dirty
        · exact here (holds.2.symm.trans holds'.2)
      exact ⟨a, (post.holds_other ne y).2 holds, by rwa [post.others a ne]⟩

end Bread

section Operations

variable {U : Set Nat} {s : KState} {c : Bio} {b : BufId} {sector : Nat}

theorem inUse_iff (inv : BioInv U s.bio) : s.bio.inUse ROOTDEV sector = true ↔ s.bio.Busy sector := by
  unfold Bio.inUse
  rcases Bio.cached_cases inv.ring ROOTDEV sector with ⟨a, found, holds⟩ | ⟨found, absent⟩
  · rw [found]
    exact (Bio.exists_holds_iff inv.unique holds fun x => x.busy = true).symm
  · rw [found]
    constructor
    · exact fun impossible => absurd impossible Bool.false_ne_true
    · rintro ⟨a, holds, -⟩
      exact absurd holds (absent a)

theorem bget_of_not_busy (inv : BioInv U s.bio) (free : ¬ s.bio.Busy sector) :
    bget ROOTDEV sector s = bgetNow ROOTDEV sector s := by
  have idle : s.bio.inUse ROOTDEV sector = false := by
    rw [← Bool.not_eq_true]
    exact fun busy => free ((inUse_iff inv).1 busy)
  unfold bget
  rw [Act.bind_apply, Act.await_of_ready _ (by simp [idle])]
  rfl

/-- **bread** returns the sector's buffer, held, showing the cached disk. -/
theorem bread_eq (inv : BioInv U s.bio) (inside : sector < s.bio.disksize)
    (free : ¬ s.bio.Busy sector) (room : s.bio.Room sector) :
    ∃ b c, bread ROOTDEV sector s = .done b { s with bio := c } ∧ Bread U s.bio sector b c := by
  unfold bread
  rw [Act.bind_apply, bget_of_not_busy inv free]
  rcases Bio.cached_cases inv.ring ROOTDEV sector with ⟨b, found, holds⟩ | ⟨found, absent⟩
  · have holds : s.bio.Holds b sector := holds
    have idle : (s.bio.bufs b).busy = false := by
      rw [← Bool.not_eq_true]
      exact fun busy => free ⟨b, holds, busy⟩
    have valid := (inv.holds_bound holds).1
    refine ⟨b, s.bio.setBuf b { s.bio.bufs b with busy := true }, ?_, ?_⟩
    · simp [bgetNow, found, Bio.setBuf, valid]
    · exact {
        inv := inv.store holds holds.1 holds.2 valid (fun y _ => ⟨rfl, Iff.rfl⟩) (fun _ => rfl)
          (inv.sync b sector holds)
        idle := idle
        recycled := Or.inr holds
        busy := by simp [Bio.setBuf]
        holds := by simpa [Bio.Holds, Bio.setBuf] using holds
        data := by simp [Bio.setBuf, Bio.view_of_holds inv.unique holds]
        dirty := by
          simp only [Bio.setBuf, upd_same]
          exact (Bio.exists_holds_iff inv.unique holds fun x => x.dirty = true).symm
        others := fun a ne => by simp [Bio.setBuf, ne]
        next := rfl
        prev := rfl
        disk := rfl
        disksize := rfl
        view := by
          have stored : (s.bio.setBuf b { s.bio.bufs b with busy := true }).view =
              upd s.bio.view sector (s.bio.bufs b).data :=
            Bio.view_store inv.unique holds holds.1 holds.2 fun y _ => rfl
          exact stored.trans (Bio.upd_view_self inv.unique holds) }
  · have absent : ∀ a, ¬ s.bio.Holds a sector := absent
    rcases Bio.victim_cases inv.ring with ⟨b, chosen, idle, clean⟩ | ⟨-, full⟩
    · obtain ⟨inv', view'⟩ := inv.recycle absent idle clean inside
      refine ⟨b, s.bio.setBuf b (s.bio.loaded sector), ?_, ?_⟩
      · simp only [bgetNow, found, chosen, Outcome.done_bind, Act.bind_apply, Act.get_apply,
          Bio.setBuf, upd_same, Bool.not_false, Act.runIf_true, iderw, Bool.false_eq_true,
          false_and, if_false, Bool.true_eq_false, ne_eq, not_true_eq_false, upd_idem,
          Act.pure_apply, Nat.not_le.2 inside]
        rfl
      · exact {
          inv := inv'
          idle := idle
          recycled := Or.inl clean
          busy := by simp [Bio.setBuf, Bio.loaded]
          holds := by simp [Bio.Holds, Bio.setBuf, Bio.loaded]
          data := by simp [Bio.setBuf, Bio.loaded, Bio.view_of_not_holds absent]
          dirty := by
            simp only [Bio.setBuf, Bio.loaded, upd_same, Bool.false_eq_true, false_iff]
            rintro ⟨a, holds, -⟩
            exact absent a holds
          others := fun a ne => by simp [Bio.setBuf, ne]
          next := rfl
          prev := rfl
          disk := rfl
          disksize := rfl
          view := view' }
    · rcases room with ⟨a, holds⟩ | ⟨a, idle, clean⟩
      · exact absurd holds (absent a)
      · rcases full a with busy | dirty
        · rw [idle] at busy
          cases busy
        · rw [clean] at dirty
          cases dirty

/-- Why a `bread` of another device, or past the end of the disk, never returns. -/
theorem bread_fails (inv : BioInv U s.bio) {dev : Nat}
    (outside : dev ≠ ROOTDEV ∨ s.bio.disksize ≤ sector) :
    ∃ e s', bread dev sector s = .fail e s' := by
  -- whatever the buffer at hand, it is not valid, and the disk refuses it
  have unready : ∀ b, s.bio.cached dev sector = some (some b) →
      (s.bio.bufs b).dev = dev ∧ (s.bio.bufs b).sector = sector → dev ≠ ROOTDEV ∧
        (s.bio.bufs b).busy = false ∧ (s.bio.bufs b).valid = false := by
    intro b _ holds
    rcases inv.bound b with ⟨isNone, idle, invalid, -⟩ | ⟨isRoot, -, inside⟩
    · refine ⟨?_, idle, invalid⟩
      rintro rfl
      exact absurd (holds.1.symm.trans isNone) (by decide)
    · rcases outside with other | past
      · exact absurd (holds.1.symm.trans isRoot) other
      · rw [holds.2] at inside
        omega
  have free : s.bio.inUse dev sector = false := by
    unfold Bio.inUse
    rcases Bio.cached_cases inv.ring dev sector with ⟨b, found, holds⟩ | ⟨found, -⟩
    · rw [found]
      exact (unready b found holds).2.1
    · rw [found]
  unfold bread bget
  rw [Act.bind_apply, Act.bind_apply, Act.await_of_ready _ (by simp [free]), Outcome.done_bind]
  rcases Bio.cached_cases inv.ring dev sector with ⟨b, found, holds⟩ | ⟨found, -⟩
  · obtain ⟨other, -, invalid⟩ := unready b found holds
    simp [bgetNow, found, Bio.setBuf, invalid, iderw, holds.1, other]
  · rcases Bio.victim_cases inv.ring with ⟨b, chosen, -, -⟩ | ⟨chosen, -⟩
    · rcases outside with other | past
      · simp [bgetNow, found, chosen, Bio.setBuf, iderw, other]
      · by_cases other : dev = ROOTDEV
        · subst other
          simp [bgetNow, found, chosen, Bio.setBuf, iderw, past]
        · simp [bgetNow, found, chosen, Bio.setBuf, iderw, other]
    · simp [bgetNow, found, chosen]

theorem bread_no_room (inv : BioInv U s.bio)
    (full : ¬ s.bio.Room sector) : bread ROOTDEV sector s = .fail .bget s := by
  have absent : ∀ a, ¬ s.bio.Holds a sector := fun a holds => full (Or.inl ⟨a, holds⟩)
  have free : ¬ s.bio.Busy sector := fun ⟨a, holds, _⟩ => absent a holds
  unfold bread
  rw [Act.bind_apply, bget_of_not_busy inv free]
  rcases Bio.cached_cases inv.ring ROOTDEV sector with ⟨b, -, holds⟩ | ⟨found, -⟩
  · exact absurd holds (absent b)
  · rcases Bio.victim_cases inv.ring with ⟨b, -, idle, clean⟩ | ⟨chosen, -⟩
    · exact absurd (Or.inr ⟨b, idle, clean⟩) full
    · simp [bgetNow, found, chosen]

theorem bread_wait (inv : BioInv U s.bio) (busy : s.bio.Busy sector) :
    ∃ k, bread ROOTDEV sector s = .wait (fun s => !s.bio.inUse ROOTDEV sector) s k := by
  have taken := (inUse_iff inv).2 busy
  unfold bread bget
  rw [Act.bind_apply, Act.bind_apply, Act.await, if_neg (by simp [taken])]
  exact ⟨_, rfl⟩

/-! ## brelse, bwrite and the stores between them -/

/-- The cache after `brelse b`. -/
def Bio.released (c : Bio) (b : BufId) : Bio :=
  { c.setBuf b { c.bufs b with busy := false } with
    next := Ring.frontNext c.next c.prev none (some b)
    prev := Ring.frontPrev c.next c.prev none (some b) }

theorem Bio.next_ne (ring : c.RingOk) : c.next (some b) ≠ some b := by
  obtain ⟨l, perm, isRing⟩ := ring
  have member : some b ∈ l.map some :=
    List.mem_map_of_mem (perm.mem_iff.2 (List.mem_finRange b))
  obtain ⟨front, back, split⟩ := List.append_of_mem member
  have linked := isRing.linked
  have nodup := (List.nodup_cons.1 isRing.nodup).2
  rw [split] at linked nodup
  have nextIn := (Ring.linked_append.1 linked).2.next_mem
  intro loop
  rw [loop] at nextIn
  rcases List.mem_append.1 nextIn with inside | atEnd
  · exact (List.nodup_cons.1 (List.nodup_append.1 nodup).2.1).1 inside
  · simp at atEnd

theorem brelse_eq (inv : BioInv U s.bio) (busy : (s.bio.bufs b).busy = true) :
    brelse b s = .done () { s with bio := s.bio.released b } := by
  have apart := Bio.next_ne (b := b) inv.ring
  unfold brelse
  simp only [Act.bind_apply, Act.get_apply, Outcome.done_bind, busy, Bool.not_true,
    Act.failIf_false, setBio, Act.modify_apply, Bio.released, Bio.setBuf, Ring.frontNext,
    Ring.frontPrev, upd_eq_update, Function.update_of_ne (Ne.symm apart)]
  simp

theorem ringOk_released (ring : c.RingOk) : (c.released b).RingOk := by
  obtain ⟨l, perm, isRing⟩ := ring
  obtain ⟨front, back, rfl⟩ := List.append_of_mem (perm.mem_iff.2 (List.mem_finRange b))
  refine ⟨b :: (front ++ back), List.perm_middle.symm.trans perm, ?_⟩
  rw [List.map_append, List.map_cons] at isRing
  rw [List.map_cons, List.map_append]
  exact isRing.moveToFront

theorem released_bufs (a : BufId) :
    (c.released b).bufs a = { c.bufs a with busy := (c.bufs a).busy && a != b } := by
  by_cases eq : a = b
  · subst eq
    simp [Bio.released, Bio.setBuf]
  · have differs : (a != b) = true := by simp [eq]
    simp [Bio.released, Bio.setBuf, eq, differs]

theorem holds_released (a : BufId) (y : Nat) :
    (c.released b).Holds a y ↔ c.Holds a y := by
  simp [Bio.Holds, released_bufs]

/-- A released sector must be back in step: outside `U`. -/
theorem bioInv_released (inv : BioInv U c) (synced : (c.bufs b).sector ∉ U) :
    BioInv U (c.released b) := by
  refine ⟨ringOk_released inv.ring, ?_, ?_, ?_, ?_⟩
  · intro a
    rw [released_bufs]
    rcases inv.bound a with ⟨dev, idle, rest⟩ | bound
    · exact Or.inl ⟨dev, by simp [idle], rest⟩
    · exact Or.inr bound
  · intro a a' y holds holds'
    exact inv.unique a a' y ((holds_released a y).1 holds) ((holds_released a' y).1 holds')
  · intro a y holds clean member
    rw [released_bufs] at clean ⊢
    exact inv.sync a y ((holds_released a y).1 holds) clean member
  · intro a y holds member
    have old := (holds_released a y).1 holds
    have ne : a ≠ b := by
      rintro rfl
      exact synced (old.2 ▸ member)
    rw [released_bufs]
    simp [inv.held a y old member, ne]

@[simp] theorem view_released : (c.released b).view = c.view := by
  funext y
  have same : ∀ a, (c.released b).Holds a y ↔ c.Holds a y := fun a => holds_released a y
  unfold Bio.view
  simp only [same]
  split
  · rw [released_bufs]
  · rfl

theorem dirty_released (y : Nat) : (c.released b).Dirty y ↔ c.Dirty y := by
  simp only [Bio.Dirty, holds_released, released_bufs]

/-- The cache and disk after `bwrite b`. -/
def Bio.written (c : Bio) (b : BufId) : Bio :=
  { c.setBuf b { c.bufs b with dirty := false, valid := true } with
    disk := upd c.disk (c.bufs b).sector (c.bufs b).data }

/-- **bwrite** puts the held buffer on the disk. -/
theorem bwrite_eq (inv : BioInv U s.bio) (busy : (s.bio.bufs b).busy = true) :
    bwrite b s =
      .event (.write (s.bio.bufs b).sector (s.bio.bufs b).data)
        { s with bio := s.bio.written b } (.done () { s with bio := s.bio.written b }) := by
  have holds := inv.holds_of_busy busy
  have inside := (inv.holds_bound holds).2
  have dev : (s.bio.bufs b).dev = 1 := holds.1
  unfold bwrite
  simp [busy, setBio, iderw, Bio.setBuf, dev, Nat.not_le.2 inside, Bio.written, upd_idem]

theorem bioInv_written (inv : BioInv U c) (busy : (c.bufs b).busy = true) :
    BioInv (U \ {(c.bufs b).sector}) (c.written b) := by
  have holds := inv.holds_of_busy busy
  refine inv.store holds holds.1 rfl rfl ?_ ?_ ?_
  · intro y ne
    exact ⟨upd_ne _ _ ne, by simp [ne]⟩
  · exact fun _ => busy
  · intro _ _
    exact (upd_same _ _ _).symm

theorem view_written (inv : BioInv U c) (busy : (c.bufs b).busy = true) :
    (c.written b).view = c.view := by
  have holds := inv.holds_of_busy busy
  have stored : (c.written b).view = upd c.view (c.bufs b).sector (c.bufs b).data :=
    Bio.view_store inv.unique holds holds.1 rfl fun y ne => upd_ne _ _ ne
  exact stored.trans (Bio.upd_view_self inv.unique holds)

theorem dirty_written (inv : BioInv U c) (busy : (c.bufs b).busy = true) (y : Nat) :
    (c.written b).Dirty y ↔ c.Dirty y ∧ y ≠ (c.bufs b).sector := by
  have holds := inv.holds_of_busy busy
  refine (Bio.exists_store inv.unique holds (fun x => x.dirty = true)
    { c.bufs b with dirty := false, valid := true } (upd c.disk (c.bufs b).sector (c.bufs b).data) holds.1 rfl y).trans ?_
  by_cases here : y = (c.bufs b).sector
  · simp [here]
  · simp [here, Bio.Dirty]

/-- The holder's store into its buffer. -/
def Bio.stored (c : Bio) (b : BufId) (d : Block) : Bio := c.setBuf b { c.bufs b with data := d }

theorem setData_eq (d : Block) : setData b d s = .done () { s with bio := s.bio.stored b d } := rfl

theorem bioInv_stored (inv : BioInv U c) (busy : (c.bufs b).busy = true) (d : Block) :
    BioInv (insert (c.bufs b).sector U) (c.stored b d) := by
  have holds := inv.holds_of_busy busy
  refine inv.store holds holds.1 rfl (inv.holds_bound holds).1 ?_ ?_ ?_
  · intro y ne
    exact ⟨rfl, by simp [ne]⟩
  · exact fun _ => busy
  · intro _ out
    exact absurd (Set.mem_insert _ _) out

theorem view_stored (inv : BioInv U c) (busy : (c.bufs b).busy = true) (d : Block) :
    (c.stored b d).view = upd c.view (c.bufs b).sector d := by
  have holds := inv.holds_of_busy busy
  exact Bio.view_store inv.unique holds holds.1 rfl fun y _ => rfl

theorem dirty_stored (inv : BioInv U c) (busy : (c.bufs b).busy = true) (d : Block)
    (y : Nat) : (c.stored b d).Dirty y ↔ c.Dirty y := by
  have holds := inv.holds_of_busy busy
  refine (Bio.exists_store inv.unique holds (fun x => x.dirty = true)
    { c.bufs b with data := d } c.disk holds.1 rfl y).trans ?_
  by_cases here : y = (c.bufs b).sector
  · rw [if_pos here, here]
    exact (Bio.exists_holds_iff inv.unique holds fun x => x.dirty = true).symm
  · rw [if_neg here]
    exact Iff.rfl

/-- The dirty-marking of `log_write`. -/
def Bio.marked (c : Bio) (b : BufId) : Bio := c.setBuf b { c.bufs b with dirty := true }

theorem bioInv_marked (inv : BioInv U c) (busy : (c.bufs b).busy = true) :
    BioInv (U \ {(c.bufs b).sector}) (c.marked b) := by
  have holds := inv.holds_of_busy busy
  refine inv.store holds holds.1 rfl (inv.holds_bound holds).1 ?_ ?_ ?_
  · intro y ne
    exact ⟨rfl, by simp [ne]⟩
  · exact fun _ => busy
  · intro clean
    cases clean

theorem view_marked (inv : BioInv U c) (busy : (c.bufs b).busy = true) :
    (c.marked b).view = c.view := by
  have holds := inv.holds_of_busy busy
  have stored : (c.marked b).view = upd c.view (c.bufs b).sector (c.bufs b).data :=
    Bio.view_store inv.unique holds holds.1 rfl fun y _ => rfl
  exact stored.trans (Bio.upd_view_self inv.unique holds)

theorem dirty_marked (inv : BioInv U c) (busy : (c.bufs b).busy = true) (y : Nat) :
    (c.marked b).Dirty y ↔ c.Dirty y ∨ y = (c.bufs b).sector := by
  have holds := inv.holds_of_busy busy
  refine (Bio.exists_store inv.unique holds (fun x => x.dirty = true)
    { c.bufs b with dirty := true } c.disk holds.1 rfl y).trans ?_
  by_cases here : y = (c.bufs b).sector
  · simp [here]
  · simp [here, Bio.Dirty]

end Operations

end Xv6Rpi.Kernel
