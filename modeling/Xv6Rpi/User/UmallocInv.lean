/-
# User.UmallocInv -- the free list is sorted, coalesced and complete

`Inv base h F Q`: the free list is the cycle through `base` and the blocks `F`, whose
addresses increase with a gap after each block, and the blocks of `F` and `Q` (the headers
of the live blocks) tile the memory that `sbrk` has returned.

`free_spec`: `free` finds the one place in the list where the block belongs, and moves the
block from `Q` to `F`, joined to its neighbours.
-/
import Xv6Rpi.User.Umalloc

namespace Xv6Rpi.User.Umalloc

open Theory Theory.Cycle Kernel

set_option autoImplicit false

/-- Every block ends before the next one starts, with a gap. -/
def Spaced (size : Nat → Nat) (l : List Nat) : Prop := l.Pairwise fun a b => a + 8 * size a < b

/-- A block, by its header. -/
def Heap.span (h : Heap) (f : Nat) : Span := ⟨f, 8 * h.size f⟩

structure Inv (base : Nat) (h : Heap) (F Q : List Nat) : Prop where
  cycle : Walk h.ptr base F base
  spaced : Spaced h.size F
  head : h.size base = 0
  freep : h.freep ∈ base :: F
  tiled : Tiled 8 h.mem ((F ++ Q).map h.span)
  memory : ∀ r ∈ h.mem, base + 8 ≤ r.start ∧ r.start + r.len ≤ h.brk
  room : base + 8 ≤ h.brk

section Lists

variable {size size' : Nat → Nat} {l before after : List Nat} {x : Nat}

theorem Spaced.congr (spaced : Spaced size l) (same : ∀ a ∈ l, size' a = size a) : Spaced size' l := by
  refine List.Pairwise.imp_of_mem ?_ spaced
  intro a b isA _ less
  rwa [same a isA]

/-- A sorted list splits at an address that is not in it. -/
theorem Spaced.split (spaced : Spaced size l) (new : x ∉ l) :
    ∃ before after, l = before ++ after ∧ (∀ a ∈ before, a < x) ∧ ∀ a ∈ after, x < a := by
  induction l with
  | nil => exact ⟨[], [], rfl, by simp, by simp⟩
  | cons a l ih =>
    obtain ⟨first, rest⟩ := List.pairwise_cons.1 spaced
    have ne : a ≠ x := fun same => new (by simp [same])
    by_cases low : a < x
    · obtain ⟨before, after, rfl, below, above⟩ := ih rest fun member => new (by simp [member])
      refine ⟨a :: before, after, rfl, ?_, above⟩
      intro c member
      rcases List.mem_cons.1 member with rfl | old
      · exact low
      · exact below c old
    · refine ⟨[], a :: l, rfl, by simp, ?_⟩
      intro c member
      rcases List.mem_cons.1 member with rfl | old
      · omega
      · have := first c old
        omega

theorem Spaced.to_last (base : Nat) {a : Nat} (spaced : Spaced size l) (member : a ∈ l) :
    a = l.getLastD base ∨ a + 8 * size a < l.getLastD base := by
  induction l generalizing base with
  | nil => cases member
  | cons b l ih =>
    obtain ⟨first, rest⟩ := List.pairwise_cons.1 spaced
    rw [List.getLastD_cons]
    rcases List.mem_cons.1 member with rfl | old
    · rcases List.mem_cons.1 (getLastD_mem a l) with same | inside
      · exact .inl same.symm
      · exact .inr (first _ inside)
    · exact ih _ rest old

theorem Spaced.gap {a b : Nat} (spaced : Spaced size l) (isA : a ∈ l) (isB : b ∈ l) (less : a < b) :
    a + 8 * size a < b := by
  induction l with
  | nil => cases isA
  | cons c l ih =>
    obtain ⟨first, rest⟩ := List.pairwise_cons.1 spaced
    rcases List.mem_cons.1 isA with rfl | oldA
    · rcases List.mem_cons.1 isB with rfl | oldB
      · omega
      · exact first b oldB
    · rcases List.mem_cons.1 isB with rfl | oldB
      · have := first a oldA
        omega
      · exact ih rest oldA oldB

end Lists

namespace Inv

variable {base : Nat} {h : Heap} {F Q Q' : List Nat} {f q z bp p : Nat}

theorem perm (inv : Inv base h F Q) (same : Q'.Perm Q) : Inv base h F Q' :=
  { inv with tiled := inv.tiled.perm (List.Perm.map _ (List.Perm.append_left F same)) }

/-- Blocks are not empty and lie above `base`. -/
theorem block (inv : Inv base h F Q) (member : f ∈ F ++ Q) : 0 < h.size f ∧ base + 8 ≤ f := by
  have isChunk : h.span f ∈ (F ++ Q).map h.span := List.mem_map_of_mem member
  have some_ : 0 < 8 * h.size f := inv.tiled.pos _ isChunk
  refine ⟨by omega, ?_⟩
  exact inv.tiled.start_ge (fun r isRegion => (inv.memory r isRegion).1) isChunk

theorem free_block (inv : Inv base h F Q) (member : f ∈ F) : 0 < h.size f ∧ base + 8 ≤ f :=
  inv.block (List.mem_append_left _ member)

theorem nodup (inv : Inv base h F Q) : (base :: F).Nodup := by
  refine List.nodup_cons.2 ⟨fun member => ?_, ?_⟩
  · have := (inv.free_block member).2
    omega
  · refine List.Pairwise.imp ?_ inv.spaced
    intro a b less
    omega

/-- All headers are distinct, free and live. -/
theorem distinct (inv : Inv base h F Q) : (F ++ Q).Nodup := by
  refine List.Pairwise.imp_of_mem ?_ (List.pairwise_map.1 inv.tiled.apart)
  rintro a b isA - apart rfl
  have some_ := (inv.block isA).1
  rcases apart with up | down
  · simp only [Heap.span] at up
    omega
  · simp only [Heap.span] at down
    omega

theorem base_le (inv : Inv base h F Q) (member : z ∈ base :: F) : base ≤ z := by
  rcases List.mem_cons.1 member with rfl | inside
  · exact Nat.le_refl _
  · have := (inv.free_block inside).2
    omega

/-- What a cell of the list points to: the next block, or `base` from the last one. -/
theorem next_cases (inv : Inv base h F Q) (member : z ∈ base :: F) :
    (h.ptr z = base ∧ ∀ f ∈ F, f ≤ z) ∨
      (z < h.ptr z ∧ ∀ f ∈ F, f ≤ z ∨ h.ptr z ≤ f) := by
  have cycle := inv.cycle
  have spaced := inv.spaced
  have above : ∀ f ∈ F, base + 8 ≤ f := fun f isFree => (inv.free_block isFree).2
  rcases List.mem_cons.1 member with rfl | inside
  · cases F with
    | nil => exact .inl ⟨cycle, by simp⟩
    | cons y F =>
      right
      rw [cycle.1]
      refine ⟨by have := above y (by simp); omega, fun f isFree => .inr ?_⟩
      rcases List.mem_cons.1 isFree with rfl | later
      · exact Nat.le_refl _
      · have := (List.pairwise_cons.1 spaced).1 f later
        omega
  · obtain ⟨before, after, rfl⟩ := List.append_of_mem inside
    obtain ⟨-, onward⟩ := walk_append.1 cycle
    obtain ⟨-, rest, across⟩ := List.pairwise_append.1 spaced
    obtain ⟨fromZ, rest⟩ := List.pairwise_cons.1 rest
    have low : ∀ f ∈ before, f ≤ z := by
      intro f isBefore
      have := across f isBefore z (by simp)
      omega
    cases after with
    | nil =>
      refine .inl ⟨onward, fun f isFree => ?_⟩
      rcases List.mem_append.1 isFree with isBefore | isZ
      · exact low f isBefore
      · exact Nat.le_of_eq (List.mem_singleton.1 isZ)
    | cons y after =>
      right
      rw [onward.1]
      refine ⟨by have := fromZ y (by simp); omega, fun f isFree => ?_⟩
      simp only [List.mem_append, List.mem_cons] at isFree
      rcases isFree with isBefore | rfl | rfl | later
      · exact .inl (low f isBefore)
      · exact .inl (Nat.le_refl _)
      · exact .inr (Nat.le_refl _)
      · have := (List.pairwise_cons.1 rest).1 f later
        exact .inr (by omega)

/-- The loop of `free` stops at the last cell below the block, and nowhere else. -/
theorem isPlace_iff (inv : Inv base h F Q) (above : base < bp) (isP : p ∈ base :: F) (below : p < bp)
    (greatest : ∀ f ∈ F, f ≤ p ∨ bp < f) (isZ : z ∈ base :: F) :
    h.isPlace bp z = true ↔ z = p := by
  have baseLe := inv.base_le isP
  have ofZ : z ≤ p ∨ bp < z := by
    rcases List.mem_cons.1 isZ with rfl | inside
    · exact .inl baseLe
    · exact greatest z inside
  have test : h.isPlace bp z = true ↔
      z < bp ∧ bp < h.ptr z ∨ h.ptr z ≤ z ∧ (z < bp ∨ bp < h.ptr z) := by
    simp [Heap.isPlace]
  rw [test]
  rcases inv.next_cases isZ with ⟨back, last⟩ | ⟨onward, between⟩
  · have pLe : p ≤ z ∨ p = base := by
      rcases List.mem_cons.1 isP with rfl | inside
      · exact .inr rfl
      · exact .inl (last p inside)
    have zGe := inv.base_le isZ
    omega
  · have ofP : p ≤ z ∨ h.ptr z ≤ p := by
      rcases List.mem_cons.1 isP with rfl | inside
      · exact .inl (inv.base_le isZ)
      · exact between p inside
    constructor
    · omega
    · rintro rfl
      left
      refine ⟨below, ?_⟩
      have isNext := inv.cycle.next_mem isZ
      rcases List.mem_cons.1 isNext with isBase | inside
      · omega
      · have := greatest _ inside
        omega

end Inv

theorem Heap.map_span_congr {h h' : Heap} {l : List Nat} (same : ∀ f ∈ l, h'.size f = h.size f) :
    l.map h'.span = l.map h.span := by
  refine List.map_congr_left fun f member => ?_
  rw [Heap.span, Heap.span, same f member]

theorem Heap.joinUp_rest (h : Heap) (bp next : Nat) :
    (h.joinUp bp next).mem = h.mem ∧ (h.joinUp bp next).offers = h.offers ∧
      (h.joinUp bp next).brk = h.brk := by
  unfold Heap.joinUp
  split <;> exact ⟨rfl, rfl, rfl⟩

theorem Heap.joinDown_rest (h : Heap) (bp p : Nat) :
    (h.joinDown bp p).mem = h.mem ∧ (h.joinDown bp p).offers = h.offers ∧
      (h.joinDown bp p).brk = h.brk := by
  unfold Heap.joinDown
  split <;> exact ⟨rfl, rfl, rfl⟩

theorem Inv.rounds_ge {base : Nat} {h : Heap} {F Q : List Nat} (inv : Inv base h F Q) :
    F.length + 2 ≤ h.rounds := by
  have count := inv.tiled.length_le
  simp only [List.length_map, List.length_append] at count
  unfold Heap.rounds
  omega

/-! ## free -/

section Free

variable {base bp : Nat} {h : Heap} {before after Q : List Nat}

/-- A freed block is apart from the free blocks on either side of it. -/
theorem Inv.sides (inv : Inv base h (before ++ after) (bp :: Q)) (below : ∀ f ∈ before, f < bp)
    (above : ∀ f ∈ after, bp < f) :
    (∀ f ∈ before, f + 8 * h.size f ≤ bp) ∧ ∀ f ∈ after, bp + 8 * h.size bp ≤ f := by
  have front : (bp :: (before ++ after ++ Q)).Perm (before ++ after ++ bp :: Q) :=
    List.perm_middle.symm
  have tiled := inv.tiled.perm (front.map h.span)
  have apart : ∀ f ∈ before ++ after, (h.span bp).Apart (h.span f) := by
    intro f member
    exact tiled.head_apart (List.mem_map_of_mem (List.mem_append_left _ member))
  constructor
  · intro f member
    have less := below f member
    have some_ := (inv.block (f := bp) (by simp)).1
    rcases apart f (by simp [member]) with up | down
    · simp only [Heap.span] at up
      omega
    · exact down
  · intro f member
    have less := above f member
    have some_ := (inv.free_block (f := f) (by simp [member])).1
    rcases apart f (by simp [member]) with up | down
    · exact up
    · simp only [Heap.span] at down
      omega

/-- **After the first half of `free`** the block is joined to the one above it if they touch,
and points to what follows. -/
theorem joinUp_spec (inv : Inv base h (before ++ after) (bp :: Q)) (below : ∀ f ∈ before, f < bp)
    (above : ∀ f ∈ after, bp < f) {h' : Heap}
    (result : h' = h.joinUp bp (h.ptr (before.getLastD base))) :
    ∃ after', Walk (Function.update h'.ptr (before.getLastD base) bp) base (before ++ bp :: after') base ∧
      Tiled 8 h.mem ((bp :: (before ++ after' ++ Q)).map h'.span) ∧ after'.Sublist after ∧
      (∀ f ∈ after', bp + 8 * h'.size bp < f) ∧
      (∀ f, f ≠ bp → h'.size f = h.size f) ∧ h.size bp ≤ h'.size bp := by
  obtain ⟨-, high⟩ := inv.sides below above
  have isBlock := inv.block (f := bp) (by simp)
  have front : (bp :: (before ++ after ++ Q)).Perm (before ++ after ++ bp :: Q) :=
    List.perm_middle.symm
  have tiled := inv.tiled.perm (front.map h.span)
  have others : bp ∉ before ++ after ++ Q := (List.nodup_cons.1 (front.nodup_iff.2 inv.distinct)).1
  have new : bp ∉ base :: (before ++ after) := by
    intro member
    rcases List.mem_cons.1 member with same | old
    · omega
    · exact others (List.mem_append_left _ old)
  have onward := inv.cycle.rest
  by_cases touch : bp + 8 * h.size bp = h.ptr (before.getLastD base)
  · -- the block above is taken out of the list and becomes part of this one
    rw [Heap.joinUp, if_pos touch] at result
    cases after with
    | nil =>
      have back : h.ptr (before.getLastD base) = base := onward
      omega
    | cons n after' =>
      have isN : h.ptr (before.getLastD base) = n := onward.1
      rw [isN] at touch result
      subst result
      have sizes : ∀ f, f ≠ bp → upd h.size bp (h.size bp + h.size n) f = h.size f :=
        fun f ne => upd_ne _ _ ne
      refine ⟨after', ?_, ?_, List.sublist_cons_self _ _, ?_, sizes, ?_⟩
      · simpa only [upd_eq_update] using inv.cycle.replace inv.nodup new
      · have two : (bp :: n :: (before ++ after' ++ Q)).Perm
            (bp :: (before ++ n :: after' ++ Q)) := by
          refine List.Perm.cons _ ?_
          simp only [List.append_assoc, List.cons_append]
          exact List.perm_middle.symm
        have joined := (tiled.perm (two.map h.span)).join touch
        have same : ∀ f ∈ before ++ after' ++ Q, f ≠ bp := by
          rintro f member rfl
          apply others
          simp only [List.mem_append, List.mem_cons] at member ⊢
          tauto
        rw [List.map_cons, Heap.map_span_congr fun f member => sizes f (same f member)]
        simpa [Heap.span, Nat.mul_add] using joined
      · intro f member
        have spacedAfter := (List.pairwise_append.1 inv.spaced).2.1
        have less := (List.pairwise_cons.1 spacedAfter).1 f member
        simp only [upd_same]
        omega
      · simp only [upd_same]
        omega
  · rw [Heap.joinUp, if_neg touch] at result
    subst result
    refine ⟨after, ?_, tiled, List.Sublist.refl _, ?_, fun f _ => rfl, Nat.le_refl _⟩
    · simpa only [upd_eq_update] using inv.cycle.link inv.nodup new
    · intro f member
      cases after with
      | nil => cases member
      | cons n after =>
        have isN : h.ptr (before.getLastD base) = n := onward.1
        have atN := high n (by simp)
        rcases List.mem_cons.1 member with rfl | later
        · show bp + 8 * h.size bp < f
          omega
        · have spacedAfter := (List.pairwise_append.1 inv.spaced).2.1
          have less := (List.pairwise_cons.1 spacedAfter).1 f later
          show bp + 8 * h.size bp < f
          omega

/-- **After the second half** the block is in the list, in a block of its own or as part of
the one below it. -/
theorem joinDown_spec {h1 : Heap} {p : Nat} (isP : p = before.getLastD base)
    (walk : Walk (Function.update h.ptr p bp) base (before ++ bp :: after) base)
    (nodup : (base :: (before ++ bp :: after)).Nodup) (live : ∀ q ∈ Q, q ∉ before) (low : p < bp)
    (tiled : Tiled 8 h.mem ((bp :: (before ++ after ++ Q)).map h.span))
    (spaced : Spaced h.size (before ++ after)) (head : h.size base = 0)
    (below : ∀ f ∈ before, f + 8 * h.size f ≤ bp) (above : ∀ f ∈ after, bp + 8 * h.size bp < f)
    (result : h1 = h.joinDown bp p) :
    ∃ F, Walk h1.ptr base F base ∧ Tiled 8 h.mem ((F ++ Q).map h1.span) ∧ Spaced h1.size F ∧
      h1.freep ∈ base :: F ∧ (∀ f, f ∉ before → h1.size f = h.size f) ∧
      ∃ f ∈ F, h.size bp ≤ h1.size f := by
  obtain ⟨inBefore, inAfter, across⟩ := List.pairwise_append.1 spaced
  have isCell : p ∈ base :: before := isP ▸ getLastD_mem base before
  by_cases touch : p + 8 * h.size p = bp
  · -- the block below is not `base`, which is empty, and takes this one in
    rw [Heap.joinDown, if_pos touch] at result
    subst result
    rcases List.eq_nil_or_concat before with rfl | ⟨init, last, rfl⟩
    · rw [isP] at touch low
      simp only [List.getLastD_nil, head] at touch low
      omega
    obtain rfl : p = last := by simpa using isP
    simp only [List.concat_eq_append, List.append_assoc, List.cons_append, List.nil_append] at *
    have sizes : ∀ f, f ≠ p → upd h.size p (h.size p + h.size bp) f = h.size f :=
      fun f ne => upd_ne _ _ ne
    have only : ∀ f ∈ init ++ after, f ≠ p := by
      rintro f member rfl
      refine (List.nodup_cons.1 (List.perm_middle.nodup_iff.1 (List.nodup_cons.1 nodup).2)).1 ?_
      simp only [List.mem_append, List.mem_cons] at member ⊢
      tauto
    refine ⟨init ++ p :: after, ?_, ?_, ?_, by simp, ?_, p, by simp, ?_⟩
    · have cycle : Walk (Function.update h.ptr p bp) base ((init ++ [p]) ++ bp :: after) base := by simpa using walk
      have unlinked := cycle.unlink (by simpa using nodup)
      simpa [upd_eq_update, Function.update_of_ne low.ne'] using unlinked
    · have two : (p :: bp :: (init ++ (after ++ Q))).Perm (bp :: (init ++ p :: (after ++ Q))) :=
        (List.Perm.swap bp p _).trans (List.Perm.cons _ List.perm_middle.symm)
      have joined := (tiled.perm (two.map h.span)).join touch
      have front : (init ++ p :: after ++ Q).Perm (p :: (init ++ (after ++ Q))) := by
        simp only [List.append_assoc, List.cons_append]
        exact List.perm_middle
      refine Tiled.perm ?_ (front.map _)
      have apart : ∀ f ∈ init ++ (after ++ Q), f ≠ p := by
        intro f member
        rw [← List.append_assoc] at member
        rcases List.mem_append.1 member with isFree | isLive
        · exact only f isFree
        · rintro rfl
          exact live f isLive (by simp)
      rw [List.map_cons, Heap.map_span_congr fun f member => sizes f (apart f member)]
      simpa [Heap.span, Nat.mul_add] using joined
    · refine List.pairwise_append.2 ⟨?_, List.pairwise_cons.2 ⟨?_, ?_⟩, ?_⟩
      · refine Spaced.congr (List.pairwise_append.1 inBefore).1 fun f member => ?_
        exact sizes f (only f (by simp [member]))
      · intro f member
        have less := above f member
        simp only [upd_same]
        omega
      · refine Spaced.congr inAfter fun f member => ?_
        exact sizes f (only f (by simp [member]))
      · intro a isInit b isLater
        show a + 8 * upd h.size p (h.size p + h.size bp) a < b
        rw [sizes a (only a (by simp [isInit]))]
        rcases List.mem_cons.1 isLater with rfl | later
        · exact (List.pairwise_append.1 inBefore).2.2 a isInit b (by simp)
        · exact across a (by simp [isInit]) b later
    · intro f outside
      exact sizes f fun same => outside (by simp [same])
    · simp only [upd_same]
      omega
  · rw [Heap.joinDown, if_neg touch] at result
    subst result
    refine ⟨before ++ bp :: after, ?_, ?_, ?_, ?_, fun _ _ => rfl, bp, by simp, Nat.le_refl _⟩
    · simpa only [upd_eq_update] using walk
    · refine tiled.perm (List.Perm.map _ ?_)
      simp only [List.append_assoc, List.cons_append]
      exact List.perm_middle
    · refine List.pairwise_append.2 ⟨inBefore, List.pairwise_cons.2 ⟨above, inAfter⟩, ?_⟩
      intro a isBefore b isLater
      rcases List.mem_cons.1 isLater with rfl | later
      · have ends := below a isBefore
        show a + 8 * h.size a < b
        rcases Spaced.to_last base inBefore isBefore with isLast | less
        · rw [← isP] at isLast
          subst isLast
          omega
        · rw [← isP] at less
          omega
      · exact across a isBefore b later
    · rw [← List.cons_append]
      exact List.mem_append_left _ isCell

/-- **`free` puts a live block back**, where it belongs. -/
theorem free_spec {F : List Nat} (inv : Inv base h F (bp :: Q)) :
    ∃ h' F', h.free (bp + 8) = some h' ∧ Inv base h' F' Q ∧ (∀ q ∈ Q, h'.size q = h.size q) ∧
      h'.mem = h.mem ∧ h'.offers = h.offers ∧ ∃ f ∈ F', h.size bp ≤ h'.size f := by
  have isBlock := inv.block (f := bp) (by simp)
  have headers := inv.distinct
  have newBlock : bp ∉ F := by
    intro member
    exact (List.nodup_append.1 headers).2.2 bp member bp (by simp) rfl
  obtain ⟨before, after, rfl, below, above⟩ := inv.spaced.split newBlock
  obtain ⟨inBefore, -, across⟩ := List.pairwise_append.1 inv.spaced
  obtain ⟨lower, upper⟩ := inv.sides below above
  -- the place: the last cell below the block
  obtain ⟨p, isP⟩ : ∃ p, p = before.getLastD base := ⟨_, rfl⟩
  have isCell : p ∈ base :: before := isP ▸ getLastD_mem base before
  have isMember : p ∈ base :: (before ++ after) := by
    rw [← List.cons_append]
    exact List.mem_append_left _ isCell
  have low : p < bp := by
    rcases List.mem_cons.1 isCell with rfl | inside
    · omega
    · exact below p inside
  have greatest : ∀ f ∈ before ++ after, f ≤ p ∨ bp < f := by
    intro f member
    rcases List.mem_append.1 member with isBefore | isAfter
    · left
      rcases Spaced.to_last base inBefore isBefore with isLast | less
      · exact Nat.le_of_eq (isLast.trans isP.symm)
      · rw [← isP] at less
        omega
    · exact .inr (above f isAfter)
  have place : ∀ z ∈ base :: (before ++ after), h.isPlace bp z = true ↔ z = p :=
    fun z isZ => inv.isPlace_iff (by omega) isMember low greatest isZ
  have found : search h.ptr (h.isPlace bp) h.rounds h.freep = some p := by
    apply search_cycle inv.cycle inv.nodup inv.freep isMember ((place p isMember).2 rfl)
    · intro z isZ ne
      exact Bool.eq_false_iff.2 fun passes => ne ((place z isZ).1 passes)
    · have := inv.rounds_ge
      omega
  obtain ⟨after', walk, tiled, fewer, apart, sizes, larger⟩ := joinUp_spec inv below above rfl
  rw [← isP] at walk tiled apart sizes larger
  obtain ⟨sameMem, sameOffers, sameBrk⟩ := h.joinUp_rest bp (h.ptr p)
  obtain ⟨sameMem', sameOffers', sameBrk'⟩ := (h.joinUp bp (h.ptr p)).joinDown_rest bp p
  have fewerFree : (before ++ after').Sublist (before ++ after) := fewer.append_left before
  have notBase : base ≠ bp := by omega
  have live : ∀ q ∈ Q, q ∉ before ∧ q ≠ bp := by
    intro q isLive
    obtain ⟨-, liveOnly, cross⟩ := List.nodup_append.1 headers
    refine ⟨fun member => cross q (by simp [member]) q (by simp [isLive]) rfl, ?_⟩
    rintro rfl
    exact (List.nodup_cons.1 liveOnly).1 isLive
  have nodup : (base :: (before ++ bp :: after')).Nodup := by
    have inserted : (base :: (before ++ bp :: after')).Perm (bp :: base :: (before ++ after')) :=
      (List.Perm.cons base List.perm_middle).trans (List.Perm.swap bp base _)
    refine inserted.nodup_iff.2 (List.nodup_cons.2 ⟨?_, inv.nodup.sublist (fewerFree.cons_cons base)⟩)
    intro member
    rcases List.mem_cons.1 member with same | old
    · exact notBase same.symm
    · exact newBlock (fewerFree.subset old)
  have spaced : Spaced (h.joinUp bp (h.ptr p)).size (before ++ after') := by
    refine Spaced.congr (inv.spaced.sublist fewerFree) fun f member => sizes f ?_
    rintro rfl
    exact newBlock (fewerFree.subset member)
  have lower' : ∀ f ∈ before, f + 8 * (h.joinUp bp (h.ptr p)).size f ≤ bp := by
    intro f member
    rw [sizes f (Nat.ne_of_lt (below f member))]
    exact lower f member
  have head : (h.joinUp bp (h.ptr p)).size base = 0 := (sizes base notBase).trans inv.head
  obtain ⟨F', walk', tiled', spaced', freep', sizes', f, isFree, large⟩ :=
    joinDown_spec isP walk nodup (fun q isLive => (live q isLive).1) low (sameMem ▸ tiled) spaced
      head lower' apart rfl
  have baseFixed : base ∉ before := fun member =>
    (List.nodup_cons.1 nodup).1 (List.mem_append_left _ member)
  refine ⟨_, F', ?_, ?_, ?_, sameMem'.trans sameMem, sameOffers'.trans sameOffers, f, isFree, ?_⟩
  · simp [Heap.free, found]
  · refine ⟨walk', spaced', (sizes' base baseFixed).trans head, freep', ?_, ?_, ?_⟩
    · rwa [sameMem']
    · rw [sameMem', sameMem, sameBrk', sameBrk]
      exact inv.memory
    · rw [sameBrk', sameBrk]
      exact inv.room
  · intro q isLive
    rw [sizes' q (live q isLive).1, sizes q (live q isLive).2]
  · omega

end Free

end Xv6Rpi.User.Umalloc
