/-
# Kernel.BuddyInv -- the availability bitmaps and the lists over them

Level `k` of the allocator is order `k + MIN_ORD`; with `N` marks at the top level it
has `width N k` marks.  `Lists N L km` says that the marks of level `k` named by `L k`
are chained from the head of that order; `Wf N km` adds that these are the marks with
a bit set.  Blocks marked available are the set `km.free N`, and

* `markBlk_spec`, `unmarkBlk_spec`: the two updates insert into and delete from that
  set and keep `Wf`;
* `getBlk_spec`: what `get_blk` takes is a member of it.
-/
import Xv6Rpi.Kernel.Buddy
import Xv6Rpi.Theory.Dyadic
import Xv6Rpi.Theory.Ring

namespace Xv6Rpi.Kernel

open Theory
open Theory.Ring (IsRing)

set_option autoImplicit false

/-! ## Links -/

theorem preLnk_lt (lnks : BitVec 32) : preLnk lnks < 65536 := by
  unfold preLnk
  rw [BitVec.toNat_ushiftRight, Nat.shiftRight_eq_div_pow]
  have := lnks.isLt
  omega

theorem nextLnk_lt (lnks : BitVec 32) : nextLnk lnks < 65536 := by
  unfold nextLnk
  rw [BitVec.toNat_and]
  exact lt_of_le_of_lt Nat.and_le_right (by decide)

section MkLnks

variable {pre next : Nat} (preSmall : pre < 65536) (nextSmall : next < 65536)

include preSmall nextSmall

theorem toNat_mkLnks : (mkLnks pre next).toNat = pre * 65536 + next := by
  have low : (BitVec.ofNat 32 next &&& 65535).toNat = next := by
    rw [BitVec.toNat_and, BitVec.toNat_ofNat, Nat.mod_eq_of_lt (by omega)]
    show next &&& 2 ^ 16 - 1 = next
    rw [Nat.and_two_pow_sub_one_eq_mod, Nat.mod_eq_of_lt nextSmall]
  have high : (BitVec.ofNat 32 pre <<< 16).toNat = pre <<< 16 := by
    rw [BitVec.toNat_shiftLeft, BitVec.toNat_ofNat, Nat.mod_eq_of_lt (by omega : pre < 2 ^ 32),
      Nat.mod_eq_of_lt]
    rw [Nat.shiftLeft_eq]
    omega
  unfold mkLnks
  rw [BitVec.toNat_or, low, high, ← Nat.shiftLeft_add_eq_or_of_lt nextSmall, Nat.shiftLeft_eq]

theorem preLnk_mkLnks : preLnk (mkLnks pre next) = pre := by
  unfold preLnk
  rw [BitVec.toNat_ushiftRight, toNat_mkLnks preSmall nextSmall, Nat.shiftRight_eq_div_pow]
  omega

theorem nextLnk_mkLnks : nextLnk (mkLnks pre next) = next := by
  unfold nextLnk
  rw [BitVec.toNat_and, toNat_mkLnks preSmall nextSmall]
  show pre * 65536 + next &&& 2 ^ 16 - 1 = next
  rw [Nat.and_two_pow_sub_one_eq_mod]
  omega

end MkLnks

/-! ## Marks -/

namespace Kmem

variable (km : Kmem) (order idx : Nat) (mk : Mark) (lnks bitmap : BitVec 32)

@[simp] theorem head_setLnks (o : Nat) : (km.setLnks order idx lnks).head o = km.head o := rfl

theorem getMark_setMark (i : Nat) :
    (km.setMark order idx mk).getMark order i = if i = idx then mk else km.getMark order i := by
  simp only [getMark, setMark, upd_apply, Nat.add_left_cancel_iff]

@[simp] theorem lnks_setLnks (i : Nat) : ((km.setLnks order idx lnks).getMark order i).lnks =
    if i = idx then lnks else (km.getMark order i).lnks := by
  unfold setLnks
  rw [getMark_setMark]
  split <;> rfl

/-- Links and bitmaps are separate, also where orders share the array. -/
@[simp] theorem bitmap_setLnks (o i : Nat) :
    ((km.setLnks order idx lnks).getMark o i).bitmap = (km.getMark o i).bitmap := by
  unfold setLnks getMark setMark
  simp only [upd_apply]
  split
  case isTrue same => rw [same]
  case isFalse => rfl

@[simp] theorem lnks_setBitmap (o i : Nat) :
    ((km.setBitmap order idx bitmap).getMark o i).lnks = (km.getMark o i).lnks := by
  unfold setBitmap getMark setMark
  simp only [upd_apply]
  split
  case isTrue same => rw [same]
  case isFalse => rfl

@[simp] theorem bitmap_setBitmap (i : Nat) : ((km.setBitmap order idx bitmap).getMark order i).bitmap =
    if i = idx then bitmap else (km.getMark order i).bitmap := by
  unfold setBitmap
  rw [getMark_setMark]
  split <;> rfl

variable (hd : Nat)

@[simp] theorem offset_setHead (k : Nat) :
    ((km.setHead order hd).orders k).offset = (km.orders k).offset := by
  simp only [setHead, upd_apply]
  split
  case isTrue same => rw [same]
  case isFalse => rfl

@[simp] theorem getMark_setHead (o i : Nat) : (km.setHead order hd).getMark o i = km.getMark o i := by
  simp only [getMark, offset_setHead]
  rfl

@[simp] theorem head_setHead : (km.setHead order hd).head order = hd := by
  simp [head, setHead]

end Kmem

/-! ## The lists -/

/-- The marks of level `k`. -/
def width (N k : Nat) : Nat := N * 2 ^ (6 - k)

theorem width_le (N k : Nat) : width N k ≤ N * 64 :=
  Nat.mul_le_mul_left N (Nat.pow_le_pow_right (n := 2) (by decide) (by omega : 6 - k ≤ 6))

/-- Where a level's marks end. -/
theorem offset_lt_of_le {N k i e : Nat} (hi : i < width N k) (le : 2 ^ (6 - k + 1) ≤ e) :
    N * (2 ^ (6 - k) - 1) + i < N * (e - 1) := by
  have sum : 2 ^ (6 - k) - 1 + 2 ^ (6 - k) ≤ e - 1 := by
    rw [pow_succ] at le
    omega
  calc N * (2 ^ (6 - k) - 1) + i < N * (2 ^ (6 - k) - 1) + N * 2 ^ (6 - k) := by
        unfold width at hi
        omega
    _ = N * (2 ^ (6 - k) - 1 + 2 ^ (6 - k)) := by rw [Nat.mul_add]
    _ ≤ N * (e - 1) := Nat.mul_le_mul_left N sum

/-- A level's marks lie in the array of all marks. -/
theorem offset_lt {N k i : Nat} (hi : i < width N k) : N * (2 ^ (6 - k) - 1) + i < N * 127 :=
  offset_lt_of_le (e := 128) hi (Nat.pow_le_pow_right (n := 2) two_pos (by omega : 6 - k + 1 ≤ 7))

/-- Marks of different levels lie apart. -/
theorem offset_apart {N j k i a : Nat} (ne : j ≠ k) (hj : j ≤ 6) (hk : k ≤ 6) (hi : i < width N k)
    (ha : a < width N j) :
    N * (2 ^ (6 - j) - 1) + a ≠ N * (2 ^ (6 - k) - 1) + i := by
  -- a level ends before the next lower one starts
  have below : ∀ {j k a : Nat}, k < j → j ≤ 6 → a < width N j →
      N * (2 ^ (6 - j) - 1) + a < N * (2 ^ (6 - k) - 1) :=
    fun lower hj ha => offset_lt_of_le ha (Nat.pow_le_pow_right two_pos (by omega))
  rcases Nat.lt_or_gt_of_ne ne with lower | higher
  · have := below lower hk hi
    omega
  · have := below higher hj ha
    omega

namespace Kmem

/-- The bounds of the marks and of the heap. -/
def bounds (km : Kmem) : Nat × Nat × Nat := (km.start, km.startHeap, km.end_)

/-- Forward pointers at level `k`; `NIL` stands for the order itself. -/
def nextAt (km : Kmem) (k x : Nat) : Nat :=
  if x = NIL then km.head (k + MIN_ORD) else nextLnk (km.getMark (k + MIN_ORD) x).lnks

/-- Back pointers at level `k`; the code keeps none to the last mark. -/
def prevAt (km : Kmem) (last k x : Nat) : Nat :=
  if x = NIL then last else preLnk (km.getMark (k + MIN_ORD) x).lnks

section Pointers

variable (km : Kmem) (k : Nat) {idx prev next : Nat} (last : Nat)

theorem nextAt_setLnks (inside : idx ≠ NIL) (small : prev < 65536) (small' : next < 65536) :
    (km.setLnks (k + MIN_ORD) idx (mkLnks prev next)).nextAt k =
      Function.update (km.nextAt k) idx next := by
  funext x
  by_cases same : x = idx
  · subst same
    simp [nextAt, inside, nextLnk_mkLnks small small']
  · simp [nextAt, same]

theorem prevAt_setLnks (inside : idx ≠ NIL) (small : prev < 65536) (small' : next < 65536) :
    (km.setLnks (k + MIN_ORD) idx (mkLnks prev next)).prevAt last k =
      Function.update (km.prevAt last k) idx prev := by
  funext x
  by_cases same : x = idx
  · subst same
    simp [prevAt, inside, preLnk_mkLnks small small']
  · simp [prevAt, same]

theorem nextAt_setHead (hd : Nat) :
    (km.setHead (k + MIN_ORD) hd).nextAt k = Function.update (km.nextAt k) NIL hd := by
  funext x
  by_cases same : x = NIL
  · subst same
    simp [nextAt]
  · simp [nextAt, same]

theorem prevAt_setHead (hd : Nat) : (km.setHead (k + MIN_ORD) hd).prevAt last k = km.prevAt last k := by
  funext x
  simp [prevAt]

theorem nextAt_of_ne {x : Nat} (inside : x ≠ NIL) :
    km.nextAt k x = nextLnk (km.getMark (k + MIN_ORD) x).lnks := if_neg inside

theorem prevAt_of_ne {x : Nat} (inside : x ≠ NIL) :
    km.prevAt last k x = preLnk (km.getMark (k + MIN_ORD) x).lnks := if_neg inside

/-- What precedes `idx` goes on to `next`. -/
theorem nextAt_setNext (first : prev = NIL → km.head (k + MIN_ORD) = idx) (small : next < 65536) :
    (km.setNext (k + MIN_ORD) prev idx next).nextAt k = Function.update (km.nextAt k) prev next := by
  unfold setNext
  by_cases isNil : prev = NIL
  · rw [if_neg (not_not.2 isNil), if_pos (first isNil), nextAt_setHead, isNil]
  · rw [if_pos isNil, nextAt_setLnks km k isNil (preLnk_lt _) small]

theorem prevAt_setNext (small : next < 65536) :
    (km.setNext (k + MIN_ORD) prev idx next).prevAt last k = km.prevAt last k := by
  unfold setNext
  split
  case isTrue inside =>
    rw [prevAt_setLnks km k last inside (preLnk_lt _) small, ← prevAt_of_ne km k last inside,
      Function.update_eq_self]
  case isFalse =>
    split
    · exact prevAt_setHead km k last next
    · rfl

theorem nextAt_setPrev (small : prev < 65536) :
    (km.setPrev (k + MIN_ORD) next prev).nextAt k = km.nextAt k := by
  unfold setPrev
  split
  case isTrue inside =>
    rw [nextAt_setLnks km k inside small (nextLnk_lt _), ← nextAt_of_ne km k inside,
      Function.update_eq_self]
  case isFalse => rfl

/-- `next` goes back to `prev`; at the end of the list `prev` becomes the last mark. -/
theorem prevAt_setPrev (small : prev < 65536) :
    (km.setPrev (k + MIN_ORD) next prev).prevAt (if next = NIL then prev else last) k =
      Function.update (km.prevAt last k) next prev := by
  unfold setPrev
  by_cases isNil : next = NIL
  · rw [if_neg (not_not.2 isNil), if_pos isNil, isNil]
    funext x
    by_cases same : x = NIL
    · subst same
      simp [prevAt]
    · simp [prevAt, same]
  · rw [if_pos isNil, if_neg isNil, prevAt_setLnks km k last isNil small (nextLnk_lt _)]

theorem lnks_setPrev_of_ne {o i : Nat} (ne : i ≠ next) :
    ((km.setPrev o next prev).getMark o i).lnks = (km.getMark o i).lnks := by
  unfold setPrev
  split <;> simp [ne]

theorem lnks_setNext_of_ne {o i : Nat} (ne : i ≠ prev) :
    ((km.setNext o prev idx next).getMark o i).lnks = (km.getMark o i).lnks := by
  unfold setNext
  split
  · simp [ne]
  · split <;> simp

end Pointers

end Kmem

/-- Where each level's marks begin. -/
def Layout (N : Nat) (km : Kmem) : Prop := ∀ k ≤ 6, (km.orders k).offset = N * (2 ^ (6 - k) - 1)

/-- At most the list of level `k` differs. -/
structure Relinked (N k : Nat) (km km' : Kmem) : Prop where
  bounds : km'.bounds = km.bounds
  offset : ∀ j, (km'.orders j).offset = (km.orders j).offset
  bitmap : ∀ o i, (km'.getMark o i).bitmap = (km.getMark o i).bitmap
  head : ∀ j ≤ 6, j ≠ k → km'.head (j + MIN_ORD) = km.head (j + MIN_ORD)
  lnks : ∀ j ≤ 6, j ≠ k → ∀ i < width N j,
    (km'.getMark (j + MIN_ORD) i).lnks = (km.getMark (j + MIN_ORD) i).lnks

namespace Relinked

variable {N k idx : Nat} {km km' km'' : Kmem}

theorem refl (N k : Nat) (km : Kmem) : Relinked N k km km :=
  ⟨rfl, fun _ => rfl, fun _ _ => rfl, fun _ _ _ => rfl, fun _ _ _ _ _ => rfl⟩

theorem trans (first : Relinked N k km km') (second : Relinked N k km' km'') :
    Relinked N k km km'' where
  bounds := second.bounds.trans first.bounds
  offset j := (second.offset j).trans (first.offset j)
  bitmap o i := (second.bitmap o i).trans (first.bitmap o i)
  head j hj ne := (second.head j hj ne).trans (first.head j hj ne)
  lnks j hj ne i hi := (second.lnks j hj ne i hi).trans (first.lnks j hj ne i hi)

theorem layout (relinked : Relinked N k km km') (layout : Layout N km) : Layout N km' :=
  fun j hj => (relinked.offset j).trans (layout j hj)

theorem setHead (N k : Nat) (km : Kmem) (hd : Nat) : Relinked N k km (km.setHead (k + MIN_ORD) hd) := by
  refine ⟨rfl, fun j => by simp, fun o i => by simp, fun j _ ne => ?_, fun j _ _ i _ => by simp⟩
  simp [Kmem.head, Kmem.setHead, ne]

/-- New links of a mark do not reach another level. -/
theorem setLnks (layout : Layout N km) (hk : k ≤ 6) (hi : idx < width N k) (lnks : BitVec 32) :
    Relinked N k km (km.setLnks (k + MIN_ORD) idx lnks) := by
  refine ⟨rfl, fun j => rfl, fun o i => by simp, fun j _ _ => rfl, fun j hj ne i small => ?_⟩
  have apart := offset_apart ne hj hk hi small
  unfold Kmem.setLnks Kmem.setMark Kmem.getMark
  simp only [Nat.add_sub_cancel, layout j hj, layout k hk, upd_apply, if_neg apart]

theorem setNext (layout : Layout N km) (hk : k ≤ 6) {prev : Nat}
    (hp : prev ≠ NIL → prev < width N k) (idx next : Nat) :
    Relinked N k km (km.setNext (k + MIN_ORD) prev idx next) := by
  unfold Kmem.setNext
  split
  case isTrue inside => exact setLnks layout hk (hp inside) _
  case isFalse =>
    split
    · exact setHead N k km next
    · exact refl N k km

theorem setPrev (layout : Layout N km) (hk : k ≤ 6) {next : Nat}
    (hn : next ≠ NIL → next < width N k) (prev : Nat) :
    Relinked N k km (km.setPrev (k + MIN_ORD) next prev) := by
  unfold Kmem.setPrev
  split
  case isTrue inside => exact setLnks layout hk (hn inside) _
  case isFalse => exact refl N k km

end Relinked

/-- The marks of `L k` are chained at level `k`. -/
structure Lists (N : Nat) (L : Nat → List Nat) (km : Kmem) : Prop where
  fits : N * 64 ≤ 65535
  layout : Layout N km
  inside : ∀ k ≤ 6, ∀ i ∈ L k, i < width N k
  ring : ∀ k ≤ 6, ∃ last, IsRing (km.nextAt k) (km.prevAt last k) NIL (L k)

namespace Lists

variable {N k idx : Nat} {L : Nat → List Nat} {km km' : Kmem}

theorem lt_nil (lists : Lists N L km) {i : Nat} (hi : i < width N k) : i < NIL := by
  have bound := width_le N k
  have fits := lists.fits
  show i < 65535
  omega

/-- An index that is `NIL` or on the list is not that of a mark off the list. -/
theorem ne_of_mem (lists : Lists N L km) {i : Nat} (hi : i < width N k) (off : i ∉ L k) {x : Nat}
    (member : x ∈ NIL :: L k) : i ≠ x := by
  intro same
  subst same
  rcases List.mem_cons.1 member with isNil | inside
  · exact (lists.lt_nil hi).ne isNil
  · exact off inside

theorem mem_of_ne_nil {l : List Nat} {x : Nat} (ne : x ≠ NIL) (member : x ∈ l ++ [NIL]) : x ∈ l :=
  (List.mem_append.1 member).resolve_right (mt List.mem_singleton.1 ne)

/-- A new list at level `k` leaves the others. -/
theorem relink (lists : Lists N L km) (relinked : Relinked N k km km') {l : List Nat}
    (inside : ∀ i ∈ l, i < width N k)
    (ring : ∃ last, IsRing (km'.nextAt k) (km'.prevAt last k) NIL l) : Lists N (upd L k l) km' := by
  refine ⟨lists.fits, relinked.layout lists.layout,
    forall_upd (P := fun j l => j ≤ 6 → ∀ i ∈ l, i < width N j) (fun _ => inside)
      fun j _ => lists.inside j,
    forall_upd (P := fun j l => j ≤ 6 → ∃ last, IsRing (km'.nextAt j) (km'.prevAt last j) NIL l)
      (fun _ => ring) fun j same hj => ?_⟩
  obtain ⟨last, old⟩ := lists.ring j hj
  have cell : ∀ x ∈ NIL :: L j, x ≠ NIL →
      (km'.getMark (j + MIN_ORD) x).lnks = (km.getMark (j + MIN_ORD) x).lnks := fun x member ne =>
    relinked.lnks j hj same x (lists.inside j hj x (List.mem_of_ne_of_mem ne member))
  refine ⟨last, old.congr (fun x member => ?_) fun x member => ?_⟩
  · unfold Kmem.nextAt
    split
    case isTrue => exact relinked.head j hj same
    case isFalse ne => rw [cell x member ne]
  · unfold Kmem.prevAt
    split
    case isTrue => rfl
    case isFalse ne => rw [cell x member ne]

/-- `unmark_blk` deletes a mark from its list and leaves the marks off the list. -/
theorem unlinkMark (lists : Lists N L km) (hk : k ≤ 6) {front back : List Nat}
    (split : L k = front ++ idx :: back) :
    Relinked N k km (km.unlinkMark (k + MIN_ORD) idx) ∧
      Lists N (upd L k (front ++ back)) (km.unlinkMark (k + MIN_ORD) idx) ∧
      ∀ i < width N k, i ∉ L k → ((km.unlinkMark (k + MIN_ORD) idx).getMark (k + MIN_ORD) i).lnks =
        (km.getMark (k + MIN_ORD) i).lnks := by
  obtain ⟨last, ring⟩ := lists.ring k hk
  rw [split] at ring
  have member : ∀ i ∈ front ++ idx :: back, i < width N k := fun i inside =>
    lists.inside k hk i (by rwa [split])
  have idxSmall : idx < width N k := member idx (by simp)
  have idxNe : idx ≠ NIL := (lists.lt_nil idxSmall).ne
  obtain ⟨toIdx, fromIdx⟩ := Ring.linked_append.1 ring.linked
  have prevIn : km.prevAt last k idx ∈ NIL :: front := toIdx.prev_mem
  have nextIn : km.nextAt k idx ∈ back ++ [NIL] := fromIdx.next_mem
  -- the code reads the two neighbours from the mark
  have prevEq : preLnk (km.getMark (k + MIN_ORD) idx).lnks = km.prevAt last k idx :=
    (Kmem.prevAt_of_ne km k last idxNe).symm
  have nextEq : nextLnk (km.getMark (k + MIN_ORD) idx).lnks = km.nextAt k idx :=
    (Kmem.nextAt_of_ne km k idxNe).symm
  have prevSmall : km.prevAt last k idx < 65536 := prevEq ▸ preLnk_lt _
  have nextSmall : km.nextAt k idx < 65536 := nextEq ▸ nextLnk_lt _
  have unlinked := ring.unlink
  unfold Kmem.unlinkMark
  simp only [prevEq, nextEq]
  generalize prevIs : km.prevAt last k idx = prev at *
  generalize nextIs : km.nextAt k idx = next at *
  have prevInside : prev ≠ NIL → prev < width N k := fun ne =>
    member prev (List.mem_append_left _ (List.mem_of_ne_of_mem ne prevIn))
  have nextInside : next ≠ NIL → next < width N k := fun ne =>
    member next (List.mem_append_right _ (List.mem_cons_of_mem _ (mem_of_ne_nil ne nextIn)))
  have first : prev = NIL → km.head (k + MIN_ORD) = idx := by
    intro isNil
    have : km.nextAt k NIL = idx := by
      cases front with
      | nil => exact toIdx.1
      | cons x front =>
        have inFront : prev ∈ x :: front := prevIs ▸ toIdx.2.2.prev_mem
        have small := member prev (List.mem_append_left _ inFront)
        exact absurd isNil (lists.lt_nil small).ne
    rwa [Kmem.nextAt, if_pos rfl] at this
  have step1 := Relinked.setNext lists.layout hk prevInside idx next
  have step2 := Relinked.setPrev (step1.layout lists.layout) hk nextInside prev
  have step3 := Relinked.setLnks (step2.layout (step1.layout lists.layout)) hk idxSmall
    (mkLnks NIL NIL)
  have relinked := (step1.trans step2).trans step3
  refine ⟨relinked, lists.relink relinked ?_ ⟨if next = NIL then prev else last, ?_⟩,
    fun i hi off => ?_⟩
  · intro i inside
    apply member
    rcases List.mem_append.1 inside with inFront | inBack
    · exact List.mem_append_left _ inFront
    · exact List.mem_append_right _ (List.mem_cons_of_mem _ inBack)
  · rw [Kmem.nextAt_setLnks _ k idxNe (by decide) (by decide), Kmem.nextAt_setPrev _ k prevSmall,
      Kmem.nextAt_setNext _ k first nextSmall,
      Kmem.prevAt_setLnks _ k _ idxNe (by decide) (by decide), Kmem.prevAt_setPrev _ k _ prevSmall,
      Kmem.prevAt_setNext _ k _ nextSmall]
    have out : ∀ x ∈ NIL :: (front ++ back), x ≠ idx := by
      intro x inside same
      subst same
      have perm : (NIL :: (front ++ x :: back)).Perm (x :: NIL :: (front ++ back)) :=
        (List.perm_middle.cons NIL).trans (List.Perm.swap x NIL _)
      exact (List.nodup_cons.1 (perm.nodup_iff.1 ring.nodup)).1 inside
    apply unlinked.congr
    · exact fun x inside => Function.update_of_ne (out x inside) ..
    · exact fun x inside => Function.update_of_ne (out x inside) ..
  · have ne := fun x => lists.ne_of_mem hi off (x := x)
    rw [split] at ne
    rw [Kmem.lnks_setLnks, if_neg (ne idx (by simp)), Kmem.lnks_setPrev_of_ne _ (ne next ?_),
      Kmem.lnks_setNext_of_ne _ (ne prev ?_)]
    · rcases List.mem_cons.1 prevIn with isNil | inFront
      · simp [isNil]
      · simp [inFront]
    · rcases List.mem_append.1 nextIn with inBack | isNil
      · simp [inBack]
      · simp [List.mem_singleton.1 isNil]

/-- `mark_blk` inserts a mark at the head of its list and leaves the others off the list. -/
theorem pushMark (lists : Lists N L km) (hk : k ≤ 6) (small : idx < width N k) (fresh : idx ∉ L k) :
    Relinked N k km (km.pushMark (k + MIN_ORD) idx) ∧
      Lists N (upd L k (idx :: L k)) (km.pushMark (k + MIN_ORD) idx) ∧
      ∀ i < width N k, i ∉ L k → i ≠ idx →
        ((km.pushMark (k + MIN_ORD) idx).getMark (k + MIN_ORD) i).lnks =
          (km.getMark (k + MIN_ORD) i).lnks := by
  obtain ⟨last, ring⟩ := lists.ring k hk
  have idxNil : idx < NIL := lists.lt_nil small
  have idxSmall : idx < 65536 := Nat.lt_succ_of_lt idxNil
  have headEq : km.head (k + MIN_ORD) = km.nextAt k NIL := by rw [Kmem.nextAt, if_pos rfl]
  have headIn : km.nextAt k NIL ∈ L k ++ [NIL] := ring.linked.next_mem
  have pushed := ring.push (b := idx) (by simp [idxNil.ne, fresh])
  unfold Kmem.pushMark
  simp only [headEq]
  generalize km.nextAt k NIL = hd at *
  have headInside : hd ≠ NIL → hd < width N k := fun ne =>
    lists.inside k hk hd (mem_of_ne_nil ne headIn)
  have headSmall : hd < 65536 := by
    by_cases isNil : hd = NIL
    · rw [isNil]
      decide
    · exact Nat.lt_succ_of_lt (lists.lt_nil (headInside isNil))
  have step1 := Relinked.setLnks lists.layout hk small (mkLnks NIL hd)
  have step2 := Relinked.setPrev (step1.layout lists.layout) hk headInside idx
  have relinked := (step1.trans step2).trans (Relinked.setHead N k _ idx)
  refine ⟨relinked, lists.relink relinked ?_ ⟨if hd = NIL then idx else last, ?_⟩,
    fun i hi off ne => ?_⟩
  · intro i member
    rcases List.mem_cons.1 member with same | old
    · rwa [same]
    · exact lists.inside k hk i old
  · rw [Kmem.nextAt_setHead, Kmem.nextAt_setPrev _ k idxSmall,
      Kmem.nextAt_setLnks _ k idxNil.ne (by decide) headSmall, Kmem.prevAt_setHead,
      Kmem.prevAt_setPrev _ k _ idxSmall, Kmem.prevAt_setLnks _ k _ idxNil.ne (by decide) headSmall]
    exact pushed
  · have headIn : hd ∈ NIL :: L k := by simpa [or_comm] using headIn
    rw [Kmem.getMark_setHead, Kmem.lnks_setPrev_of_ne _ (lists.ne_of_mem hi off headIn),
      Kmem.lnks_setLnks, if_neg ne]

end Lists

/-! ## The available blocks -/

theorem available_eq (bitmap : BitVec 32) (b : Nat) :
    available bitmap b = bitmap.getLsbD (b % 32) := by
  have inside : b % 32 < 32 := Nat.mod_lt b (by decide)
  cases bit : bitmap.getLsbD (b % 32) with
  | true =>
    have := (and_bitMask_eq_zero_iff bitmap inside).not.2 (by simp [bit])
    simpa [available] using this
  | false =>
    have := (and_bitMask_eq_zero_iff bitmap inside).2 bit
    simp [available, this]

theorem available_or (bitmap : BitVec 32) (a b : Nat) :
    available (bitmap ||| bitMask 32 (b % 32)) a = (decide (a % 32 = b % 32) || available bitmap a) := by
  rw [available_eq, available_eq, getLsbD_or_bitMask bitmap (Nat.mod_lt a (by decide))]

theorem available_and_not (bitmap : BitVec 32) (a b : Nat) :
    available (bitmap &&& ~~~bitMask 32 (b % 32)) a =
      (!decide (a % 32 = b % 32) && available bitmap a) := by
  rw [available_eq, available_eq, getLsbD_and_not_bitMask bitmap (Nat.mod_lt a (by decide))]

theorem not_available_zero (b : Nat) : available 0 b = false := by
  rw [available_eq]
  exact BitVec.getLsbD_zero

theorem shiftRight_five (b : Nat) : b >>> 5 = b / 32 := Nat.shiftRight_eq_div_pow b 5

/-- The blocks marked available, by level and block number. -/
def Kmem.free (N : Nat) (km : Kmem) : Dyadic.Blocks :=
  {x | x.1 ≤ 6 ∧ x.2 < 32 * width N x.1 ∧
    available (km.getMark (x.1 + MIN_ORD) (x.2 >>> 5)).bitmap x.2 = true}

/-- The lists chain exactly the marks with an available block. -/
def Wf (N : Nat) (km : Kmem) : Prop :=
  ∃ L, Lists N L km ∧ ∀ k ≤ 6, ∀ i < width N k,
    (i ∈ L k ↔ (km.getMark (k + MIN_ORD) i).bitmap ≠ 0)

theorem mem_free {N : Nat} {km : Kmem} {k b : Nat} : (k, b) ∈ km.free N ↔
    k ≤ 6 ∧ b < 32 * width N k ∧
      available (km.getMark (k + MIN_ORD) (b >>> 5)).bitmap b = true := Iff.rfl

/-- Only the bitmap of one mark is new. -/
structure Rebitted (N k i : Nat) (bitmap : BitVec 32) (km km' : Kmem) : Prop where
  bounds : km'.bounds = km.bounds
  bitmap : ∀ j ≤ 6, ∀ a < width N j, (km'.getMark (j + MIN_ORD) a).bitmap =
    if j = k ∧ a = i then bitmap else (km.getMark (j + MIN_ORD) a).bitmap

section Bitmaps

variable {N k b : Nat} {km km' : Kmem}

theorem Lists.rebitted {L : Nat → List Nat} (lists : Lists N L km) (hk : k ≤ 6) {i : Nat}
    (hi : i < width N k) (bitmap : BitVec 32) :
    Rebitted N k i bitmap km (km.setBitmap (k + MIN_ORD) i bitmap) := by
  refine ⟨rfl, fun j hj a ha => ?_⟩
  by_cases level : j = k
  · subst level
    simp
  · have apart := offset_apart level hj hk hi ha
    unfold Kmem.setBitmap Kmem.setMark Kmem.getMark
    simp only [Nat.add_sub_cancel, lists.layout j hj, lists.layout k hk, upd_apply, if_neg apart,
      level, false_and, if_false]

/-- The lists do not depend on the bitmaps. -/
theorem Lists.setBitmap {L : Nat → List Nat} (lists : Lists N L km) (o i : Nat)
    (bitmap : BitVec 32) : Lists N L (km.setBitmap o i bitmap) := by
  refine ⟨lists.fits, lists.layout, lists.inside, fun j hj => ?_⟩
  obtain ⟨last, ring⟩ := lists.ring j hj
  refine ⟨last, ring.congr (fun x _ => ?_) fun x _ => ?_⟩
  · unfold Kmem.nextAt
    rw [Kmem.lnks_setBitmap]
    rfl
  · unfold Kmem.prevAt
    rw [Kmem.lnks_setBitmap]

theorem Rebitted.relink {i : Nat} {bitmap : BitVec 32} {km'' : Kmem}
    (rebitted : Rebitted N k i bitmap km km') (relinked : Relinked N k km' km'') :
    Rebitted N k i bitmap km km'' := by
  refine ⟨relinked.bounds.trans rebitted.bounds, fun j hj a ha => ?_⟩
  rw [relinked.bitmap, rebitted.bitmap j hj a ha]

/-- A block's bit afterwards. -/
theorem Rebitted.mem_free {bitmap : BitVec 32} (rebitted : Rebitted N k (b >>> 5) bitmap km km')
    (j a : Nat) : (j, a) ∈ km'.free N ↔ j ≤ 6 ∧ a < 32 * width N j ∧
      available (if j = k ∧ a >>> 5 = b >>> 5 then bitmap
        else (km.getMark (j + MIN_ORD) (a >>> 5)).bitmap) a = true := by
  refine and_congr_right fun hj => and_congr_right fun ha => ?_
  have small : a >>> 5 < width N j := by
    rw [shiftRight_five]
    have ha : a < 32 * width N j := ha
    omega
  show available (km'.getMark (j + MIN_ORD) (a >>> 5)).bitmap a = true ↔ _
  rw [rebitted.bitmap j hj _ small]

/-- One block is new among the available ones, if the other bits of its mark are old. -/
theorem Rebitted.mem_free_iff {bitmap : BitVec 32} (rebitted : Rebitted N k (b >>> 5) bitmap km km')
    (others : ∀ a, a % 32 ≠ b % 32 →
      available bitmap a = available (km.getMark (k + MIN_ORD) (b >>> 5)).bitmap a)
    (hk : k ≤ 6) (hb : b < 32 * width N k) (x : Nat × Nat) :
    x ∈ km'.free N ↔ if x = (k, b) then available bitmap b = true else x ∈ km.free N := by
  obtain ⟨j, a⟩ := x
  rw [rebitted.mem_free, Kernel.mem_free]
  by_cases same : (j, a) = (k, b)
  · obtain ⟨rfl, rfl⟩ := Prod.mk.inj same
    simp [hk, hb]
  rw [if_neg same]
  by_cases mark : j = k ∧ a >>> 5 = b >>> 5
  · obtain ⟨rfl, mark⟩ := mark
    rw [if_pos ⟨rfl, mark⟩, others, mark]
    -- the same bit of the same mark is the same block
    intro bit
    rw [shiftRight_five, shiftRight_five] at mark
    exact same (Prod.ext rfl (show a = b by omega))
  · rw [if_neg mark]

theorem free_marked (hk : k ≤ 6) (hb : b < 32 * width N k)
    (rebitted : Rebitted N k (b >>> 5)
      ((km.getMark (k + MIN_ORD) (b >>> 5)).bitmap ||| bitMask 32 (b % 32)) km km') :
    km'.free N = insert (k, b) (km.free N) := by
  ext x
  rw [rebitted.mem_free_iff (fun a ne => by simp [available_or, ne]) hk hb, available_or]
  by_cases same : x = (k, b) <;> simp [same]

theorem free_unmarked (hk : k ≤ 6) (hb : b < 32 * width N k)
    (rebitted : Rebitted N k (b >>> 5)
      ((km.getMark (k + MIN_ORD) (b >>> 5)).bitmap &&& ~~~bitMask 32 (b % 32)) km km') :
    km'.free N = km.free N \ {(k, b)} := by
  ext x
  rw [rebitted.mem_free_iff (fun a ne => by simp [available_and_not, ne]) hk hb, available_and_not]
  by_cases same : x = (k, b) <;> simp [same]

end Bitmaps

/-! ## The updates -/

/-- What a call on level `k` leaves alone: the other levels, and the links of the marks
that are on the list neither before nor after. -/
structure LeavesOthers (N k : Nat) (km km' : Kmem) : Prop where
  heads : ∀ j ≤ 6, j ≠ k → km'.head (j + MIN_ORD) = km.head (j + MIN_ORD)
  marks : ∀ j ≤ 6, j ≠ k → ∀ i < width N j, km'.getMark (j + MIN_ORD) i = km.getMark (j + MIN_ORD) i
  off : ∀ i < width N k, (km.getMark (k + MIN_ORD) i).bitmap = 0 →
    (km'.getMark (k + MIN_ORD) i).bitmap = 0 →
      (km'.getMark (k + MIN_ORD) i).lnks = (km.getMark (k + MIN_ORD) i).lnks

section Updates

variable {N k b : Nat} {km : Kmem}

theorem ne_zero_of_available {bitmap : BitVec 32} (bit : available bitmap b = true) : bitmap ≠ 0 := by
  intro isZero
  rw [isZero, not_available_zero] at bit
  exact Bool.false_ne_true bit

theorem mark_lt (hb : b < 32 * width N k) : b >>> 5 < width N k := by
  rw [shiftRight_five]
  omega

/-- The lists after an update of one mark: it is listed if it has a block left. -/
theorem Rebitted.wf {L : Nat → List Nat} {l : List Nat} {km' : Kmem} {i : Nat} {bitmap : BitVec 32}
    (members : ∀ k ≤ 6, ∀ i < width N k, (i ∈ L k ↔ (km.getMark (k + MIN_ORD) i).bitmap ≠ 0))
    (rebitted : Rebitted N k i bitmap km km') (lists : Lists N (upd L k l) km')
    (mark : i ∈ l ↔ bitmap ≠ 0) (others : ∀ a, a ≠ i → (a ∈ l ↔ a ∈ L k)) : Wf N km' := by
  refine ⟨_, lists, fun j hj a ha => ?_⟩
  rw [rebitted.bitmap j hj a ha]
  by_cases level : j = k
  · subst level
    rw [upd_same]
    by_cases same : a = i
    · rw [if_pos ⟨rfl, same⟩, same]
      exact mark
    · rw [if_neg fun both => same both.2, others a same]
      exact members j hj a ha
  · rw [if_neg fun both => level both.1, upd_ne L l level]
    exact members j hj a ha

theorem mark_eq {a c : Mark} (lnks : a.lnks = c.lnks) (bitmap : a.bitmap = c.bitmap) : a = c := by
  cases a
  cases c
  simp_all

/-- A new bitmap of one mark, and then at most new links at its level. -/
theorem Lists.leavesOthers {L : Nat → List Nat} {km' : Kmem} (lists : Lists N L km) (hk : k ≤ 6) {i : Nat} (hi : i < width N k)
    {bitmap : BitVec 32} (relinked : Relinked N k (km.setBitmap (k + MIN_ORD) i bitmap) km')
    (off : ∀ a < width N k, (km.getMark (k + MIN_ORD) a).bitmap = 0 →
      (km'.getMark (k + MIN_ORD) a).bitmap = 0 → (km'.getMark (k + MIN_ORD) a).lnks =
        ((km.setBitmap (k + MIN_ORD) i bitmap).getMark (k + MIN_ORD) a).lnks) :
    LeavesOthers N k km km' := by
  have rebitted := (lists.rebitted hk hi bitmap).relink relinked
  refine ⟨fun j hj ne => relinked.head j hj ne, fun j hj ne a ha => ?_, fun a ha before after => ?_⟩
  · apply mark_eq
    · rw [relinked.lnks j hj ne a ha, Kmem.lnks_setBitmap]
    · rw [rebitted.bitmap j hj a ha, if_neg fun same => ne same.1]
  · rw [off a ha before after, Kmem.lnks_setBitmap]

/-- **`mark_blk` inserts a block into the available ones.** -/
theorem markBlk_spec (wf : Wf N km) (hk : k ≤ 6) (hb : b < 32 * width N k)
    (notFree : (k, b) ∉ km.free N) :
    ∃ km', km.markBlk (k + MIN_ORD) b = .ok km' ∧ Wf N km' ∧ km'.bounds = km.bounds ∧
      km'.free N = insert (k, b) (km.free N) ∧ LeavesOthers N k km km' := by
  obtain ⟨L, lists, members⟩ := wf
  have hi := mark_lt hb
  have off : available (km.getMark (k + MIN_ORD) (b >>> 5)).bitmap b = false := by
    apply Bool.eq_false_iff.2
    exact fun bit => notFree ⟨hk, hb, bit⟩
  unfold Kmem.markBlk
  simp only [off, Bool.false_eq_true, if_false]
  generalize bitmapIs : (km.getMark (k + MIN_ORD) (b >>> 5)).bitmap = bitmap at *
  have set : available (bitmap ||| bitMask 32 (b % 32)) b = true := by
    rw [available_or]
    simp
  have rebitted := lists.rebitted hk hi (bitmap ||| bitMask 32 (b % 32))
  have lists' := lists.setBitmap (k + MIN_ORD) (b >>> 5) (bitmap ||| bitMask 32 (b % 32))
  by_cases isZero : bitmap = 0
  · have fresh : b >>> 5 ∉ L k := by
      rw [members k hk _ hi, bitmapIs]
      exact not_not.2 isZero
    obtain ⟨relinked, pushed, off⟩ := lists'.pushMark hk hi fresh
    have rebitted' := rebitted.relink relinked
    rw [if_pos isZero]
    refine ⟨_, rfl, rebitted'.wf members pushed ?_ (fun a ne => by simp [ne]), rebitted'.bounds, ?_,
      lists.leavesOthers hk hi relinked fun a ha before after => off a ha ?_ ?_⟩
    · exact iff_of_true List.mem_cons_self (ne_zero_of_available set)
    · apply free_marked hk hb
      rwa [bitmapIs]
    · rw [members k hk a ha]
      exact not_not.2 before
    · -- the mark inserted has a bit set afterwards
      rintro rfl
      rw [relinked.bitmap, Kmem.bitmap_setBitmap, if_pos rfl] at after
      exact ne_zero_of_available set after
  · rw [if_neg isZero]
    rw [← upd_eq_self L k] at lists'
    refine ⟨_, rfl, rebitted.wf members lists' ?_ (fun _ _ => Iff.rfl), rebitted.bounds, ?_,
      lists.leavesOthers hk hi (Relinked.refl ..) fun _ _ _ _ => rfl⟩
    · rw [members k hk _ hi, bitmapIs]
      exact iff_of_true isZero (ne_zero_of_available set)
    · apply free_marked hk hb
      rwa [bitmapIs]

/-- **`unmark_blk` deletes a block from the available ones.** -/
theorem unmarkBlk_spec (wf : Wf N km) (free : (k, b) ∈ km.free N) :
    ∃ km', km.unmarkBlk (k + MIN_ORD) b = .ok km' ∧ Wf N km' ∧ km'.bounds = km.bounds ∧
      km'.free N = km.free N \ {(k, b)} ∧ LeavesOthers N k km km' := by
  obtain ⟨L, lists, members⟩ := wf
  obtain ⟨hk, hb, on⟩ := mem_free.1 free
  have hi := mark_lt hb
  unfold Kmem.unmarkBlk
  simp only [on, Bool.true_eq_false, if_false]
  have listed : b >>> 5 ∈ L k := (members k hk _ hi).2 (ne_zero_of_available on)
  generalize bitmapIs : (km.getMark (k + MIN_ORD) (b >>> 5)).bitmap = bitmap at *
  have rebitted := lists.rebitted hk hi (bitmap &&& ~~~bitMask 32 (b % 32))
  have lists' := lists.setBitmap (k + MIN_ORD) (b >>> 5) (bitmap &&& ~~~bitMask 32 (b % 32))
  by_cases isZero : bitmap &&& ~~~bitMask 32 (b % 32) = 0
  · obtain ⟨front, back, split⟩ := List.append_of_mem listed
    obtain ⟨relinked, unlinked, off⟩ := lists'.unlinkMark hk split
    have rebitted' := rebitted.relink relinked
    have nodup : (front ++ b >>> 5 :: back).Nodup := by
      obtain ⟨last, ring⟩ := lists.ring k hk
      rw [← split]
      exact (List.nodup_cons.1 ring.nodup).2
    rw [if_pos isZero]
    refine ⟨_, rfl, rebitted'.wf members unlinked ?_ (fun a ne => by simp [split, ne]),
      rebitted'.bounds, ?_, lists.leavesOthers hk hi relinked fun a ha before _ => off a ha ?_⟩
    · refine iff_of_false (fun inside => ?_) (not_not.2 isZero)
      exact (List.nodup_cons.1 (List.perm_middle.nodup_iff.1 nodup)).1 inside
    · apply free_unmarked hk hb
      rwa [bitmapIs]
    · rw [members k hk a ha]
      exact not_not.2 before
  · rw [if_neg isZero]
    rw [← upd_eq_self L k] at lists'
    refine ⟨_, rfl, rebitted.wf members lists' ?_ (fun _ _ => Iff.rfl), rebitted.bounds, ?_,
      lists.leavesOthers hk hi (Relinked.refl ..) fun _ _ _ _ => rfl⟩
    · exact iff_of_true listed isZero
    · apply free_unmarked hk hb
      rwa [bitmapIs]

/-- The bits of a mark are the available blocks. -/
theorem mem_free_bit (hk : k ≤ 6) {i n : Nat} (hi : i < width N k) (hn : n < 32) :
    (k, i * 32 + n) ∈ km.free N ↔ (km.getMark (k + MIN_ORD) i).bitmap.getLsbD n = true := by
  rw [mem_free, shiftRight_five, available_eq, show (i * 32 + n) / 32 = i by omega,
    show (i * 32 + n) % 32 = n by omega]
  exact ⟨fun free => free.2.2, fun on => ⟨hk, by omega, on⟩⟩

/-- A mark none of whose blocks is available is zero. -/
theorem bitmap_eq_zero (hk : k ≤ 6) {i : Nat} (hi : i < width N k)
    (none_ : ∀ b, (k, b) ∉ km.free N) : (km.getMark (k + MIN_ORD) i).bitmap = 0 := by
  apply BitVec.eq_of_getLsbD_eq
  intro n hn
  have bit := none_ (i * 32 + n)
  rw [mem_free_bit hk hi hn, Bool.not_eq_true] at bit
  rw [bit]
  exact BitVec.getLsbD_zero.symm

/-- The head of an order tells whether it has an available block. -/
theorem head_eq_nil_iff (wf : Wf N km) (hk : k ≤ 6) :
    km.head (k + MIN_ORD) = NIL ↔ ∀ b, (k, b) ∉ km.free N := by
  obtain ⟨L, lists, members⟩ := wf
  obtain ⟨last, ring⟩ := lists.ring k hk
  have headEq : km.head (k + MIN_ORD) = km.nextAt k NIL := by rw [Kmem.nextAt, if_pos rfl]
  rw [headEq]
  cases listIs : L k with
  | nil =>
    rw [listIs] at ring
    refine iff_of_true ring.linked.1 fun b free => ?_
    obtain ⟨-, hb, bit⟩ := mem_free.1 free
    have := (members k hk _ (mark_lt hb)).2 (ne_zero_of_available bit)
    rw [listIs] at this
    exact List.not_mem_nil this
  | cons i l =>
    rw [listIs] at ring
    have member : i ∈ L k := by
      rw [listIs]
      exact List.mem_cons_self
    have hi := lists.inside k hk i member
    refine iff_of_false ?_ fun none_ => (members k hk i hi).1 member ?_
    · rw [ring.linked.1]
      exact (lists.lt_nil hi).ne
    · exact bitmap_eq_zero hk hi none_

/-- **`get_blk` takes an available block.** -/
theorem getBlk_spec (wf : Wf N km) (hk : k ≤ 6) (some_ : km.head (k + MIN_ORD) ≠ NIL) :
    ∃ b km', (k, b) ∈ km.free N ∧
      km.getBlk (k + MIN_ORD) = .ok (km.blkid2mem (k + MIN_ORD) b, km') ∧ Wf N km' ∧
      km'.bounds = km.bounds ∧ km'.free N = km.free N \ {(k, b)} := by
  obtain ⟨L, lists, members⟩ := wf
  obtain ⟨last, ring⟩ := lists.ring k hk
  have headIn : km.head (k + MIN_ORD) ∈ L k := by
    have first : km.nextAt k NIL ∈ L k ++ [NIL] := ring.linked.next_mem
    rw [Kmem.nextAt, if_pos rfl] at first
    exact Lists.mem_of_ne_nil some_ first
  have hi := lists.inside k hk _ headIn
  have nonzero := (members k hk _ hi).1 headIn
  unfold Kmem.getBlk
  simp only [nonzero, if_false]
  generalize hdIs : km.head (k + MIN_ORD) = hd at *
  cases found : (List.range 32).find? fun i =>
      (km.getMark (k + MIN_ORD) hd).bitmap &&& bitMask 32 i != 0 with
  | none =>
    refine absurd (BitVec.eq_of_getLsbD_eq fun n hn => ?_) nonzero
    have off := List.find?_eq_none.1 found n (List.mem_range.2 hn)
    simp only [bne_iff_ne, not_not] at off
    rw [(and_bitMask_eq_zero_iff _ hn).1 off]
    exact BitVec.getLsbD_zero.symm
  | some n =>
    have hn : n < 32 := List.mem_range.1 (List.mem_of_find?_eq_some found)
    have on := List.find?_some found
    have free : (k, hd * 32 + n) ∈ km.free N := by
      rw [bne_iff_ne, ne_eq, and_bitMask_eq_zero_iff _ hn, Bool.not_eq_false] at on
      exact (mem_free_bit hk hi hn).2 on
    obtain ⟨km', unmarked, wf', bounds, freed, -⟩ := unmarkBlk_spec ⟨L, lists, members⟩ free
    refine ⟨hd * 32 + n, km', free, ?_, wf', bounds, freed⟩
    simp only [unmarked]

end Updates

end Xv6Rpi.Kernel
