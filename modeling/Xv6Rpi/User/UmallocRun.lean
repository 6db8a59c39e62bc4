/-
# User.UmallocRun -- malloc, and every program that calls it

`malloc` moves a block from the free list to the live ones (`malloc_spec`): the search goes
round once; if nothing fits, `morecore` adds a block that does, and the second round finds it.
A store of the program into a live block reaches no header (`Inv.store`).  Together with
`free_spec` this gives the invariant of all runs, `heap_invariant`.
-/
import Xv6Rpi.User.UmallocInv

namespace Xv6Rpi.User.Umalloc

open Theory Theory.Cycle Kernel

set_option autoImplicit false

section Malloc

variable {base nunits p prevp : Nat} {h : Heap} {F Q : List Nat}

/-- Blocks with different headers are apart. -/
theorem Inv.apart (inv : Inv base h F Q) {f g : Nat} (isF : f ∈ F ++ Q) (isG : g ∈ F ++ Q)
    (ne : f ≠ g) : (h.span f).Apart (h.span g) := by
  apply inv.tiled.apart_of_ne (List.mem_map_of_mem isF) (List.mem_map_of_mem isG)
  intro same
  exact ne (congrArg Span.start same)

/-- There is no header inside a block. -/
theorem Inv.interior (inv : Inv base h F Q) {f a : Nat} (isBlock : f ∈ F ++ Q) (after : f < a)
    (inside : a < f + 8 * h.size f) : a ∉ base :: (F ++ Q) := by
  intro member
  rcases List.mem_cons.1 member with rfl | isHeader
  · have := (inv.block isBlock).2
    omega
  · have some_ := (inv.block isHeader).1
    rcases inv.apart isBlock isHeader (by omega) with up | down
    · simp only [Heap.span] at up
      omega
    · simp only [Heap.span] at down
      omega

/-- The cell that points to a free block is the one before it in the list. -/
theorem Inv.pred_eq (inv : Inv base h F Q) {before after : List Nat} (split : F = before ++ p :: after)
    (isPrev : prevp ∈ base :: F) (points : h.ptr prevp = p) : prevp = before.getLastD base := by
  subst split
  apply inv.cycle.inj inv.nodup isPrev
  · rw [← List.cons_append]
    exact List.mem_append_left _ (getLastD_mem base before)
  · rw [points]
    exact ((walk_append.1 inv.cycle).1.arrives).symm

/-- **Taking a block** of the list, or the end of one. -/
theorem take_spec (inv : Inv base h F Q) (isFree : p ∈ F) (isPrev : prevp ∈ base :: F)
    (points : h.ptr prevp = p) (fits : nunits ≤ h.size p) (some_ : 0 < nunits) :
    ∃ h' F' q, h.take nunits prevp p = (h', q + 8) ∧ Inv base h' F' (q :: Q) ∧
      h'.size q = nunits ∧ ∀ f ∈ Q, h'.size f = h.size f := by
  obtain ⟨before, after, split⟩ := List.append_of_mem isFree
  have isLast := inv.pred_eq split isPrev points
  by_cases exact_ : h.size p = nunits
  · rw [Heap.take, if_pos exact_]
    refine ⟨_, before ++ after, p, rfl, ?_, exact_, fun _ _ => rfl⟩
    have fewer : (before ++ after).Sublist F := by
      rw [split]
      exact (List.sublist_cons_self p after).append_left before
    refine ⟨?_, inv.spaced.sublist fewer, inv.head, ?_, ?_, inv.memory, inv.room⟩
    · have unlinked := (split ▸ inv.cycle).unlink (split ▸ inv.nodup)
      simpa only [upd_eq_update, isLast] using unlinked
    · rw [isLast, ← List.cons_append]
      exact List.mem_append_left _ (getLastD_mem base before)
    · refine inv.tiled.perm (List.Perm.map _ ?_)
      rw [split]
      simp only [List.append_assoc, List.cons_append]
      exact List.Perm.append_left before List.perm_middle
  · -- the block keeps its place and gives up its end
    rw [Heap.take, if_neg exact_]
    obtain ⟨rest, isRest⟩ : ∃ rest, rest = h.size p - nunits := ⟨_, rfl⟩
    obtain ⟨q, isQ⟩ : ∃ q, q = p + 8 * rest := ⟨_, rfl⟩
    have new : q ∉ base :: (F ++ Q) := by
      apply inv.interior (List.mem_append_left Q isFree)
      · omega
      · omega
    have notP : p ≠ q := by omega
    have sizes : ∀ f, f ≠ p → f ≠ q → upd (upd h.size p rest) q nunits f = h.size f := by
      intro f neP neQ
      rw [upd_ne _ _ neQ, upd_ne _ _ neP]
    have atP : upd (upd h.size p rest) q nunits p = rest := by rw [upd_ne _ _ notP, upd_same]
    have old : ∀ f ∈ base :: (F ++ Q), f ≠ q := by
      rintro f member rfl
      exact new member
    have front : (F ++ Q).Perm (p :: (before ++ (after ++ Q))) := by
      rw [split]
      simp only [List.append_assoc, List.cons_append]
      exact List.perm_middle
    have others : p ∉ before ++ (after ++ Q) :=
      (List.nodup_cons.1 (front.nodup_iff.1 inv.distinct)).1
    refine ⟨{ h with size := upd (upd h.size p rest) q nunits, freep := prevp }, F, q, ?_, ?_, ?_, ?_⟩
    · simp only [← isRest, ← isQ]
    · refine ⟨inv.cycle, ?_, ?_, isPrev, ?_, inv.memory, inv.room⟩
      · refine List.Pairwise.imp_of_mem ?_ inv.spaced
        intro a b isA _ less
        by_cases same : a = p
        · subst same
          show a + 8 * upd (upd h.size a rest) q nunits a < b
          rw [atP]
          omega
        · show a + 8 * upd (upd h.size p rest) q nunits a < b
          rwa [sizes a same (old a (by simp [isA]))]
      · have := (inv.free_block isFree).2
        exact (sizes base (by omega) (old base (by simp))).trans inv.head
      · have cut := (inv.tiled.perm (front.symm.map h.span)).cut (n := 8 * rest)
          (by omega) (by simp only [Heap.span]; omega) (Nat.dvd_mul_right 8 rest)
        have back : (F ++ q :: Q).Perm (p :: q :: (before ++ (after ++ Q))) :=
          List.perm_middle.trans ((List.Perm.cons q front).trans (List.Perm.swap p q _))
        have same : ∀ f ∈ before ++ (after ++ Q),
            upd (upd h.size p rest) q nunits f = h.size f := by
          intro f member
          refine sizes f (fun isP => others (isP ▸ member)) (old f ?_)
          exact List.mem_cons_of_mem _ (front.mem_iff.2 (List.mem_cons_of_mem _ member))
        refine Tiled.perm ?_ (back.map _)
        rw [List.map_cons, List.map_cons, Heap.map_span_congr same]
        have left : 8 * h.size p - 8 * rest = 8 * nunits := by omega
        simpa [Heap.span, atP, ← isQ, left] using cut
    · exact upd_same _ _ _
    · intro f isLive
      refine sizes f (fun isP => others (isP ▸ ?_)) (old f (by simp [isLive]))
      simp [isLive]

/-- The free list is as it was when only the offers change. -/
theorem Inv.offers (inv : Inv base h F Q) (more : List (Option Nat)) :
    Inv base { h with offers := more } F Q :=
  ⟨inv.cycle, inv.spaced, inv.head, inv.freep, inv.tiled, inv.memory, inv.room⟩

/-- New memory is a live block until it is freed. -/
theorem Inv.grow (inv : Inv base h F Q) {a n : Nat} (aligned : a % 8 = 0) (beyond : h.brk ≤ a)
    (some_ : 0 < n) (more : List (Option Nat)) :
    Inv base { h with
      offers := more
      mem := ⟨a, n * 8⟩ :: h.mem
      brk := a + n * 8
      size := upd h.size a n } F (a :: Q) ∧ ∀ q ∈ base :: (F ++ Q), q ≠ a := by
  have ends : ∀ q ∈ F ++ Q, q + 8 * h.size q ≤ h.brk := by
    intro q isBlock
    exact inv.tiled.end_le (fun r isRegion => (inv.memory r isRegion).2) (List.mem_map_of_mem isBlock)
  have old : ∀ q ∈ base :: (F ++ Q), q ≠ a := by
    intro q member
    have room := inv.room
    rcases List.mem_cons.1 member with rfl | isBlock
    · omega
    · have := ends q isBlock
      have := (inv.block isBlock).1
      omega
  have sizes : ∀ q ∈ base :: (F ++ Q), upd h.size a n q = h.size q :=
    fun q member => upd_ne _ _ (old q member)
  refine ⟨⟨inv.cycle, ?_, ?_, inv.freep, ?_, ?_, ?_⟩, old⟩
  · refine Spaced.congr inv.spaced fun f isFree => sizes f ?_
    simp [isFree]
  · exact (sizes base (by simp)).trans inv.head
  · have grown := inv.tiled.grow (r := ⟨a, n * 8⟩)
      (fun r isRegion => (inv.memory r isRegion).2.trans beyond) (by simp only; omega)
      ⟨Nat.dvd_of_mod_eq_zero aligned, Nat.dvd_mul_left 8 n⟩
    refine Tiled.perm ?_ (List.perm_middle.map _)
    rw [List.map_cons, Heap.map_span_congr (h := h) fun q isBlock => sizes q (by simp [isBlock])]
    simpa [Heap.span, Nat.mul_comm] using grown
  · intro r isRegion
    have room := inv.room
    rcases List.mem_cons.1 isRegion with rfl | isOld
    · exact ⟨by simp only; omega, Nat.le_refl _⟩
    · have := inv.memory r isOld
      simp only
      omega
  · have room := inv.room
    simp only
    omega

/-- **`morecore`** fails and changes nothing, or the free list has a block that is large
enough. -/
theorem morecore_spec (inv : Inv base h F Q) (pos : 0 < base) (fits : nunits * 8 < 4294967296) :
    ∃ h' a, h.morecore nunits = some (h', a) ∧ (∀ q ∈ Q, h'.size q = h.size q) ∧
      ((a = 0 ∧ Inv base h' F Q) ∨
        (a = h'.freep ∧ 0 < a ∧ ∃ F', Inv base h' F' Q ∧ (∃ f ∈ F', nunits ≤ h'.size f) ∧
          h'.rounds = h.rounds + 8 * max nunits 4096)) := by
  obtain ⟨nu, isNu⟩ : ∃ nu, nu = if nunits < 4096 then 4096 else nunits := ⟨_, rfl⟩
  have least : nu = max nunits 4096 := by
    rw [isNu]
    split <;> omega
  have whole : nu * 8 % 4294967296 = nu * 8 := Nat.mod_eq_of_lt (by omega)
  rw [Heap.morecore]
  simp only [← isNu, whole, Heap.sbrk]
  cases offers : h.offers with
  | nil => exact ⟨h, 0, rfl, fun _ _ => rfl, .inl ⟨rfl, inv⟩⟩
  | cons offer rest =>
    cases offer with
    | none => exact ⟨_, 0, rfl, fun _ _ => rfl, .inl ⟨rfl, inv.offers rest⟩⟩
    | some a =>
      by_cases fresh : a % 8 = 0 ∧ h.brk ≤ a ∧ a + nu * 8 < 4294967296
      · simp only [if_pos fresh]
        obtain ⟨grown, old⟩ := inv.grow (n := nu) fresh.1 fresh.2.1 (by omega) rest
        obtain ⟨h', F', freed, inv', sizes, sameMem, -, f, isFree, large⟩ := free_spec grown
        rw [freed]
        refine ⟨h', h'.freep, rfl, ?_, .inr ⟨rfl, ?_, F', inv', ⟨f, isFree, ?_⟩, ?_⟩⟩
        · intro q isLive
          rw [sizes q isLive]
          exact upd_ne _ _ (old q (by simp [isLive]))
        · exact Nat.lt_of_lt_of_le pos (inv'.base_le inv'.freep)
        · simp only [upd_same] at large
          omega
        · simp only [Heap.rounds, sameMem, List.map_cons, List.sum_cons]
          omega
      · simp only [if_neg fresh]
        exact ⟨_, 0, rfl, fun _ _ => rfl, .inl ⟨rfl, inv.offers rest⟩⟩

/-- The loop of `malloc` passes over blocks that are too small. -/
theorem scan_skip {l : List Nat} {z : Nat} (walk : Walk h.ptr prevp l z)
    (small : ∀ y ∈ l, h.size y < nunits) (notLast : h.freep ∉ l) (fuel : Nat) :
    Heap.scan nunits (l.length + fuel) h prevp (h.ptr prevp) =
      Heap.scan nunits fuel h (l.getLastD prevp) z := by
  induction l generalizing prevp with
  | nil =>
    have arrives : h.ptr prevp = z := walk
    simp [arrives]
  | cons y l ih =>
    have tooSmall : ¬ nunits ≤ h.size y := Nat.not_le.2 (small y (by simp))
    have notFreep : y ≠ h.freep := fun same => notLast (by simp [same])
    have onward := ih walk.2 (fun x member => small x (by simp [member]))
      fun member => notLast (by simp [member])
    rw [List.length_cons, Nat.add_right_comm, Heap.scan, walk.1, if_neg tooSmall, if_neg notFreep,
      onward, List.getLastD_cons]

/-- **A round of the loop that finds a block** takes the first one that is large enough. -/
theorem scan_fits (inv : Inv base h F Q) (some_ : 0 < nunits)
    (exists_ : ∃ f ∈ F, nunits ≤ h.size f) (fuel : Nat) (enough : F.length + 1 ≤ fuel) :
    ∃ h' F' q, Heap.scan nunits fuel h h.freep (h.ptr h.freep) = some (h', q + 8) ∧
      Inv base h' F' (q :: Q) ∧ h'.size q = nunits ∧ ∀ f ∈ Q, h'.size f = h.size f := by
  obtain ⟨r, turn, perm⟩ := inv.cycle.rotate inv.freep
  have cells : (r ++ [h.freep]).Perm (base :: F) := (List.perm_append_singleton _ _).trans perm
  -- the first cell of the round that is large enough
  obtain ⟨y, found⟩ : ∃ y, (r ++ [h.freep]).find? (fun z => decide (nunits ≤ h.size z)) = some y := by
    rw [← Option.isSome_iff_exists, List.find?_isSome]
    obtain ⟨f, isFree, large⟩ := exists_
    exact ⟨f, cells.mem_iff.2 (List.mem_cons_of_mem _ isFree), by simpa using large⟩
  obtain ⟨large, l, m, split, small⟩ := List.find?_eq_some_iff_append.1 found
  simp only [decide_eq_true_eq] at large
  simp only [Bool.not_eq_true', decide_eq_false_iff_not, Nat.not_le] at small
  have isCell : ∀ z ∈ l ++ y :: m, z ∈ base :: F := fun z member => cells.mem_iff.1 (split ▸ member)
  have isFree : y ∈ F := by
    rcases List.mem_cons.1 (isCell y (by simp)) with rfl | inside
    · have := inv.head
      omega
    · exact inside
  have walk : Walk h.ptr h.freep l y := turn.reaches split
  have notLast : h.freep ∉ l := by
    intro member
    apply (List.nodup_cons.1 (perm.nodup_iff.2 inv.nodup)).1
    rcases List.append_eq_append_iff.1 split with ⟨between, rfl, rest⟩ | ⟨between, rfl, -⟩
    · cases between with
      | nil => simpa using member
      | cons z between => simp at rest
    · exact List.mem_append_left _ member
  have prevCell : l.getLastD h.freep ∈ base :: F := by
    rcases List.mem_cons.1 (getLastD_mem h.freep l) with same | inside
    · rw [same]
      exact inv.freep
    · exact isCell _ (List.mem_append_left _ inside)
  obtain ⟨h', F', q, taken, inv', sizeQ, sizes⟩ :=
    take_spec inv isFree prevCell walk.arrives large some_
  refine ⟨h', F', q, ?_, inv', sizeQ, sizes⟩
  have short : l.length + 1 ≤ fuel := by
    have lengths := congrArg List.length split
    have counts := perm.length_eq
    simp only [List.length_append, List.length_cons, List.length_nil] at lengths counts
    omega
  obtain ⟨rest, rfl⟩ : ∃ rest, fuel = l.length + (rest + 1) := ⟨fuel - l.length - 1, by omega⟩
  rw [scan_skip walk small notLast, Heap.scan, if_pos large, taken]

/-- **A round that finds none** comes back to `freep` and asks for more memory. -/
theorem scan_none (inv : Inv base h F Q) (some_ : 0 < nunits) (none_ : ∀ f ∈ F, h.size f < nunits)
    (fuel : Nat) :
    Heap.scan nunits (F.length + (fuel + 1)) h h.freep (h.ptr h.freep) =
      match h.morecore nunits with
      | none => none
      | some (h, p) => if p = 0 then some (h, 0) else Heap.scan nunits fuel h p (h.ptr p) := by
  obtain ⟨r, turn, perm⟩ := inv.cycle.rotate inv.freep
  have small : ∀ z ∈ h.freep :: r, h.size z < nunits := by
    intro z member
    rcases List.mem_cons.1 (perm.mem_iff.1 member) with rfl | inside
    · have := inv.head
      omega
    · exact none_ z inside
  have notLast : h.freep ∉ r := (List.nodup_cons.1 (perm.nodup_iff.2 inv.nodup)).1
  have counts : r.length = F.length := by simpa using perm.length_eq
  have skipped := scan_skip turn (fun z member => small z (by simp [member])) notLast (fuel + 1)
  rw [counts] at skipped
  have tooSmall : ¬ nunits ≤ h.size h.freep := Nat.not_le.2 (small _ (by simp))
  rw [skipped, Heap.scan, if_neg tooSmall]
  exact if_pos rfl

/-- The largest request whose units, counted in bytes, are a positive `int`. -/
abbrev MAXBYTES : Nat := 2147483632

/-- **`malloc`** returns null and leaves the blocks as they are, or hands out a new block. -/
theorem malloc_spec {nbytes : Nat} (inv : Inv base h F Q) (pos : 0 < base) (fits : nbytes ≤ MAXBYTES) :
    ∃ h' ap, Heap.malloc base h nbytes = some (h', ap) ∧ (∀ q ∈ Q, h'.size q = h.size q) ∧
      ((ap = 0 ∧ ∃ F', Inv base h' F' Q) ∨
        ∃ F' q, ap = q + 8 ∧ Inv base h' F' (q :: Q) ∧ nbytes + 8 ≤ 8 * h'.size q) := by
  obtain ⟨nunits, isUnits⟩ : ∃ n, n = Heap.units nbytes := ⟨_, rfl⟩
  have bounds : nbytes + 8 ≤ 8 * nunits ∧ nunits * 8 < 4294967296 := by
    simp only [Heap.units, MAXBYTES] at isUnits fits
    omega
  have started : h.init base = h := by
    have := inv.base_le inv.freep
    rw [Heap.init, if_neg (by omega)]
  have rounds := inv.rounds_ge
  rw [Heap.malloc]
  simp only [started, ← isUnits]
  by_cases exists_ : ∃ f ∈ F, nunits ≤ h.size f
  · obtain ⟨h', F', q, scanned, inv', sizeQ, sizes⟩ := scan_fits inv (by omega) exists_
      (2 * h.rounds + 8 * max nunits 4096) (by omega)
    exact ⟨h', q + 8, scanned, sizes, .inr ⟨F', q, rfl, inv', by omega⟩⟩
  · have none_ : ∀ f ∈ F, h.size f < nunits := by
      intro f isFree
      exact Nat.not_le.1 fun large => exists_ ⟨f, isFree, large⟩
    obtain ⟨fuel, isFuel⟩ : ∃ fuel, 2 * h.rounds + 8 * max nunits 4096 = F.length + (fuel + 1) :=
      ⟨2 * h.rounds + 8 * max nunits 4096 - F.length - 1, by omega⟩
    rw [isFuel, scan_none inv (by omega) none_]
    obtain ⟨h1, a, grew, sizes, failed | ⟨isFreep, some_, F1, inv1, large, more⟩⟩ :=
      morecore_spec inv pos bounds.2
    · rw [grew]
      exact ⟨h1, 0, by simp [failed.1], sizes, .inl ⟨rfl, F, failed.2⟩⟩
    · have rounds1 := inv1.rounds_ge
      obtain ⟨h', F', q, scanned, inv', sizeQ, sizes'⟩ :=
        scan_fits inv1 (by omega) large fuel (by omega)
      rw [grew]
      refine ⟨h', q + 8, ?_, ?_, .inr ⟨F', q, rfl, inv', by omega⟩⟩
      · simp only [if_neg some_.ne']
        rw [isFreep]
        exact scanned
      · intro f isLive
        rw [sizes' f isLive, sizes f isLive]

/-- A store inside a block changes no header. -/
theorem Inv.store (inv : Inv base h F Q) {a : Nat} (inside : a ∉ base :: (F ++ Q)) (ptr size : Nat) :
    Inv base { h with ptr := upd h.ptr a ptr, size := upd h.size a size } F Q ∧
      ∀ q ∈ Q, upd h.size a size q = h.size q := by
  have apart : ∀ q ∈ base :: (F ++ Q), q ≠ a := by
    rintro q member rfl
    exact inside member
  have sizes : ∀ q ∈ base :: (F ++ Q), upd h.size a size q = h.size q :=
    fun q member => upd_ne _ _ (apart q member)
  refine ⟨⟨?_, ?_, ?_, inv.freep, ?_, inv.memory, inv.room⟩, fun q isLive => sizes q (by simp [isLive])⟩
  · refine inv.cycle.congr fun y member => upd_ne _ _ (apart y ?_)
    rw [← List.cons_append]
    exact List.mem_append_left _ member
  · exact inv.spaced.congr fun f isFree => sizes f (by simp [isFree])
  · exact (sizes base (by simp)).trans inv.head
  · have spans : (F ++ Q).map ({ h with ptr := upd h.ptr a ptr, size := upd h.size a size } : Heap).span =
        (F ++ Q).map h.span := Heap.map_span_congr fun q isBlock => sizes q (by simp [isBlock])
    rw [spans]
    exact inv.tiled

/-- The first call of `malloc` makes an empty list. -/
theorem init_inv (null : h.freep = 0) (none_ : h.mem = []) (room : base + 8 ≤ h.brk) :
    Inv base (h.init base) [] [] := by
  rw [Heap.init, if_pos null]
  refine ⟨upd_same _ _ _, List.Pairwise.nil, upd_same _ _ _, by simp, ?_, ?_, room⟩
  · refine ⟨by simp, by simp, by simp, List.Pairwise.nil, ?_⟩
    simp [none_]
  · simp [none_]

end Malloc

/-! ## Programs -/

/-- The block behind a pointer that `malloc` returned: its header and what follows. -/
def Heap.block (h : Heap) (ap : Nat) : Span := h.span (ap - 8)

namespace Prog

/-- What holds between two calls: the live blocks are those the program has, and large
enough; before the first call there are none. -/
def Sound (base : Nat) (s : Prog) : Prop :=
  (s.heap.freep = 0 ∧ s.heap.mem = [] ∧ base + 8 ≤ s.heap.brk ∧ s.live = []) ∨
    ∃ F, Inv base s.heap F (s.live.map fun b => b.1 - 8) ∧
      ∀ b ∈ s.live, 8 ≤ b.1 ∧ b.2 + 8 ≤ 8 * s.heap.size (b.1 - 8)

variable {base : Nat} {s : Prog}

theorem sound_start (base : Nat) (ptr size : Nat → Nat) : (start base ptr size).Sound base :=
  .inl ⟨rfl, rfl, Nat.le_refl _, rfl⟩

/-- A call of `malloc`, from any sound state. -/
theorem sound_malloc {nbytes : Nat} (sound : s.Sound base) (pos : 0 < base) (fits : nbytes ≤ MAXBYTES)
    (offers : List (Option Nat)) :
    ∃ h ap, Heap.malloc base { s.heap with offers := offers } nbytes = some (h, ap) ∧
      (ap = 0 → Sound base ⟨h, s.live⟩) ∧ (ap ≠ 0 → Sound base ⟨h, (ap, nbytes) :: s.live⟩) := by
  -- the first call sees the empty list that it makes
  obtain ⟨h0, F, same, inv, sized⟩ : ∃ h0 F,
      Heap.malloc base { s.heap with offers := offers } nbytes = Heap.malloc base h0 nbytes ∧
      Inv base h0 F (s.live.map fun b => b.1 - 8) ∧
      ∀ b ∈ s.live, 8 ≤ b.1 ∧ b.2 + 8 ≤ 8 * h0.size (b.1 - 8) := by
    rcases sound with ⟨null, none_, room, noLive⟩ | ⟨F, inv, sized⟩
    · have inv := init_inv (h := { s.heap with offers := offers }) null none_ room
      refine ⟨_, [], ?_, by rw [noLive]; exact inv, by simp [noLive]⟩
      have again : ∀ h : Heap, h.freep ≠ 0 → h.init base = h := fun h some_ => if_neg some_
      have started := Nat.lt_of_lt_of_le pos (inv.base_le inv.freep)
      simp only [Heap.malloc, again _ started.ne']
    · exact ⟨_, F, rfl, inv.offers offers, sized⟩
  obtain ⟨h, ap, result, sizes, ⟨null, F', inv'⟩ | ⟨F', q, isAp, inv', large⟩⟩ :=
    malloc_spec inv pos fits
  · have kept : ∀ b ∈ s.live, 8 ≤ b.1 ∧ b.2 + 8 ≤ 8 * h.size (b.1 - 8) := by
      intro b isLive
      rw [sizes _ (List.mem_map_of_mem isLive)]
      exact sized b isLive
    exact ⟨h, ap, same.trans result, fun _ => .inr ⟨F', inv', kept⟩, fun some_ => absurd null some_⟩
  · refine ⟨h, ap, same.trans result, fun null => by omega, fun _ => .inr ⟨F', ?_, ?_⟩⟩
    · simpa [isAp] using inv'
    · intro b isLive
      rcases List.mem_cons.1 isLive with rfl | old
      · simp only [isAp, Nat.add_sub_cancel]
        omega
      · rw [sizes _ (List.mem_map_of_mem old)]
        exact sized b old

/-- A call of `free` on a live block. -/
theorem sound_free {ap : Nat} (sound : s.Sound base) (isLive : ap ∈ s.live.map Prod.fst) :
    ∃ h, s.heap.free ap = some h ∧ Sound base ⟨h, s.live.filter fun b => b.1 ≠ ap⟩ := by
  rcases sound with ⟨-, -, -, noLive⟩ | ⟨F, inv, sized⟩
  · simp [noLive] at isLive
  obtain ⟨b, member, rfl⟩ := List.mem_map.1 isLive
  obtain ⟨before, after, split⟩ := List.append_of_mem member
  have front : (b :: (before ++ after)).Perm s.live := split ▸ List.perm_middle.symm
  have inv := inv.perm (front.map fun b => b.1 - 8)
  have headers : b.1 - 8 ∉ (before ++ after).map fun b => b.1 - 8 :=
    (List.nodup_cons.1 (List.nodup_append.1 inv.distinct).2.1).1
  have others : ∀ c ∈ before ++ after, c.1 ≠ b.1 := by
    intro c isOther same
    exact headers (same ▸ List.mem_map_of_mem isOther)
  have left : s.live.filter (fun c => c.1 ≠ b.1) = before ++ after := by
    rw [split, List.filter_append, List.filter_cons_of_neg (by simp), ← List.filter_append]
    exact List.filter_eq_self.2 fun c isOther => by simpa using others c isOther
  have isPtr := (sized b member).1
  obtain ⟨h, F', freed, inv', sizes, -⟩ := free_spec inv
  rw [Nat.sub_add_cancel isPtr] at freed
  refine ⟨h, freed, .inr ⟨F', ?_, ?_⟩⟩
  · simpa only [left] using inv'
  · intro c isOther
    simp only [left] at isOther
    have old : c ∈ s.live := front.mem_iff.1 (List.mem_cons_of_mem _ isOther)
    rw [sizes _ (List.mem_map_of_mem isOther)]
    exact sized c old

/-- A store of the program into a block of its own. -/
theorem sound_store {a : Nat} (sound : s.Sound base) (owns : s.Owns a) (ptr size : Nat) :
    Sound base { s with heap :=
      { s.heap with ptr := upd s.heap.ptr a ptr, size := upd s.heap.size a size } } := by
  obtain ⟨-, b, member, low, high⟩ := owns
  rcases sound with ⟨-, -, -, noLive⟩ | ⟨F, inv, sized⟩
  · simp [noLive] at member
  have large := sized b member
  have isBlock : b.1 - 8 ∈ F ++ s.live.map fun b => b.1 - 8 :=
    List.mem_append_right _ (List.mem_map_of_mem member)
  have inside := inv.interior (a := a) isBlock (by omega) (by omega)
  obtain ⟨inv', sizes⟩ := inv.store inside ptr size
  refine .inr ⟨F, inv', fun c isLive => ?_⟩
  simp only
  rw [sizes _ (List.mem_map_of_mem isLive)]
  exact sized c isLive

/-- **A step** keeps the state sound, and its loops end. -/
theorem sound_step (pos : 0 < base) {op : Op} {s' : Prog} {seen : List Obs} (sound : s.Sound base)
    (stepped : step base s op = some (s', seen)) : s'.Sound base ∧ Obs.loops ∉ seen := by
  cases op with
  | malloc nbytes offers =>
    by_cases fits : nbytes ≤ UADDRSZ
    · obtain ⟨h, ap, result, onNull, onBlock⟩ :=
        sound_malloc sound pos (fits.trans (by decide)) offers
      by_cases null : ap = 0
      · simp only [step, if_pos fits, result, if_pos null, Option.some.injEq, Prod.mk.injEq]
          at stepped
        obtain ⟨rfl, rfl⟩ := stepped
        exact ⟨onNull null, by simp⟩
      · simp only [step, if_pos fits, result, if_neg null, Option.some.injEq, Prod.mk.injEq]
          at stepped
        obtain ⟨rfl, rfl⟩ := stepped
        exact ⟨onBlock null, by simp⟩
    · simp [step, fits] at stepped
  | free ap =>
    by_cases isLive : ap ∈ s.live.map Prod.fst
    · obtain ⟨h, freed, sound'⟩ := sound_free sound isLive
      simp only [step, if_pos isLive, freed, Option.some.injEq, Prod.mk.injEq] at stepped
      obtain ⟨rfl, rfl⟩ := stepped
      exact ⟨sound', by simp⟩
    · simp only [step, if_neg isLive] at stepped
      cases stepped
  | store a ptr size =>
    by_cases owns : s.Owns a
    · simp only [step, if_pos owns, Option.some.injEq, Prod.mk.injEq] at stepped
      obtain ⟨rfl, rfl⟩ := stepped
      exact ⟨sound_store sound owns ptr size, by simp⟩
    · simp only [step, if_neg owns] at stepped
      cases stepped

/-- What the allocator promises: about the live blocks, about the free list, and that no
memory is lost. -/
structure Good (base : Nat) (s : Prog) (F : List Nat) : Prop where
  disjoint : s.live.Pairwise fun b c => (s.heap.block b.1).Apart (s.heap.block c.1)
  inside : ∀ b ∈ s.live, ∀ x, (s.heap.block b.1).Has x → ∃ r ∈ s.heap.mem, r.Has x
  aligned : ∀ b ∈ s.live, 8 ∣ b.1
  /-- the block has its header and `nbytes` bytes after it -/
  large : ∀ b ∈ s.live, b.1 = (s.heap.block b.1).start + 8 ∧
    b.2 + 8 ≤ (s.heap.block b.1).len
  circular : s.heap.freep ≠ 0 → Walk s.heap.ptr base F base ∧ s.heap.freep ∈ base :: F
  increasing : (base :: F).Pairwise (· < ·)
  apart : ∀ f ∈ F, ∀ b ∈ s.live, (s.heap.span f).Apart (s.heap.block b.1)
  coalesced : ∀ f ∈ F, ∀ g ∈ F, f + 8 * s.heap.size f ≠ g
  conserved : 8 * ((F.map s.heap.size).sum + (s.live.map fun b => s.heap.size (b.1 - 8)).sum) =
    (s.heap.mem.map Span.len).sum

theorem sum_spans (h : Heap) (l : List Nat) :
    ((l.map h.span).map Span.len).sum = 8 * (l.map h.size).sum := by
  induction l with
  | nil => rfl
  | cons f l ih =>
    simp only [List.map_cons, List.sum_cons, ih, Heap.span]
    omega

theorem Sound.good (sound : s.Sound base) : ∃ F, s.Good base F := by
  rcases sound with ⟨null, none_, -, noLive⟩ | ⟨F, inv, sized⟩
  · refine ⟨[], ?_⟩
    constructor <;> simp [none_, noLive, null]
  have isBlock : ∀ b ∈ s.live, b.1 - 8 ∈ F ++ s.live.map fun b => b.1 - 8 :=
    fun b member => List.mem_append_right _ (List.mem_map_of_mem member)
  refine ⟨F, ?_, ?_, ?_, ?_, fun _ => ⟨inv.cycle, inv.freep⟩, ?_, ?_, ?_, ?_⟩
  · have apart := inv.tiled.apart
    rw [List.map_append, List.map_map] at apart
    exact List.pairwise_map.1 (List.pairwise_append.1 apart).2.1
  · intro b member
    exact inv.tiled.inside _ (List.mem_map_of_mem (isBlock b member))
  · intro b member
    have aligned : 8 ∣ b.1 - 8 := (inv.tiled.aligned _ (List.mem_map_of_mem (isBlock b member))).1
    have isPtr := (sized b member).1
    omega
  · intro b member
    have large := sized b member
    simp only [Heap.block, Heap.span]
    omega
  · refine List.pairwise_cons.2 ⟨fun f isFree => ?_, List.Pairwise.imp ?_ inv.spaced⟩
    · have := (inv.free_block isFree).2
      omega
    · intro a b less
      omega
  · intro f isFree b member
    refine inv.apart (List.mem_append_left _ isFree) (isBlock b member) ?_
    exact (List.nodup_append.1 inv.distinct).2.2 f isFree _ (List.mem_map_of_mem member)
  · intro f isFree g isFree' touch
    have some_ := (inv.free_block isFree).1
    have gap := inv.spaced.gap isFree isFree' (by omega)
    omega
  · have total := inv.tiled.total
    rw [sum_spans, List.map_append, List.sum_append, List.map_map] at total
    exact total

end Prog

/-- **The allocator's invariant.**  In every run of calls and stores, whatever `sbrk` answers:
the loops end, live blocks are disjoint, aligned, large enough and in memory from `sbrk`, the
free list goes round through `base` in increasing order, has no adjacent blocks and none that
touch live ones, and free and live blocks make up all the memory. -/
theorem heap_invariant {base : Nat} (pos : 0 < base) {ptr size : Nat → Nat} {ops : List Op} {s : Prog}
    {seen : List Obs} (ran : Machine.run (Prog.step base) (Prog.start base ptr size) ops = some (s, seen)) :
    Obs.loops ∉ seen ∧ ∃ F, s.Good base F := by
  have holds := Machine.run_keeps (I := fun seen s => Obs.loops ∉ seen ∧ s.Sound base)
    (fun seen s op s' more holds stepped => by
      obtain ⟨sound, ends⟩ := Prog.sound_step pos holds.2 stepped
      exact ⟨by simp [holds.1, ends], sound⟩)
    ops [] _ s seen ⟨by simp, Prog.sound_start base ptr size⟩ ran
  exact ⟨by simpa using holds.1, holds.2.good⟩

/-- Two blocks from one piece of memory, the first freed and taken again in part; a request
that `sbrk` refuses; and everything given back. -/
theorem heap_invariant_session :
    ∃ s seen, Machine.run (Prog.step 4088) (Prog.start 4088 (fun _ => 7) (fun _ => 7))
        [.malloc 100 [some 8192], .malloc 20 [], .free 40856, .store 40824 1 2, .malloc 3 [],
          .malloc 40000 [none], .malloc 40000 [some 49152], .free 40824, .free 40952,
          .free 49160] = some (s, seen) ∧
      seen = [.returned 40856, .returned 40824, .returned 40952, .null, .returned 49160] ∧
      Obs.loops ∉ seen ∧ ∃ F, s.Good 4088 F := by
  have shown : (Machine.run (Prog.step 4088) (Prog.start 4088 (fun _ => 7) (fun _ => 7))
      [.malloc 100 [some 8192], .malloc 20 [], .free 40856, .store 40824 1 2, .malloc 3 [],
        .malloc 40000 [none], .malloc 40000 [some 49152], .free 40824, .free 40952,
        .free 49160]).map Prod.snd =
      some [.returned 40856, .returned 40824, .returned 40952, .null, .returned 49160] := by
    decide +kernel
  obtain ⟨⟨s, seen⟩, ran, rfl⟩ := Option.map_eq_some_iff.1 shown
  exact ⟨s, _, ran, rfl, heap_invariant (by decide) ran⟩

end Xv6Rpi.User.Umalloc
