/-
# Proc.VmCopy -- bytes through page tables

What `copyout` does to the bytes a user sees.  What a user sees at an address is `VMem.user`; a
copy puts a list of bytes there (`placed`), page by page, and changes nothing else in any page.

`copyuvm` makes an address space with the same bytes in it, on pages of its own.  From then on
neither of the two can change what the other one sees: of any sequence of stores and copies
through both, one side sees only its own (`isolated`).
-/
import Xv6Rpi.Proc.VmWhole

namespace Xv6Rpi.Proc.Vm

open Theory
open Kernel (Client Kmem upd upd_same upd_ne KERNBASE)

set_option autoImplicit false

/-! ## `copyout` -/

section Placed

variable {f g : Nat → BitVec 8} {a x : Nat} {data : List (BitVec 8)}

theorem placed_nil (f : Nat → BitVec 8) (a : Nat) : placed f a [] = f := by
  funext x
  simp [placed]

theorem placed_outside (outside : ¬ (a ≤ x ∧ x < a + data.length)) : placed f a data x = f x := by
  unfold placed
  split
  case isTrue after =>
    rw [List.getElem?_eq_none (by omega), Option.getD_none]
  case isFalse => rfl

theorem placed_inside {i : Nat} (inside : i < data.length) : placed f a data (a + i) = data[i] := by
  unfold placed
  rw [if_pos (Nat.le_add_right a i), Nat.add_sub_cancel_left, List.getElem?_eq_getElem inside,
    Option.getD_some]

theorem placed_singleton (f : Nat → BitVec 8) (a : Nat) (b : BitVec 8) :
    placed f a [b] = upd f a b := by
  funext x
  by_cases here : x = a
  · rw [here, upd_same]
    simp [placed]
  · rw [upd_ne _ _ here, placed_outside]
    simp only [List.length_singleton]
    omega

/-- A copy in two pieces. -/
theorem placed_append (f : Nat → BitVec 8) (a : Nat) (first second : List (BitVec 8)) :
    placed (placed f a first) (a + first.length) second = placed f a (first ++ second) := by
  funext x
  unfold placed
  by_cases after : a + first.length ≤ x
  · rw [if_pos after, if_pos (by omega), if_pos (by omega), List.getElem?_append_right (by omega),
      List.getElem?_eq_none (by omega : first.length ≤ x - a), Option.getD_none]
    congr 2
    omega
  · rw [if_neg after]
    by_cases inside : a ≤ x
    · rw [if_pos inside, if_pos inside, List.getElem?_append_left (by omega)]
    · rw [if_neg inside, if_neg inside]

/-- Only the values at the address in question count. -/
theorem placed_congr (same : f x = g x) : placed f a data x = placed g a data x := by
  simp only [placed, same]

end Placed

/-! ## Pages of one directory -/

section Copyout

variable {S : Setup} {R : Set (Nat × Nat)} {m : VMem} {d k : Nat} {may : VmPanic → Prop}

/-- The user may use page `k`. -/
def UserPage (w : Words) (d k : Nat) : Prop :=
  entry w d k ≠ 0 ∧ pteAp (entry w d k) = AP_KU

instance (w : Words) (d k : Nat) : Decidable (UserPage w d k) :=
  inferInstanceAs (Decidable (_ ∧ _))

theorem uva2ka_page (nonzero : d ≠ 0) (small : k < 65536) : uva2ka d (PTE_SZ * k) m =
    if tableAt m.words d (k / 256) = 0 then .fail .null m
    else .done (if UserPage m.words d k then pageAt m.words d k else 0) m := by
  unfold uva2ka
  rw [Act.bind_apply, walkpgdir_look nonzero small, Outcome.done_bind]
  by_cases none_ : tableAt m.words d (k / 256) = 0
  · rw [if_pos none_, if_pos none_]
    rfl
  · rw [if_neg none_, if_neg none_]
    simp only [Act.bind_apply, word_apply, Outcome.done_bind]
    by_cases on : present (m.words (tableAt m.words d (k / 256)) (k % 256)) = true
    · have isEntry : entry m.words d k = m.words (tableAt m.words d (k / 256)) (k % 256) := by
        rw [entry_eq rfl none_, if_pos on]
      have some_ : entry m.words d k ≠ 0 := isEntry ▸ present_ne_zero on
      by_cases user : pteAp (entry m.words d k) = AP_KU
      · rw [if_pos ⟨on, isEntry ▸ user⟩, if_pos ⟨some_, user⟩, pageAt, if_neg some_, isEntry]
        rfl
      · rw [if_neg fun both => user (isEntry ▸ both.2), if_neg fun both => user both.2]
        rfl
    · have empty : entry m.words d k = 0 := by
        rw [entry_eq rfl none_, if_neg on]
      rw [if_neg fun both => on both.1, if_neg fun both => both.1 empty]
      rfl

/-- Past the end of the directory. -/
theorem walkpgdir_past (past : 65536 ≤ k) (alloc : Bool) :
    walkpgdir d (PTE_SZ * k) alloc m = .fail .overrun m := by
  have outside : NUM_UPDE ≤ k / 256 := by
    show 256 ≤ k / 256
    omega
  unfold walkpgdir
  simp only [PDE_IDX_page, Act.bind_apply, decide_eq_true outside, Act.failIf_true,
    Outcome.fail_bind]

theorem uva2ka_past (past : 65536 ≤ k) : uva2ka d (PTE_SZ * k) m = .fail .overrun m := by
  unfold uva2ka
  rw [Act.bind_apply, walkpgdir_past past, Outcome.fail_bind]

theorem Held.page_aligned (held : Held S d R m) (some_ : entry m.words d k ≠ 0) :
    pageAt m.words d k % 4096 = 0 :=
  held.memory.page_aligned (held.named (x := .page k) (mt pageAt_eq_zero_iff.1 some_)).1 rfl

/-- Bytes put into a page show at its user addresses. -/
theorem Held.user_placed (held : Held S d R m) (off : Nat) {data : List (BitVec 8)}
    (some_ : entry m.words d k ≠ 0) (fits : off + data.length ≤ PTE_SZ) {va : Nat}
    (mapped : entry m.words d (va / PTE_SZ) ≠ 0) :
    VMem.user { m with bytes := placed m.bytes (pageAt m.words d k + off) data } d va =
      placed (m.user d) (PTE_SZ * k + off) data va := by
  have fits : off + data.length ≤ 4096 := fits
  have aligned := held.page_aligned some_
  have aligned' := held.page_aligned mapped
  show placed m.bytes (pageAt m.words d k + off) data (pageAt m.words d (va / 4096) + va % 4096) =
    placed (m.user d) (4096 * k + off) data va
  by_cases here : va / 4096 = k
  · subst here
    unfold placed
    by_cases after : off ≤ va % 4096
    · rw [if_pos (by omega), if_pos (by omega)]
      have same : pageAt m.words d (va / 4096) + va % 4096 - (pageAt m.words d (va / 4096) + off) =
          va - (4096 * (va / 4096) + off) := by omega
      rw [same]
      rfl
    · rw [if_neg (by omega), if_neg (by omega)]
      rfl
  · have apart : pageAt m.words d (va / 4096) ≠ pageAt m.words d k := by
      intro same
      have place := held.part_eq (x := .page (va / 4096)) (y := .page k)
        (mt pageAt_eq_zero_iff.1 mapped) same rfl
      exact here (Part.page.inj place)
    have aligned' : pageAt m.words d (va / 4096) % 4096 = 0 := aligned'
    rw [placed_outside (by omega), placed_outside (by omega)]
    rfl

/-- Bytes put into a page change no other page. -/
theorem Held.keeps_placed (held : Held S d R m) (off : Nat) {data : List (BitVec 8)}
    (some_ : entry m.words d k ≠ 0) (fits : off + data.length ≤ PTE_SZ) {a : Nat}
    (other : (a, PTE_SHIFT) ∈ R) {i : Nat} (small : i < PTE_SZ) :
    placed m.bytes (pageAt m.words d k + off) data (a + i) = m.bytes (a + i) := by
  have fits : off + data.length ≤ 4096 := fits
  have small : i < 4096 := small
  have aligned := held.page_aligned some_
  have aligned' : a % 4096 = 0 := held.memory.page_aligned (held.owns.loose_used _ other) rfl
  have apart : a ≠ pageAt m.words d k := by
    rintro rfl
    exact (held.named (x := .page k) (mt pageAt_eq_zero_iff.1 some_)).2 other
  apply placed_outside
  omega

/-- New bytes in pages of the directory: the memory is as sound as before. -/
theorem Held.rebyte (held : Held S d R m) (b : Nat → BitVec 8) : Held S d R { m with bytes := b } :=
  ⟨held.nonzero, held.memory.congr rfl rfl rfl rfl, held.owns, held.few⟩

/-- The pages that `len` bytes from `va` on touch are all the user's. -/
def Writable (w : Words) (d va len : Nat) : Prop :=
  ∀ k, va < PTE_SZ * (k + 1) → PTE_SZ * k < va + len → UserPage w d k

/-- What `copyout` comes to where there are page tables: it copies all of `data`, or it stops
at a page that is not the user's, having changed only pages of the directory. -/
structure CopiedOut (R : Set (Nat × Nat)) (d va : Nat) (data : List (BitVec 8)) (m : VMem) (ok : Bool)
    (b : Nat → BitVec 8) : Prop where
  done : ok = true ↔ (data = [] ∨ Writable m.words d va data.length)
  user : ok = true → ∀ a, entry m.words d (a / PTE_SZ) ≠ 0 →
    VMem.user { m with bytes := b } d a = placed (m.user d) va data a
  others : ∀ a, (a, PTE_SHIFT) ∈ R → ∀ i < PTE_SZ, b (a + i) = m.bytes (a + i)

theorem Held.copyoutLoop {n : Nat} (few : n ≤ 65536) :
    ∀ (fuel va : Nat) (data : List (BitVec 8)) (m : VMem), Held S d R m → Reaches m.words d n →
      data.length ≤ fuel → va + data.length ≤ PTE_SZ * n →
      ∃ ok b, Vm.copyoutLoop d fuel va data m = .done ok { m with bytes := b } ∧
        CopiedOut R d va data m ok b := by
  have nothing : ∀ (va : Nat) (m : VMem), CopiedOut R d va [] m true m.bytes := fun va m =>
    ⟨iff_of_true rfl (Or.inl rfl), fun _ a _ => by rw [placed_nil], fun _ _ _ _ => rfl⟩
  intro fuel
  induction fuel with
  | zero =>
    intro va data m held reaches enough fits
    obtain rfl : data = [] := List.length_eq_zero_iff.1 (Nat.le_zero.1 enough)
    exact ⟨true, m.bytes, rfl, nothing va m⟩
  | succ fuel ih =>
    intro va data m held reaches enough fits
    have fits : va + data.length ≤ 4096 * n := fits
    cases isData : data with
    | nil => exact ⟨true, m.bytes, rfl, nothing va m⟩
    | cons head tail =>
      rw [← isData]
      have long : 0 < data.length := by simp [isData]
      have notEmpty : data.isEmpty = false := by simp [isData]
      have small : va / 4096 < 65536 := by omega
      have table : tableAt m.words d (va / 4096 / 256) ≠ 0 := reaches _ (by omega)
      have start : va / PTE_SZ * PTE_SZ = PTE_SZ * (va / 4096) := Nat.mul_comm _ _
      have offset : va - PTE_SZ * (va / 4096) = va % 4096 := by
        show va - 4096 * (va / 4096) = va % 4096
        omega
      have next : (PTE_SZ * (va / 4096) + PTE_SZ) % UINTS = 4096 * (va / 4096 + 1) := by
        show (4096 * (va / 4096) + 4096) % 4294967296 = _
        omega
      rw [Vm.copyoutLoop, notEmpty, if_neg Bool.false_ne_true]
      simp only [start, offset, next, Act.bind_apply, uva2ka_page held.nonzero small, if_neg table,
        Outcome.done_bind]
      by_cases user : UserPage m.words d (va / 4096)
      · have address : pageAt m.words d (va / 4096) ≠ 0 := mt pageAt_eq_zero_iff.1 user.1
        rw [if_pos user, if_neg address]
        simp only [Act.bind_apply, putBytes, Act.modify_apply, Outcome.done_bind]
        generalize isN : min (PTE_SZ - va % 4096) data.length = c
        have isN : min (4096 - va % 4096) data.length = c := isN
        have inPage : va % 4096 + (data.take c).length ≤ PTE_SZ := by
          show va % 4096 + (data.take c).length ≤ 4096
          rw [List.length_take]
          omega
        have taken : (data.take c).length = c := by
          rw [List.length_take]
          omega
        have pieces : data.take c ++ data.drop c = data := List.take_append_drop c data
        have rest : (data.drop c).length = data.length - c := List.length_drop
        -- the next round starts where this one stops, or there is none
        have goesOn : 4096 * (va / 4096 + 1) = va + c ∨ data.drop c = [] := by
          by_cases whole : data.length ≤ c
          · exact Or.inr (List.drop_of_length_le whole)
          · exact Or.inl (by omega)
        have fits' : 4096 * (va / 4096 + 1) + (data.drop c).length ≤ PTE_SZ * n := by
          show _ ≤ 4096 * n
          rw [rest]
          omega
        obtain ⟨ok, b, run, copied⟩ := ih (4096 * (va / 4096 + 1)) (data.drop c) _
          (held.rebyte (placed m.bytes (pageAt m.words d (va / 4096) + va % 4096) (data.take c)))
          reaches (by omega) fits'
        refine ⟨ok, b, run, ?_, ?_, ?_⟩
        · rw [copied.done]
          constructor
          · rintro done
            refine Or.inr fun k after before => ?_
            have after : va < 4096 * (k + 1) := after
            have before : 4096 * k < va + data.length := before
            by_cases here : k = va / 4096
            · exact here ▸ user
            · rcases done with empty | writable
              · have none_ : data.length - c = 0 := by rw [← rest, empty]; rfl
                omega
              · refine writable k ?_ ?_
                · show 4096 * (va / 4096 + 1) < 4096 * (k + 1)
                  omega
                · show 4096 * k < 4096 * (va / 4096 + 1) + (data.drop c).length
                  rw [rest]
                  omega
          · rintro (empty | writable)
            · rw [empty] at long
              cases long
            · refine Or.inr fun k after before => ?_
              have after : 4096 * (va / 4096 + 1) < 4096 * (k + 1) := after
              have before : 4096 * k < 4096 * (va / 4096 + 1) + (data.drop c).length := before
              rw [rest] at before
              refine writable k ?_ ?_
              · show va < 4096 * (k + 1)
                omega
              · show 4096 * k < va + data.length
                omega
        · intro isOk a mapped
          refine (copied.user isOk a mapped).trans ?_
          have first := held.user_placed _ user.1 inPage mapped
          rw [show PTE_SZ * (va / 4096) + va % 4096 = va from Nat.div_add_mod va 4096] at first
          rw [placed_congr first]
          have joined := congrFun (placed_append (m.user d) va (data.take c) (data.drop c)) a
          rw [pieces, taken] at joined
          rcases goesOn with same | empty
          · rw [same]
            exact joined
          · rw [empty, placed_nil] at joined ⊢
            exact joined
        · intro a other i inside
          rw [copied.others a other i inside]
          exact held.keeps_placed _ user.1 inPage other inside
      · rw [if_neg user]
        refine ⟨false, m.bytes, rfl, ?_, fun never => (nomatch never), fun _ _ _ _ => rfl⟩
        refine iff_of_false Bool.false_ne_true ?_
        rintro (empty | writable)
        · rw [empty] at long
          cases long
        · refine user (writable (va / 4096) ?_ ?_)
          · show va < 4096 * (va / 4096 + 1)
            omega
          · show 4096 * (va / 4096) < va + data.length
            omega

/-- **`copyout` where there are page tables.** -/
theorem Held.copyout {n : Nat} (held : Held S d R m) (few : n ≤ 65536)
    (reaches : Reaches m.words d n) {va : Nat} {data : List (BitVec 8)}
    (fits : va + data.length ≤ PTE_SZ * n) :
    ∃ ok b, Vm.copyout d va data m = .done ok { m with bytes := b } ∧
      CopiedOut R d va data m ok b :=
  Held.copyoutLoop few data.length va data m held reaches le_rfl fits

end Copyout

/-! ## `copyuvm` -/

section Copy

variable {S : Setup} {R : Set (Nat × Nat)} {m : VMem} {d k : Nat} {may : VmPanic → Prop}

/-- An address space beside a new one. -/
theorem Held.beside {m' : VMem} {q : Nat} {Q : Set (Nat × Nat)} (other : Held S q Q m)
    (held : Held S d m.outstanding m') (keeps : KeepsTables m m') :
    Held S q (Q ∪ blocksOf m'.words d) m' := by
  obtain ⟨tables, entries⟩ := other.same_spaces keeps
  have grows : m.outstanding ⊆ m'.outstanding := held.owns.loose_used
  have owns : Owns (Part.block m.words q) m'.outstanding (Q ∪ blocksOf m'.words d) := by
    refine ⟨fun x some_ => ?_, other.owns.once, fun b out => ?_, fun b inside => ?_,
      held.owns.nonzero⟩
    · obtain ⟨out, tight⟩ := other.owns.named x some_
      refine ⟨grows out, fun inside => inside.elim tight ?_⟩
      rintro ⟨y, there, same⟩
      exact (held.named there).2 (same ▸ out)
    · rw [held.outstanding_eq] at out
      rcases out with old | new
      · exact (other.owns.onto b old).imp_left Or.inl
      · exact Or.inl (Or.inr new)
    · rcases inside with rest | ⟨y, there, rfl⟩
      · exact grows (other.owns.loose_used b rest)
      · exact (held.named there).1
  refine ⟨other.nonzero, held.memory, owns.congr fun x => Part.block_congr ?_, fun i some_ => ?_⟩
  · cases x with
    | dir => rfl
    | table i => exact tables i
    | page k => simp only [Part.address, pageAt, entries]
  · exact other.few i (tables i ▸ some_)

/-- An address space when others have gone. -/
theorem Held.shrink {m' : VMem} {Q : Set (Nat × Nat)} (held : Held S d R m) (fewer : Q ⊆ R)
    (memory : Kept S nowhere (Q ∪ blocksOf m.words d) m')
    (mine : ∀ u, (u, PT_ORDER) ∈ blocksOf m.words d → m'.words u = m.words u) :
    Held S d Q m' ∧ (∀ i, tableAt m'.words d i = tableAt m.words d i) ∧
      ∀ k, entry m'.words d k = entry m.words d k := by
  obtain ⟨tables, entries⟩ := spaces_of_words (mine d ⟨.dir, held.nonzero, rfl⟩)
    fun i some_ => mine _ ⟨.table i, some_, rfl⟩
  have out := memory.outstanding_eq
  have owns : Owns (Part.block m.words d) m'.outstanding Q := by
    rw [out]
    refine ⟨fun x some_ => ?_, held.owns.once, fun b inside => ?_, fun _ => Or.inl, fun b inside => ?_⟩
    · have there := mt Part.block_eq_zero_iff.2 some_
      refine ⟨Or.inr ⟨x, there, Part.block_of_ne there⟩, fun inside => ?_⟩
      exact (held.owns.named x some_).2 (fewer inside)
    · refine inside.imp_right ?_
      rintro ⟨x, there, rfl⟩
      exact ⟨x, Part.block_of_ne there⟩
    · exact memory.owns.nonzero b (out ▸ inside)
  refine ⟨⟨held.nonzero, by rwa [out], owns.congr fun x => Part.block_congr ?_, fun i some_ => ?_⟩,
    tables, entries⟩
  · cases x with
    | dir => rfl
    | table i => exact tables i
    | page k => simp only [Part.address, pageAt, entries]
  · exact held.few i (tables i ▸ some_)

end Copy

/-! ## Writes through two address spaces -/

/-- A write through an address space: a store of the user, or `copyout`. -/
inductive Access where
  | store (va : Nat) (b : BitVec 8)
  | copyout (va : Nat) (data : List (BitVec 8))

/-- The memory after a write.  A store outside the user's pages faults and changes nothing. -/
def Access.through (d : Nat) : Access → VMem → VMem
  | .store va b, m =>
    if UserPage m.words d (va / PTE_SZ) then
      { m with bytes := upd m.bytes (pageAt m.words d (va / PTE_SZ) + va % PTE_SZ) b }
    else m
  | .copyout va data, m => (Vm.copyout d va data m).final

/-- The memory after writes through the directories `side true` and `side false`. -/
def writes (side : Bool → Nat) : List (Bool × Access) → VMem → VMem
  | [], m => m
  | (c, a) :: rest, m => writes side rest (a.through (side c) m)

section Isolation

variable {w : Words} {d : Nat}

/-- The address lies in a page of the directory. -/
def InPages (w : Words) (d x : Nat) : Prop :=
  ∃ k, entry w d k ≠ 0 ∧ pageAt w d k ≤ x ∧ x < pageAt w d k + PTE_SZ

/-- New bytes at some addresses. -/
def patched (f : Nat → BitVec 8) (p : Nat → Option (BitVec 8)) : Nat → BitVec 8 := fun x =>
  (p x).getD (f x)

/-- Code that, whatever the bytes are, puts the same bytes at the same places of the pages of
the directory. -/
def Patches (w : Words) (d : Nat) (f : VMem → VMem) : Prop :=
  ∃ p, (∀ x, p x ≠ none → InPages w d x) ∧
    ∀ m, m.words = w → f m = { m with bytes := patched m.bytes p }

theorem Patches.nothing {f : VMem → VMem} (same : ∀ m, m.words = w → f m = m) : Patches w d f :=
  ⟨fun _ => none, fun _ never => absurd rfl never, same⟩

theorem Patches.comp {f g : VMem → VMem} (first : Patches w d f) (second : Patches w d g) :
    Patches w d fun m => g (f m) := by
  obtain ⟨p, inside, isF⟩ := first
  obtain ⟨p', inside', isG⟩ := second
  refine ⟨fun x => (p' x).or (p x), fun x some_ => ?_, fun m words => ?_⟩
  · cases here : p' x with
    | some b => exact inside' x (by simp [here])
    | none => exact inside x (by simpa [here] using some_)
  · have words' : ({ m with bytes := patched m.bytes p } : VMem).words = w := words
    have joined : patched (patched m.bytes p) p' = patched m.bytes fun x => (p' x).or (p x) := by
      funext x
      simp only [patched]
      cases p' x <;> rfl
    dsimp only
    rw [isF m words, isG _ words', joined]

/-- Bytes put into one page. -/
theorem patches_placed {k off : Nat} {data : List (BitVec 8)} (some_ : entry w d k ≠ 0)
    (fits : off + data.length ≤ PTE_SZ) :
    Patches w d fun m => { m with bytes := placed m.bytes (pageAt w d k + off) data } := by
  have fits : off + data.length ≤ 4096 := fits
  refine ⟨fun x => if pageAt w d k + off ≤ x then data[x - (pageAt w d k + off)]? else none,
    fun x here => ?_, fun m _ => ?_⟩
  · dsimp only at here
    split at here
    case isTrue after =>
      have inside : x - (pageAt w d k + off) < data.length := by
        by_contra past
        exact here (List.getElem?_eq_none (Nat.not_lt.1 past))
      refine ⟨k, some_, by omega, ?_⟩
      show x < pageAt w d k + 4096
      omega
    case isFalse => exact absurd rfl here
  · have same : placed m.bytes (pageAt w d k + off) data = patched m.bytes fun x =>
        if pageAt w d k + off ≤ x then data[x - (pageAt w d k + off)]? else none := by
      funext x
      simp only [patched, placed]
      split <;> rfl
    dsimp only
    rw [same]

theorem patches_copyoutLoop (nonzero : d ≠ 0) : ∀ (fuel va : Nat) (data : List (BitVec 8)),
    Patches w d fun m => (copyoutLoop d fuel va data m).final := by
  intro fuel
  induction fuel with
  | zero =>
    intro va data
    refine .nothing fun m _ => ?_
    rw [copyoutLoop]
    split <;> rfl
  | succ fuel ih =>
    intro va data
    by_cases empty : data.isEmpty = true
    · refine .nothing fun m _ => ?_
      rw [copyoutLoop, if_pos empty]
      rfl
    have start : va / PTE_SZ * PTE_SZ = PTE_SZ * (va / PTE_SZ) := Nat.mul_comm _ _
    by_cases past : 65536 ≤ va / PTE_SZ
    · refine .nothing fun m _ => ?_
      rw [copyoutLoop, if_neg empty]
      simp only [start, Act.bind_apply, uva2ka_past past, Outcome.fail_bind]
      rfl
    have small : va / PTE_SZ < 65536 := Nat.not_le.1 past
    by_cases none_ : tableAt w d (va / PTE_SZ / 256) = 0
    · refine .nothing fun m words => ?_
      rw [copyoutLoop, if_neg empty]
      simp only [start, Act.bind_apply, uva2ka_page nonzero small, words, if_pos none_,
        Outcome.fail_bind]
      rfl
    by_cases user : UserPage w d (va / PTE_SZ)
    · have address : pageAt w d (va / PTE_SZ) ≠ 0 := mt pageAt_eq_zero_iff.1 user.1
      have fits : va - PTE_SZ * (va / PTE_SZ) +
          (data.take (min (PTE_SZ - (va - PTE_SZ * (va / PTE_SZ))) data.length)).length ≤ PTE_SZ := by
        have round : va - 4096 * (va / 4096) < 4096 := by omega
        rw [List.length_take]
        show va - 4096 * (va / 4096) +
          min (min (4096 - (va - 4096 * (va / 4096))) data.length) data.length ≤ 4096
        omega
      obtain ⟨p, inside, patch⟩ := (patches_placed user.1 fits).comp (ih
        ((PTE_SZ * (va / PTE_SZ) + PTE_SZ) % UINTS)
        (data.drop (min (PTE_SZ - (va - PTE_SZ * (va / PTE_SZ))) data.length)))
      refine ⟨p, inside, fun m words => ?_⟩
      rw [← patch m words, copyoutLoop, if_neg empty]
      simp only [start, Act.bind_apply, uva2ka_page nonzero small, words, if_neg none_,
        Outcome.done_bind, if_pos user, if_neg address, putBytes, Act.modify_apply]
    · refine .nothing fun m words => ?_
      rw [copyoutLoop, if_neg empty]
      simp only [start, Act.bind_apply, uva2ka_page nonzero small, words, if_neg none_,
        Outcome.done_bind, if_neg user, if_true]
      rfl

/-- A write stays in the pages of its directory. -/
theorem Access.patches (nonzero : d ≠ 0) (a : Access) : Patches w d (a.through d) := by
  cases a with
  | copyout va data => exact patches_copyoutLoop nonzero _ va data
  | store va b =>
    by_cases user : UserPage w d (va / PTE_SZ)
    · have inPage : va % PTE_SZ < PTE_SZ := Nat.mod_lt va (by decide)
      have put : Patches w d fun m =>
          { m with bytes := placed m.bytes (pageAt w d (va / PTE_SZ) + va % PTE_SZ) [b] } :=
        patches_placed user.1 (Nat.succ_le_of_lt inPage)
      obtain ⟨p, inside, patch⟩ := put
      refine ⟨p, inside, fun m words => ?_⟩
      rw [← patch m words, Access.through, words, if_pos user, ← placed_singleton, ← words]
    · refine .nothing fun m words => ?_
      rw [Access.through, words, if_neg user]

/-- One side of two address spaces with different pages sees only its own writes. -/
theorem isolated {side : Bool → Nat} (nonzero : ∀ c, side c ≠ 0)
    (apart : ∀ c x, InPages w (side c) x → ¬ InPages w (side !c) x) (c : Bool)
    (l : List (Bool × Access)) : ∀ m1 m2 : VMem, m1.words = w → m2.words = w →
      (∀ x, InPages w (side c) x → m1.bytes x = m2.bytes x) →
      (writes side l m1).words = w ∧ (writes side (l.filter fun x => x.1 == c) m2).words = w ∧
        ∀ x, InPages w (side c) x →
          (writes side l m1).bytes x = (writes side (l.filter fun x => x.1 == c) m2).bytes x := by
  induction l with
  | nil => exact fun m1 m2 words1 words2 same => ⟨words1, words2, same⟩
  | cons head rest ih =>
    intro m1 m2 words1 words2 same
    obtain ⟨c', a⟩ := head
    obtain ⟨p, inside, patch⟩ := a.patches (w := w) (nonzero c')
    by_cases mine : c' = c
    · subst mine
      rw [List.filter_cons_of_pos (by simp)]
      simp only [writes, patch m1 words1, patch m2 words2]
      refine ih _ _ words1 words2 fun x here => ?_
      simp only [patched, same x here]
    · have other : c = !c' := (Bool.eq_not_of_ne (Ne.symm mine))
      rw [List.filter_cons_of_neg (by simpa using mine)]
      simp only [writes, patch m1 words1]
      refine ih _ _ words1 words2 fun x here => ?_
      have untouched : p x = none := by
        by_contra some_
        exact apart c' x (inside x some_) (other ▸ here)
      simp only [patched, untouched, Option.getD_none]
      exact same x here

end Isolation

/-! ## A child and the others -/

section Child

variable {S : Setup} {R : Set (Nat × Nat)} {m : VMem}

theorem inPages_user {w : Words} {d va : Nat} (mapped : entry w d (va / PTE_SZ) ≠ 0) :
    InPages w d (pageAt w d (va / PTE_SZ) + va % PTE_SZ) := by
  refine ⟨va / PTE_SZ, mapped, Nat.le_add_right .., ?_⟩
  have small : va % PTE_SZ < PTE_SZ := Nat.mod_lt va (by decide)
  omega

/-- Address spaces with different pages have no address in common. -/
theorem inPages_apart {w : Words} {d q : Nat}
    (aligned : ∀ k, entry w d k ≠ 0 → pageAt w d k % 4096 = 0)
    (aligned' : ∀ k, entry w q k ≠ 0 → pageAt w q k % 4096 = 0)
    (apart : ∀ j k, entry w d j ≠ 0 → entry w q k ≠ 0 → pageAt w d j ≠ pageAt w q k) {x : Nat}
    (inside : InPages w d x) : ¬ InPages w q x := by
  rintro ⟨k, theirs, low, high⟩
  obtain ⟨j, mine, low', high'⟩ := inside
  have high : x < pageAt w q k + 4096 := high
  have high' : x < pageAt w d j + 4096 := high'
  have first := aligned j mine
  have second := aligned' k theirs
  have ne := apart j k mine theirs
  omega

/-- **`copyuvm` copies and isolates an address space.**  If it succeeds, the child has the bytes
and the access permissions of the parent, and nothing else; its pages are no pages of any other
address space, and of all later writes through the child and another address space each of the
two sees only its own. -/
theorem copyuvm_copies_isolates {pgdir sz : Nat} (parent : Held S pgdir R m)
    (present : ∀ k, PTE_SZ * k < sz → entry m.words pgdir k ≠ 0) :
    Sat (vmContract fun _ => False) (fun d m' => d ≠ 0 →
        (∀ va < alignUp sz PTE_SZ, m'.user d va = m.user pgdir va ∧
          pteAp (entry m'.words d (va / PTE_SZ)) = pteAp (entry m.words pgdir (va / PTE_SZ))) ∧
        (∀ k, entry m'.words d k ≠ 0 ↔ PTE_SZ * k < sz) ∧
        ∀ q R', Held S q R' m →
          (∀ j k, entry m'.words d j ≠ 0 → entry m'.words q k ≠ 0 →
            pageAt m'.words d j ≠ pageAt m'.words q k) ∧
          (∀ va, entry m.words q (va / PTE_SZ) ≠ 0 → m'.user q va = m.user q va) ∧
          ∀ (l : List (Bool × Access)) (c : Bool) (va : Nat),
            entry m'.words (bif c then d else q) (va / PTE_SZ) ≠ 0 →
            (writes (bif · then d else q) l m').user (bif c then d else q) va =
              (writes (bif · then d else q) (l.filter fun x => x.1 == c) m').user
                (bif c then d else q) va)
      (copyuvm pgdir sz m) := by
  have inRange : ∀ k, PTE_SZ * k < sz ↔ k < pages sz := by
    intro k
    show 4096 * k < sz ↔ k < (sz + 4095) / 4096
    omega
  have few : pages sz ≤ 65536 := by
    by_contra many
    have last : 65536 / 256 < 256 :=
      parent.few _ (tableAt_ne_zero_of_entry (present 65536 ((inRange _).2 (Nat.not_le.1 many))))
    omega
  have small : sz ≤ UADDR_SZ := by
    show sz ≤ 268435456
    unfold pages at few
    omega
  refine (parent.copyuvm few (fun k below none_ => absurd none_ (present k ((inRange k).2 below)))
    fun _ => trivial).mono fun d m' post => ?_
  intro nonzero
  obtain ⟨-, ⟨isZero, -⟩ | ⟨held, copied, -⟩⟩ := post
  · exact absurd isZero nonzero
  refine ⟨fun va below => ?_, fun k => (copied.only k).trans (inRange k).symm, fun q R' other => ?_⟩
  · rw [alignUp_eq small] at below
    have below : va < 4096 * pages sz := below
    have page : va / PTE_SZ < pages sz := by
      show va / 4096 < pages sz
      omega
    exact ⟨copied.bytes _ page _ (Nat.mod_lt va (by decide)), copied.access _ page⟩
  · obtain ⟨tables, entries⟩ := other.same_spaces copied.tables
    have samePage : ∀ k, pageAt m'.words q k = pageAt m.words q k := by
      intro k
      simp only [pageAt, entries]
    have out : ∀ k, entry m.words q k ≠ 0 → (pageAt m.words q k, PTE_SHIFT) ∈ m.outstanding :=
      fun k some_ => (other.named (x := .page k) (mt pageAt_eq_zero_iff.1 some_)).1
    have apart : ∀ j k, entry m'.words d j ≠ 0 → entry m'.words q k ≠ 0 →
        pageAt m'.words d j ≠ pageAt m'.words q k := by
      intro j k mine theirs same
      have fresh : (pageAt m'.words d j, PTE_SHIFT) ∉ m.outstanding :=
        (held.named (x := .page j) (mt pageAt_eq_zero_iff.1 mine)).2
      rw [entries] at theirs
      rw [same, samePage] at fresh
      exact fresh (out k theirs)
    refine ⟨apart, fun va mapped => ?_, fun l c va mapped => ?_⟩
    · rw [VMem.user, samePage]
      exact copied.others _ (out _ mapped) _ (Nat.mod_lt va (by decide))
    · have aligned : ∀ k, entry m'.words d k ≠ 0 → pageAt m'.words d k % 4096 = 0 :=
        fun k some_ => held.page_aligned some_
      have aligned' : ∀ k, entry m'.words q k ≠ 0 → pageAt m'.words q k % 4096 = 0 := by
        intro k some_
        rw [samePage]
        exact other.page_aligned (entries k ▸ some_)
      have sides : ∀ c, (bif c then d else q) ≠ 0 := by
        rintro (_ | _)
        · exact other.nonzero
        · exact nonzero
      have noCommon : ∀ c x, InPages m'.words (bif c then d else q) x →
          ¬ InPages m'.words (bif !c then d else q) x := by
        rintro (_ | _) x inside
        · exact fun outside => inPages_apart aligned aligned' apart outside inside
        · exact inPages_apart aligned aligned' apart inside
      obtain ⟨words1, words2, same⟩ := isolated sides noCommon c l m' m' rfl rfl fun _ _ => rfl
      rw [VMem.user, VMem.user, words1, words2]
      exact same _ (inPages_user mapped)

/-- A write changes nothing but bytes. -/
theorem Held.through {d : Nat} (held : Held S d R m) (a : Access) :
    Held S d R (a.through d m) ∧ ∀ k, entry (a.through d m).words d k = entry m.words d k := by
  obtain ⟨p, -, patch⟩ := a.patches (w := m.words) held.nonzero
  rw [patch m rfl]
  exact ⟨held.rebyte _, fun k => rfl⟩

/-- A parent with `"hi"` in its one page, and a child: each of the two writes over it. -/
theorem copyuvm_copies_isolates_page : ∃ km pgdir mem m S d m', smallHeap = .ok km ∧
    (onePage 0 (VMem.booted km fewTables [])).leaf = .done (pgdir, mem) m ∧
    Held S pgdir ∅ (Access.through pgdir (.copyout 5 [104, 105]) m) ∧
    (copyuvm pgdir 4096 (Access.through pgdir (.copyout 5 [104, 105]) m)).leaf = .done d m' ∧
    d ≠ 0 ∧ (m'.user d 5, m'.user d 6) = (104, 105) ∧
    (writes (bif · then d else pgdir) [(true, .store 5 72), (false, .copyout 5 [98, 121])] m').user
      d 5 = 72 ∧
    (writes (bif · then d else pgdir) [(true, .store 5 72), (false, .copyout 5 [98, 121])] m').user
      pgdir 5 = 98 := by
  obtain ⟨km, pgdir, mem, m, S, ready, made, held, only, copies⟩ := exists_onePage 0 (by decide)
    (fun d m => let m1 := Access.through d (.copyout 5 [104, 105]) m
      decide (m1.user d 5 = 104 ∧ m1.user d 6 = 105) &&
      (copyuvm d 4096 m1).passes fun d' m' => d' != 0 &&
        decide (UserPage m'.words d' 0 ∧ entry m'.words d 0 ≠ 0 ∧
          (writes (bif · then d' else d) [(true, .store 5 72)] m').user d' 5 = 72 ∧
          (writes (bif · then d' else d) [(false, .copyout 5 [98, 121])] m').user d 5 = 98))
    (by decide +kernel)
  dsimp only at copies
  rw [Bool.and_eq_true, decide_eq_true_eq] at copies
  obtain ⟨⟨first, second⟩, copies⟩ := copies
  obtain ⟨held, entries⟩ := held.through (.copyout 5 [104, 105])
  have present : ∀ k, PTE_SZ * k < 4096 →
      entry (Access.through pgdir (.copyout 5 [104, 105]) m).words pgdir k ≠ 0 := by
    intro k below
    have below : 4096 * k < 4096 := below
    rw [entries]
    exact (only k).2 (by omega)
  obtain ⟨d, m', leaf, good⟩ := Outcome.exists_of_passes copies
  rw [Bool.and_eq_true, decide_eq_true_eq] at good
  obtain ⟨nonzero, mine, theirs, child, parent⟩ := good
  have nonzero := bne_iff_ne.1 nonzero
  have sat := (copyuvm_copies_isolates held present).leaf fun _ _ => trivial
  rw [leaf] at sat
  obtain ⟨same, -, others⟩ := sat nonzero
  obtain ⟨-, -, isolated⟩ := others pgdir ∅ held
  refine ⟨km, pgdir, mem, m, S, d, m', ready, made, held, leaf, nonzero, ?_, ?_, ?_⟩
  · rw [(same 5 (by decide)).1, (same 6 (by decide)).1, first, second]
  · exact (isolated _ true 5 mine.1).trans child
  · exact (isolated _ false 5 theirs).trans parent

end Child

end Xv6Rpi.Proc.Vm
