/-
# Proc.VmSpace -- page tables and bytes

What the rest of the development of `vm.c` rests on: how an address is looked up in a directory,
which functions leave the bytes of memory alone, how `freevm` gives the page tables back, and the
arithmetic of sizes and pages.
-/
import Xv6Rpi.Proc.VmOwn
import Xv6Rpi.Theory.Frame

namespace Xv6Rpi.Proc.Vm

open Theory
open Kernel (Client upd upd_same upd_ne KERNBASE)

set_option autoImplicit false

/-! ## Sizes and pages -/

/-- The number of pages that `sz` bytes take. -/
def pages (sz : Nat) : Nat := (sz + 4095) / 4096

theorem alignUp_eq {x : Nat} (small : x ≤ UADDR_SZ) : alignUp x PTE_SZ = PTE_SZ * pages x := by
  have small : x ≤ 268435456 := small
  show (x + 4096 - 1) % 4294967296 / 4096 * 4096 = 4096 * ((x + 4095) / 4096)
  omega

theorem pages_le {x y : Nat} (le : x ≤ y) : pages x ≤ pages y := by
  unfold pages
  omega

theorem pages_bounded {x : Nat} (small : x ≤ UADDR_SZ) : pages x ≤ 65536 := by
  have small : x ≤ 268435456 := small
  unfold pages
  omega

theorem alignUp_page (k : Nat) (small : k < 65536) : alignUp (PTE_SZ * k) PDE_SZ + PTE_SZ =
    PTE_SZ * ((k + 255) / 256 * 256 + 1) := by
  show (4096 * k + 1048576 - 1) % 4294967296 / 1048576 * 1048576 + 4096 =
    4096 * ((k + 255) / 256 * 256 + 1)
  omega

theorem pagesFrom_page (k last : Nat) :
    pagesFrom (PTE_SZ * k) last = (List.range' k (pages last - k)).map (PTE_SZ * ·) := by
  have count : (last - PTE_SZ * k + (PTE_SZ - 1)) / PTE_SZ = pages last - k := by
    show (last - 4096 * k + (4096 - 1)) / 4096 = (last + 4095) / 4096 - k
    omega
  unfold pagesFrom
  rw [count, List.range'_eq_map_range, List.map_map]
  refine List.map_congr_left fun j _ => ?_
  exact (Nat.mul_add PTE_SZ k j).symm

/-! ## Page tables -/

theorem PDE_IDX_page (k : Nat) : PDE_IDX (PTE_SZ * k) = k / 256 := by
  show 4096 * k / 1048576 = k / 256
  omega

theorem PTE_IDX_page (k : Nat) : PTE_IDX (PTE_SZ * k) = k % 256 := by
  show 4096 * k / 4096 % 256 = k % 256
  omega

section Spaces

variable {S : Setup} {G : View} {Q : Set (Nat × Nat)} {m : VMem} {d k : Nat}

theorem present_iff_tableAt (nonzero : d ≠ 0) (i : Nat) :
    present (m.words d i) = true ↔ tableAt m.words d i ≠ 0 := by
  unfold tableAt
  by_cases there : present (m.words d i) = true
  · simp [there, nonzero, p2v_ne_zero]
  · simp [there]

theorem tableAt_of_present (nonzero : d ≠ 0) {i : Nat} (there : present (m.words d i) = true) :
    p2v (ptAddr (m.words d i)) = tableAt m.words d i := by
  simp [tableAt, nonzero, there]

/-- Looking for an entry changes nothing. -/
theorem walkpgdir_look (nonzero : d ≠ 0) (small : k < 65536) : walkpgdir d (PTE_SZ * k) false m =
    .done (if tableAt m.words d (k / 256) = 0 then none
      else some (tableAt m.words d (k / 256), k % 256)) m := by
  have inside : ¬ NUM_UPDE ≤ k / 256 := by
    show ¬ 256 ≤ k / 256
    omega
  unfold walkpgdir
  simp only [PDE_IDX_page, PTE_IDX_page, decide_eq_false inside, Act.bind_apply, Act.failIf_false,
    Outcome.done_bind, word]
  by_cases there : present (m.words d (k / 256)) = true
  · rw [if_pos there, if_neg ((present_iff_tableAt nonzero _).1 there),
      tableAt_of_present nonzero there]
    rfl
  · have none_ : tableAt m.words d (k / 256) = 0 := by
      by_contra some_
      exact there ((present_iff_tableAt nonzero _).2 some_)
    rw [if_neg there, if_pos none_]
    rfl

theorem entry_zero (w : Words) (j : Nat) : entry w 0 j = 0 :=
  entry_of_tableAt_eq_zero tableAt_zero

/-- A page that has been mapped. -/
theorem pageAt_of_entry {w : Words} {mem ap : Nat} (isEntry : entry w d k = mkPte (v2p mem) ap)
    (kernel : KERNBASE < mem) (aligned : mem % 4096 = 0) : pageAt w d k = mem := by
  have kernel : 0x80000000 < mem := kernel
  have physical : v2p mem % 4096 = 0 := by
    show (mem - 0x80000000) % 4096 = 0
    omega
  rw [pageAt, isEntry, if_neg (mkPte_ne_zero _ _), (pteAddr_mkPte ap physical).1]
  exact p2v_v2p (show 0x80000000 ≤ mem by omega)

/-- `x - 1` on unsigned numbers. -/
theorem wrap_pred {x n : Nat} (positive : 0 < x) (fits : x ≤ n) : (x + (n - 1)) % n = x - 1 := by
  rw [show x + (n - 1) = x - 1 + n by omega, Nat.add_mod_right, Nat.mod_eq_of_lt (by omega)]

/-- One page takes one round. -/
theorem mappages_page (small : k < 65536) (pa ap : Nat) :
    mappages d (PTE_SZ * k) PTE_SZ pa ap = (do mapPage d (PTE_SZ * k) pa ap; pure ()) := by
  have positive : 0 < PTE_SZ * k + PTE_SZ := by
    show 0 < 4096 * k + 4096
    omega
  have fits : PTE_SZ * k + PTE_SZ ≤ UINTS := by
    show 4096 * k + 4096 ≤ 4294967296
    omega
  have last : (PTE_SZ * k + PTE_SZ - 1) / PTE_SZ * PTE_SZ = PTE_SZ * k := by
    clear positive fits
    show (4096 * k + 4096 - 1) / 4096 * 4096 = 4096 * k
    omega
  have first : PTE_SZ * k / PTE_SZ * PTE_SZ = PTE_SZ * k := by
    rw [Nat.mul_div_cancel_left k (by decide), Nat.mul_comm]
  unfold mappages
  rw [wrap_pred positive fits, first, last, mapLoop]
  simp only [if_true]

/-! ## Bytes -/

/-- The byte at a user address. -/
def VMem.user (m : VMem) (d va : Nat) : BitVec 8 :=
  m.bytes (pageAt m.words d (va / PTE_SZ) + va % PTE_SZ)

/-- A byte stays when its page does, with what it holds. -/
theorem user_congr {m m' : VMem} {d va : Nat}
    (entries : entry m'.words d (va / PTE_SZ) = entry m.words d (va / PTE_SZ))
    (bytes : m'.bytes (pageAt m.words d (va / PTE_SZ) + va % PTE_SZ) =
      m.bytes (pageAt m.words d (va / PTE_SZ) + va % PTE_SZ)) : m'.user d va = m.user d va := by
  have page : pageAt m'.words d (va / PTE_SZ) = pageAt m.words d (va / PTE_SZ) := by
    rw [pageAt, entries, pageAt]
  rw [VMem.user, page, bytes, VMem.user]

section Bytes

instance (order : Nat) : Fixes VMem.bytes (kmalloc order) where
  sat m := by
    unfold kmalloc
    split
    · rfl
    · split
      · trivial
      · split <;> rfl

instance (mem order : Nat) : Fixes VMem.bytes (kfree mem order) where
  sat m := by
    unfold kfree
    split
    · trivial
    · rfl

instance (t : Nat) : Fixes VMem.bytes (clearTable t) := ⟨fun _ => rfl⟩

instance (t i e : Nat) : Fixes VMem.bytes (setWord t i e) := ⟨fun _ => rfl⟩

instance (t i : Nat) : Fixes VMem.bytes (word t i) := ⟨fun _ => rfl⟩

instance : Fixes VMem.bytes kptAlloc where
  sat m := by
    unfold kptAlloc
    cases freelist : m.freelist with
    | nil =>
      have alloc : Fixes VMem.bytes (do
          let r ← kmalloc PT_ORDER
          Act.failIf (r == 0) .oom
          clearTable r
          return r : V Nat) := inferInstance
      simpa only [Act.bind_apply, Act.get_apply, Outcome.done_bind, freelist] using alloc.sat m
    | cons t rest =>
      simp only [Act.bind_apply, Act.get_apply, Outcome.done_bind, freelist]
      rfl

instance (pgdir va : Nat) (alloc : Bool) : Fixes VMem.bytes (walkpgdir pgdir va alloc) := by
  unfold walkpgdir
  infer_instance

instance (pgdir va pa ap : Nat) : Fixes VMem.bytes (mapPage pgdir va pa ap) := by
  have rest : ∀ x : Option (Nat × Nat), Fixes VMem.bytes (match x with
      | none => return
      | some (t, j) => do
          let pte ← word t j
          Act.failIf (present pte) .remap
          setWord t j (mkPte pa ap) : V Unit) := by
    rintro (_ | ⟨t, j⟩)
    · exact Fixes.pure _
    · infer_instance
  unfold mapPage
  infer_instance

instance (pgdir oldsz fuel a : Nat) : Fixes VMem.bytes (deallocLoop pgdir oldsz fuel a) := by
  induction fuel generalizing a with
  | zero => exact Fixes.fail _
  | succ fuel ih =>
    have rest : ∀ x : Option (Nat × Nat), Fixes VMem.bytes (match x with
        | none => deallocLoop pgdir oldsz fuel (alignUp a PDE_SZ + PTE_SZ)
        | some (t, j) => do
            let pte ← word t j
            Act.runIf (present pte) do
              Act.failIf (pteAddr pte == 0) .deallocuvm
              freePage (p2v (pteAddr pte))
              setWord t j 0
            deallocLoop pgdir oldsz fuel (a + PTE_SZ) : V Unit) := by
      rintro (_ | ⟨t, j⟩)
      · exact ih _
      · unfold freePage
        infer_instance
    rw [deallocLoop]
    infer_instance

instance (pgdir oldsz newsz : Nat) : Fixes VMem.bytes (deallocuvm pgdir oldsz newsz) := by
  unfold deallocuvm
  infer_instance

instance (v : Nat) : Fixes VMem.bytes (kptFree v) := by
  have back : Fixes VMem.bytes (Act.modify fun m => { m with freelist := v :: m.freelist } : V Unit) :=
    ⟨fun _ => rfl⟩
  unfold kptFree
  infer_instance

instance (pgdir i : Nat) : Fixes VMem.bytes (freeTable pgdir i) := by
  unfold freeTable
  infer_instance

instance (pgdir : Nat) : Fixes VMem.bytes (freevm pgdir) := by
  unfold freevm
  infer_instance

theorem filled_inside (bytes : Nat → BitVec 8) (mem : Nat) (f : Nat → BitVec 8) {i : Nat}
    (small : i < PTE_SZ) : filled bytes mem f (mem + i) = f i := by
  have small : i < 4096 := small
  rw [filled, if_pos ⟨by omega, by show mem + i < mem + 4096; omega⟩, Nat.add_sub_cancel_left]

/-- Pages are aligned, so that other pages do not reach into one. -/
theorem filled_outside (bytes : Nat → BitVec 8) {mem a : Nat} (f : Nat → BitVec 8) {i : Nat}
    (small : i < PTE_SZ) (aligned : mem % 4096 = 0) (aligned' : a % 4096 = 0) (ne : a ≠ mem) :
    filled bytes mem f (a + i) = bytes (a + i) := by
  have small : i < 4096 := small
  refine if_neg fun both => ?_
  have upper : a + i < mem + 4096 := both.2
  omega

end Bytes

/-! ## Giving page tables back -/

/-- The directory and the page tables `l` of an address space. -/
def tablesOf (w : Words) (d : Nat) (l : List Nat) : Set (Nat × Nat) :=
  {b | b = (d, PT_ORDER) ∨ ∃ i ∈ l, tableAt w d i ≠ 0 ∧ b = (tableAt w d i, PT_ORDER)}

/-- A directory and its page tables are different blocks, none of them in `Q`. -/
structure TablesApart (w : Words) (d : Nat) (Q : Set (Nat × Nat)) : Prop where
  dir : (d, PT_ORDER) ∉ Q
  notDir : ∀ i, tableAt w d i ≠ 0 → d ≠ tableAt w d i
  tight : ∀ i, tableAt w d i ≠ 0 → (tableAt w d i, PT_ORDER) ∉ Q
  once : ∀ i j, tableAt w d i ≠ 0 → tableAt w d i = tableAt w d j → i = j

theorem TablesApart.sdiff {w : Words} (apart : TablesApart w d Q) {i : Nat} {l : List Nat}
    (notIn : i ∉ l) (some_ : tableAt w d i ≠ 0) :
    (Q ∪ tablesOf w d (i :: l)) \ {(tableAt w d i, PT_ORDER)} = Q ∪ tablesOf w d l := by
  ext b
  simp only [tablesOf, Set.mem_sdiff, Set.mem_union, Set.mem_ofPred_eq, Set.mem_singleton_iff,
    List.mem_cons]
  constructor
  · rintro ⟨inQ | isD | ⟨j, rfl | inside, there, isTable⟩, ne⟩
    · exact Or.inl inQ
    · exact Or.inr (Or.inl isD)
    · exact absurd isTable ne
    · exact Or.inr (Or.inr ⟨j, inside, there, isTable⟩)
  · rintro (inQ | rfl | ⟨j, inside, there, rfl⟩)
    · exact ⟨Or.inl inQ, fun same => apart.tight i some_ (same ▸ inQ)⟩
    · exact ⟨Or.inr (Or.inl rfl), fun same => apart.notDir i some_ (congrArg Prod.fst same)⟩
    · refine ⟨Or.inr (Or.inr ⟨j, Or.inr inside, there, rfl⟩), fun same => ?_⟩
      exact notIn (apart.once i j some_ (congrArg Prod.fst same).symm ▸ inside)

theorem TablesApart.sdiff_dir {w : Words} (apart : TablesApart w d Q) :
    (Q ∪ tablesOf w d []) \ {(d, PT_ORDER)} = Q := by
  ext b
  simp only [tablesOf, Set.mem_sdiff, Set.mem_union, Set.mem_ofPred_eq, Set.mem_singleton_iff,
    List.not_mem_nil, false_and, exists_false, or_false]
  constructor
  · rintro ⟨inQ | isD, ne⟩
    · exact inQ
    · exact absurd isD ne
  · exact fun inQ => ⟨Or.inl inQ, fun same => apart.dir (same ▸ inQ)⟩

/-- The end of `freevm`: the page tables and the directory go back. -/
theorem freeTables_spec {C : VContract} (back : ReturnsTables C) (nonzero : d ≠ 0)
    (apart : TablesApart m.words d Q)
    (kept : Kept S G (Q ∪ tablesOf m.words d (List.range NUM_UPDE)) m) :
    Sat C (fun _ m' => Kept S G Q m' ∧ m'.words = m.words ∧ m'.misses = m.misses)
      ((do Act.forEach (freeTable d) (List.range NUM_UPDE); kptFree d : V Unit) m) := by
  -- the page tables still to be freed are those of the rest of the list
  have loop := Sat.forEach (C := C) (f := freeTable d)
    (I := fun l m' => l.Nodup ∧ Kept S G (Q ∪ tablesOf m.words d l) m' ∧ m'.words = m.words ∧
      m'.misses = m.misses)
    (fun i l m' holds => ?_) (List.range NUM_UPDE) m ⟨List.nodup_range, kept, rfl, rfl⟩
  · refine loop.seq fun _ m2 post => ?_
    obtain ⟨-, kept2, words2, misses2⟩ := post
    have isLoose : (d, PT_ORDER) ∈ Q ∪ tablesOf m.words d [] := Or.inr (Or.inl rfl)
    refine (kptFree_spec back kept2 isLoose).mono fun _ m3 post => ?_
    obtain ⟨kept3, words3, misses3⟩ := post
    rw [apart.sdiff_dir] at kept3
    exact ⟨kept3, words3.trans words2, misses3.trans misses2⟩
  · obtain ⟨nodup, kept', words', misses'⟩ := holds
    obtain ⟨notIn, nodup'⟩ := List.nodup_cons.1 nodup
    unfold freeTable
    refine Sat.step (word_apply ..) ?_
    rw [words']
    by_cases there : present (m.words d i) = true
    · rw [there, Act.runIf_true, tableAt_of_present nonzero there]
      have some_ := (present_iff_tableAt nonzero i).1 there
      have isLoose : (tableAt m.words d i, PT_ORDER) ∈ Q ∪ tablesOf m.words d (i :: l) :=
        Or.inr (Or.inr ⟨i, List.mem_cons_self, some_, rfl⟩)
      refine (kptFree_spec back kept' isLoose).mono fun _ m2 post => ?_
      obtain ⟨kept2, words2, misses2⟩ := post
      rw [apart.sdiff notIn some_] at kept2
      exact ⟨nodup', kept2, words2.trans words', misses2.trans misses'⟩
    · have off : present (m.words d i) = false := Bool.eq_false_iff.2 there
      have none_ : tableAt m.words d i = 0 := by
        by_contra some_
        exact there ((present_iff_tableAt nonzero i).2 some_)
      have same : tablesOf m.words d (i :: l) = tablesOf m.words d l := by
        ext b
        simp [tablesOf, none_]
      rw [off, Act.runIf_false]
      rw [same] at kept'
      exact ⟨nodup', kept', words', misses'⟩

end Spaces

end Xv6Rpi.Proc.Vm
