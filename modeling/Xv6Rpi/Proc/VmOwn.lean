/-
# Proc.VmOwn -- every block of kernel memory belongs to one place

The places that hold memory are the boot-time stacks, kernel stacks, pipes, page
directories, the page tables a directory points to and the pages these map.  A `View`
says which directories, stacks and pipes are in use; the page tables and pages follow
from the contents of the directories.  `Kept S G Q m` says that the outstanding blocks
are those of the places of `G`, each of one place (`Theory.Owner`), and the loose ones `Q`.

One lemma each says what allocating, freeing and storing an entry do to it.  Directories
are filled from the front (`Kept.contig`): `deallocuvm` relies on that, as it skips the
first page after a missing page table.
-/
import Mathlib.Algebra.Group.Prod
import Xv6Rpi.Proc.Supply
import Xv6Rpi.Theory.Owner

namespace Xv6Rpi.Proc.Vm

open Theory
open Kernel (Client Kmem Pid upd upd_same upd_ne KERNBASE INIT_KERNMAP)

set_option autoImplicit false

/-! ## Entries -/

/-- The page table that entry `i` of the directory `d` points to, 0 for none. -/
def tableAt (w : Words) (d i : Nat) : Nat :=
  if d ≠ 0 ∧ present (w d i) then p2v (ptAddr (w d i)) else 0

/-- The entry for page `k` under the directory `d`, 0 for none. -/
def entry (w : Words) (d k : Nat) : Nat :=
  if tableAt w d (k / 256) ≠ 0 ∧ present (w (tableAt w d (k / 256)) (k % 256)) then
    w (tableAt w d (k / 256)) (k % 256)
  else 0

/-- The page itself. -/
def pageAt (w : Words) (d k : Nat) : Nat :=
  if entry w d k = 0 then 0 else p2v (pteAddr (entry w d k))

section Entries

variable {w : Words} {d i k t : Nat}

theorem p2v_ne_zero (a : Nat) : p2v a ≠ 0 := by
  show a + 0x80000000 ≠ 0
  omega

theorem p2v_v2p {a : Nat} (kernel : KERNBASE ≤ a) : p2v (v2p a) = a := Nat.sub_add_cancel kernel

@[simp] theorem not_present_zero : present 0 = false := rfl

theorem present_ne_zero {e : Nat} (there : present e = true) : e ≠ 0 := by
  rintro rfl
  cases there

@[simp] theorem tableAt_zero : tableAt w 0 i = 0 := by simp [tableAt]

theorem entry_of_tableAt_eq_zero (none_ : tableAt w d (k / 256) = 0) : entry w d k = 0 := by
  simp [entry, none_]

theorem tableAt_ne_zero_of_entry (there : entry w d k ≠ 0) : tableAt w d (k / 256) ≠ 0 :=
  fun none_ => there (entry_of_tableAt_eq_zero none_)

theorem present_entry (there : entry w d k ≠ 0) : present (entry w d k) = true := by
  unfold entry at there ⊢
  split
  case isTrue both => exact both.2
  case isFalse none_ => rw [if_neg none_] at there; exact absurd rfl there

theorem pageAt_eq_zero_iff : pageAt w d k = 0 ↔ entry w d k = 0 := by
  unfold pageAt
  split
  case isTrue none_ => simp [none_]
  case isFalse there => exact iff_of_false (p2v_ne_zero _) there

/-- What stands in a page table that is there. -/
theorem entry_eq (there : tableAt w d (k / 256) = t) (nonzero : t ≠ 0) :
    entry w d k = if present (w t (k % 256)) then w t (k % 256) else 0 := by
  simp [entry, there, nonzero]

theorem tableAt_congr {w' : Words} (same : d ≠ 0 → w' d i = w d i) :
    tableAt w' d i = tableAt w d i := by
  by_cases isZero : d = 0
  · simp [isZero]
  · simp [tableAt, same isZero]

theorem entry_congr {w' : Words}
    (table : tableAt w' d (k / 256) = tableAt w d (k / 256))
    (same : tableAt w d (k / 256) ≠ 0 →
      w' (tableAt w d (k / 256)) (k % 256) = w (tableAt w d (k / 256)) (k % 256)) :
    entry w' d k = entry w d k := by
  by_cases isZero : tableAt w d (k / 256) = 0
  · rw [entry_of_tableAt_eq_zero isZero, entry_of_tableAt_eq_zero (table.trans isZero)]
  · simp [entry, table, same isZero]

/-- An entry of a directory points to the page table it was made for. -/
theorem ptAddr_pde {pa : Nat} (aligned : pa % 1024 = 0) :
    ptAddr (pa ||| 1) = pa ∧ present (pa ||| 1) = true := by
  have sum : pa ||| 1 = pa + 1 := by
    obtain ⟨q, rfl⟩ := Nat.dvd_of_mod_eq_zero aligned
    exact (Nat.two_pow_add_eq_or_of_lt (i := 10) (by decide : 1 < 2 ^ 10) q).symm
  rw [sum]
  constructor
  · unfold ptAddr
    omega
  · simp only [present, bne_iff_ne]
    omega

/-- An entry of a page table points to the page it was made for, with its permissions. -/
theorem mkPte_eq {pa : Nat} (ap : Nat) (aligned : pa % 4096 = 0) :
    mkPte pa ap = pa + (ap % 4 * 16 + 14) := by
  obtain ⟨q, rfl⟩ := Nat.dvd_of_mod_eq_zero aligned
  have low : ap % 4 * 16 ||| 8 ||| 4 ||| 2 = ap % 4 * 16 + 14 :=
    (by decide : ∀ a < 4, a * 16 ||| 8 ||| 4 ||| 2 = a * 16 + 14) _ (Nat.mod_lt ap (by decide))
  have split : mkPte (4096 * q) ap = 4096 * q ||| (ap % 4 * 16 ||| 8 ||| 4 ||| 2) := by
    simp only [mkPte, Nat.or_assoc]
  rw [split, low]
  exact (Nat.two_pow_add_eq_or_of_lt (i := 12) (by omega : ap % 4 * 16 + 14 < 2 ^ 12) q).symm

theorem mkPte_ne_zero (pa ap : Nat) : mkPte pa ap ≠ 0 := by
  have : 2 ≤ mkPte pa ap := Nat.right_le_or
  omega

theorem pteAddr_mkPte {pa : Nat} (ap : Nat) (aligned : pa % 4096 = 0) :
    pteAddr (mkPte pa ap) = pa ∧ present (mkPte pa ap) = true := by
  rw [mkPte_eq ap aligned]
  constructor
  · unfold pteAddr
    omega
  · simp only [present, bne_iff_ne]
    omega

/-- Taking the user's access away leaves the page where it is. -/
theorem pteAddr_kernelOnly {e : Nat} (there : present e = true) :
    pteAddr (kernelOnly e) = pteAddr e ∧ present (kernelOnly e) = true := by
  simp only [present, bne_iff_ne] at there ⊢
  simp only [kernelOnly, pteAddr, pteAp, AP_KO]
  omega

end Entries

/-! ## Places -/

/-- A directory: that of a process, or the one `exec` is filling. -/
abbrev Root : Type := Option Pid

inductive Place where
  | modeStack (i : Fin 4)
  | kstack (p : Pid)
  | pipe (a : Nat)
  | dir (r : Root)
  | table (r : Root) (i : Nat)
  | page (r : Root) (k : Nat)
  deriving DecidableEq

def Place.order : Place → Nat
  | .modeStack _ | .kstack _ | .page _ _ => PTE_SHIFT
  | .pipe _ | .dir _ | .table _ _ => PT_ORDER

/-- What is in use; 0 for nothing. -/
structure View where
  modeStack : Fin 4 → Nat
  kstack : Pid → Nat
  pipe : Nat → Nat
  dir : Root → Nat

namespace View

/-- The address at a place. -/
def address (G : View) (w : Words) : Place → Nat
  | .modeStack i => G.modeStack i
  | .kstack p => G.kstack p
  | .pipe a => G.pipe a
  | .dir r => G.dir r
  | .table r i => tableAt w (G.dir r) i
  | .page r k => pageAt w (G.dir r) k

/-- The block at a place. -/
def block (G : View) (w : Words) (x : Place) : Nat × Nat :=
  if G.address w x = 0 then 0 else (G.address w x, x.order)

def setDir (G : View) (r : Root) (d : Nat) : View := { G with dir := upd G.dir r d }

variable {G : View} {w w' : Words} {x : Place}

theorem block_eq_zero_iff : G.block w x = 0 ↔ G.address w x = 0 := by
  unfold block
  split
  case isTrue none_ => simp [none_]
  case isFalse some_ => simp [some_]

theorem block_of_ne (some_ : G.address w x ≠ 0) : G.block w x = (G.address w x, x.order) :=
  if_neg some_

theorem block_congr {G' : View} (same : G'.address w' x = G.address w x) :
    G'.block w' x = G.block w x := by
  simp [block, same]

end View

/-- The same page tables and entries under all directories. -/
structure SameSpaces (G : View) (w w' : Words) : Prop where
  tables : ∀ r i, tableAt w' (G.dir r) i = tableAt w (G.dir r) i
  entries : ∀ r k, entry w' (G.dir r) k = entry w (G.dir r) k

theorem SameSpaces.address {G : View} {w w' : Words} (same : SameSpaces G w w')
    (x : Place) : G.address w' x = G.address w x := by
  cases x with
  | table r i => exact same.tables r i
  | page r k => simp [View.address, pageAt, same.entries r k]
  | _ => rfl

/-! ## The invariant -/

/-- What holds from booting on: the heap, and the page tables left over. -/
structure Setup where
  N : Nat
  P : Nat
  km : Kmem
  boot : List Nat

/-- The blocks given out, by the allocator or from the list of boot-time page tables. -/
def VMem.outstanding (m : VMem) : Set (Nat × Nat) :=
  {b | b ∈ m.heap.live ∨ b.2 = PT_ORDER ∧ b.1 ∈ m.boot ∧ b.1 ∉ m.freelist}

/-- The page tables left over at boot lie between the kernel and the heap. -/
structure BootPool (boot : List Nat) : Prop where
  low : ∀ a ∈ boot, KERNBASE < a
  high : ∀ a ∈ boot, a < BOOT_END
  aligned : ∀ a ∈ boot, a % 1024 = 0
  nodup : boot.Nodup

structure Kept (S : Setup) (G : View) (Q : Set (Nat × Nat)) (m : VMem) : Prop where
  heap : Client.Inv S.N S.P S.km m.heap
  above : BOOT_END ≤ S.km.startHeap
  boot : m.boot = S.boot
  pool : BootPool S.boot
  nodup : m.freelist.Nodup
  spare : ∀ a ∈ m.freelist, a ∈ S.boot
  owns : Owns (G.block m.words) m.outstanding Q
  contig : ∀ r i j, i ≤ j → tableAt m.words (G.dir r) j ≠ 0 → tableAt m.words (G.dir r) i ≠ 0
  few : ∀ r i, tableAt m.words (G.dir r) i ≠ 0 → i < NUM_UPDE

namespace Kept

variable {S : Setup} {G : View} {Q : Set (Nat × Nat)} {m : VMem} {b : Nat × Nat}

/-- Live blocks are aligned and lie in the heap. -/
theorem live_inside (kept : Kept S G Q m) (live : b ∈ m.heap.live) :
    b.1 % 2 ^ b.2 = 0 ∧ BOOT_END ≤ b.1 := by
  obtain ⟨aligned, low, -⟩ := kept.heap.tiled.inside b (Or.inl live)
  have start : m.heap.km.startHeap = S.km.startHeap := by
    have bounds := kept.heap.bounds
    simp only [Kmem.bounds, Prod.mk.injEq] at bounds
    exact bounds.2.1
  exact ⟨aligned, kept.above.trans (start ▸ low)⟩

/-- A page is never one of the boot-time page tables. -/
theorem live_of_page (out : b ∈ m.outstanding) (page : b.2 = PTE_SHIFT) : b ∈ m.heap.live := by
  rcases out with live | ⟨table, -⟩
  · exact live
  · rw [page] at table
    cases table

/-- Which pool an outstanding page table came from shows in its address. -/
theorem live_iff (kept : Kept S G Q m) (out : b ∈ m.outstanding) :
    b ∈ m.heap.live ↔ BOOT_END ≤ b.1 := by
  constructor
  · exact fun live => (kept.live_inside live).2
  · intro high
    rcases out with live | ⟨-, inBoot, -⟩
    · exact live
    · rw [kept.boot] at inBoot
      exact absurd high (Nat.not_le.2 (kept.pool.high _ inBoot))

theorem kernel (kept : Kept S G Q m) (out : b ∈ m.outstanding) : KERNBASE < b.1 := by
  rcases out with live | ⟨-, inBoot, -⟩
  · have high : 0x80000000 + 0x100000 ≤ b.1 := (kept.live_inside live).2
    show 0x80000000 < b.1
    omega
  · rw [kept.boot] at inBoot
    exact kept.pool.low _ inBoot

theorem table_aligned (kept : Kept S G Q m) (out : b ∈ m.outstanding) (table : b.2 = PT_ORDER) :
    b.1 % 1024 = 0 := by
  rcases out with live | ⟨-, inBoot, -⟩
  · have aligned := (kept.live_inside live).1
    rw [table] at aligned
    exact aligned
  · rw [kept.boot] at inBoot
    exact kept.pool.aligned _ inBoot

theorem page_aligned (kept : Kept S G Q m) (out : b ∈ m.outstanding) (page : b.2 = PTE_SHIFT) :
    b.1 % 4096 = 0 := by
  have aligned := (kept.live_inside (live_of_page out page)).1
  rw [page] at aligned
  exact aligned

/-- The block at a place is outstanding. -/
theorem named (kept : Kept S G Q m) {x : Place} (some_ : G.address m.words x ≠ 0) :
    (G.address m.words x, x.order) ∈ m.outstanding ∧ (G.address m.words x, x.order) ∉ Q := by
  have block := View.block_of_ne some_
  have both := kept.owns.named x (by rw [Ne, View.block_eq_zero_iff]; exact some_)
  rwa [block] at both

/-- No place has the address of a loose block of its size. -/
theorem ne_of_loose (kept : Kept S G Q m) {x : Place} {a : Nat} (loose : (a, x.order) ∈ Q) :
    G.address m.words x ≠ a := by
  intro same
  have nonzero : a ≠ 0 := by
    have low : 0x80000000 < a := kept.kernel (kept.owns.loose_used _ loose)
    omega
  exact (kept.named (same ▸ nonzero)).2 (same ▸ loose)

/-- Which allocations will fail or have failed does not matter. -/
theorem congr (kept : Kept S G Q m) {m' : VMem} (heap : m'.heap = m.heap) (boot : m'.boot = m.boot)
    (freelist : m'.freelist = m.freelist) (words : m'.words = m.words) : Kept S G Q m' := by
  have out : m'.outstanding = m.outstanding := by
    simp only [VMem.outstanding, heap, boot, freelist]
  refine ⟨heap ▸ kept.heap, kept.above, boot.trans kept.boot, kept.pool, freelist ▸ kept.nodup,
    freelist ▸ kept.spare, ?_, words ▸ kept.contig, words ▸ kept.few⟩
  rw [words, out]
  exact kept.owns

/-- Contents that show the same page tables and entries. -/
theorem of_same (kept : Kept S G Q m) {w' : Words} (same : SameSpaces G m.words w') :
    Kept S G Q { m with words := w' } := by
  refine ⟨kept.heap, kept.above, kept.boot, kept.pool, kept.nodup, kept.spare, ?_, ?_, ?_⟩
  · exact kept.owns.congr fun x => View.block_congr (same.address x)
  · intro r i j before there
    simp only [same.tables] at there ⊢
    exact kept.contig r i j before there
  · intro r i there
    simp only [same.tables] at there
    exact kept.few r i there

/-- Nothing that is in use stands in a loose page table. -/
theorem upd_loose (kept : Kept S G Q m) {t : Nat} (loose : (t, PT_ORDER) ∈ Q) (f : Nat → Nat) :
    SameSpaces G m.words (upd m.words t f) := by
  have tables : ∀ r i, tableAt (upd m.words t f) (G.dir r) i = tableAt m.words (G.dir r) i := by
    intro r i
    have apart : G.dir r ≠ t := kept.ne_of_loose (x := .dir r) loose
    exact tableAt_congr fun _ => by rw [upd_ne _ _ apart]
  refine ⟨tables, fun r k => ?_⟩
  have apart : tableAt m.words (G.dir r) (k / 256) ≠ t :=
    kept.ne_of_loose (x := .table r (k / 256)) loose
  exact entry_congr (tables r _) fun _ => by rw [upd_ne _ _ apart]

end Kept

/-! ## Places outside page tables -/

section Places

variable {S : Setup} {G : View} {Q : Set (Nat × Nat)} {m : VMem} {x : Place}

/-- A loose block gets a place. -/
theorem Kept.assign (kept : Kept S G Q m) (G' : View) {a : Nat} (loose : (a, x.order) ∈ Q)
    (empty : G.address m.words x = 0) (here : G'.address m.words x = a)
    (others : ∀ y, y ≠ x → G'.address m.words y = G.address m.words y) (dirs : G'.dir = G.dir) :
    Kept S G' (Q \ {(a, x.order)}) m := by
  have nonzero : a ≠ 0 := by
    have high : 0x80000000 < a := kept.kernel (kept.owns.loose_used _ loose)
    omega
  refine ⟨kept.heap, kept.above, kept.boot, kept.pool, kept.nodup, kept.spare, ?_, dirs ▸ kept.contig,
    dirs ▸ kept.few⟩
  refine kept.owns.assign loose (View.block_eq_zero_iff.2 empty) ?_ fun y other =>
    View.block_congr (others y other)
  rw [View.block_of_ne (by rw [here]; exact nonzero), here]

/-- A place takes a block that has just been allocated. -/
theorem Kept.assignFresh {m' : VMem} {a : Nat} (kept : Kept S G Q m)
    (fresh : (a, x.order) ∉ m.outstanding) (kept' : Kept S G (insert (a, x.order) Q) m') (G' : View)
    (empty : G.address m'.words x = 0) (here : G'.address m'.words x = a)
    (others : ∀ y, y ≠ x → G'.address m'.words y = G.address m'.words y) (dirs : G'.dir = G.dir) :
    Kept S G' Q m' := by
  have assigned := kept'.assign G' (Or.inl rfl) empty here others dirs
  rwa [Set.insert_sdiff_self_of_notMem fun inQ => fresh (kept.owns.loose_used _ inQ)] at assigned

/-- A place gives its block up. -/
theorem Kept.drop (kept : Kept S G Q m) (G' : View) (some_ : G.address m.words x ≠ 0)
    (gone : G'.address m.words x = 0)
    (others : ∀ y, y ≠ x → G'.address m.words y = G.address m.words y) (dirs : G'.dir = G.dir) :
    Kept S G' (insert (G.address m.words x, x.order) Q) m := by
  refine ⟨kept.heap, kept.above, kept.boot, kept.pool, kept.nodup, kept.spare, ?_, dirs ▸ kept.contig,
    dirs ▸ kept.few⟩
  have nonzero : G.block m.words x ≠ 0 := by
    rw [Ne, View.block_eq_zero_iff]
    exact some_
  have dropped := kept.owns.drop_one nonzero (View.block_eq_zero_iff.2 gone) fun y other =>
    View.block_congr (others y other)
  rwa [View.block_of_ne some_] at dropped

end Places

/-! ## Storing entries -/

/-- The contents after a store. -/
def putWord (w : Words) (t i e : Nat) : Words := upd w t (upd (w t) i e)

@[simp] theorem setWord_apply (t i e : Nat) (m : VMem) :
    setWord t i e m = .done () { m with words := putWord m.words t i e } := rfl

@[simp] theorem clearTable_apply (t : Nat) (m : VMem) :
    clearTable t m = .done () { m with words := upd m.words t fun _ => 0 } := rfl

@[simp] theorem word_apply (t i : Nat) (m : VMem) : word t i m = .done (m.words t i) m := rfl

/-! ## Allocating and freeing -/

/-- What the code of `vm.c` owes: it does not sleep, it stops only for want of a page table, and
that only if it comes `short`, or as `may` allows, and page tables go back where they came from. -/
def vmStops (short : Prop) (may : VmPanic → Prop) : VContract where
  rest := fun _ => False
  fails := fun e m => e = .oom ∧ PT_ORDER ∈ m.misses ∧ short ∨ may e
  shows := fun | .kptFree taken back, _ => taken = some back
  given := fun _ => True

/-- The same, where it does not matter when page tables run out. -/
abbrev vmContract (may : VmPanic → Prop) : VContract := vmStops True may

section Alloc

variable {S : Setup} {G : View} {Q : Set (Nat × Nat)} {m : VMem} {short : Prop}
  {may : VmPanic → Prop}

/-- A block that is taken is loose. -/
theorem Kept.alloc (kept : Kept S G Q m) {b : Nat × Nat} {m' : VMem}
    (heap : Client.Inv S.N S.P S.km m'.heap) (boot : m'.boot = m.boot)
    (sub : List.Sublist m'.freelist m.freelist) (words : m'.words = m.words)
    (out : m'.outstanding = insert b m.outstanding) (fresh : b ∉ m.outstanding) (nonzero : b ≠ 0) :
    Kept S G (insert b Q) m' := by
  refine ⟨heap, kept.above, boot.trans kept.boot, kept.pool, sub.nodup kept.nodup,
    fun a member => kept.spare a (sub.mem member), ?_, words ▸ kept.contig, words ▸ kept.few⟩
  rw [words, out]
  exact kept.owns.alloc fresh nonzero

/-- A loose block that is given back. -/
theorem Kept.free (kept : Kept S G Q m) {b : Nat × Nat} {m' : VMem}
    (heap : Client.Inv S.N S.P S.km m'.heap) (boot : m'.boot = m.boot)
    (nodup : m'.freelist.Nodup) (spare : ∀ a ∈ m'.freelist, a ∈ S.boot)
    (words : m'.words = m.words) (out : m'.outstanding = m.outstanding \ {b}) (loose : b ∈ Q) :
    Kept S G (Q \ {b}) m' := by
  refine ⟨heap, kept.above, boot.trans kept.boot, kept.pool, nodup, spare, ?_, words ▸ kept.contig,
    words ▸ kept.few⟩
  rw [words, out]
  exact kept.owns.free loose

/-- **`kmalloc` fails or gives out a fresh block**, as the supply says. -/
theorem kmalloc_cases (kept : Kept S G Q m) (level : Nat) (small : level ≤ 6) :
    (∃ fails, kmalloc (level + 6) m =
        .done 0 { m with fails := fails, misses := (level + 6) :: m.misses } ∧
        m.supply.block (level + 6) = none) ∨
      ∃ mem h fails, kmalloc (level + 6) m = .done mem { m with heap := h, fails := fails } ∧
        mem ≠ 0 ∧ BOOT_END ≤ mem ∧ (mem, level + 6) ∉ m.outstanding ∧
        Kept S G (insert (mem, level + 6) Q) { m with heap := h, fails := fails } ∧
        m.supply.block (level + 6) = some (VMem.supply { m with heap := h, fails := fails }) := by
  unfold kmalloc Supply.block
  by_cases refused : m.fails.head? = some true
  · have refused' : m.supply.fails.head? = some true := refused
    rw [if_pos refused, if_pos refused']
    exact Or.inl ⟨_, rfl, rfl⟩
  · have refused' : ¬ m.supply.fails.head? = some true := refused
    rw [if_neg refused, if_neg refused']
    rcases kept.heap.kmalloc small with ⟨failed, -⟩ | ⟨b, km, got, hb, clear, inv⟩
    · have failed : m.heap.km.kmalloc (level + 6) = .ok (0, m.heap.km) := failed
      have failed' : m.supply.km.kmalloc (level + 6) = .ok (0, m.heap.km) := failed
      refine Or.inl ⟨m.fails.tail, ?_, ?_⟩
      · simp only [failed, if_true]
      · simp only [failed', if_true]
    · have got : m.heap.km.kmalloc (level + 6) =
          .ok (m.heap.km.blkid2mem (level + 6) b, km) := got
      have nonzero : m.heap.km.blkid2mem (level + 6) b ≠ 0 := kept.heap.heap.blkid2mem_ne_zero _ b
      have notLive : (m.heap.km.blkid2mem (level + 6) b, level + 6) ∉ m.heap.live := by
        intro live
        exact (kept.heap.clear_iff level b).1 clear _ live _
          ⟨Kernel.covers_self _, Kernel.covers_self _⟩
      have high : BOOT_END ≤ m.heap.km.blkid2mem (level + 6) b := by
        obtain ⟨-, low, -⟩ := kept.heap.heap.sized.block_inside small hb
        have bounds := kept.heap.bounds
        simp only [Kmem.bounds, Prod.mk.injEq] at bounds
        exact kept.above.trans (bounds.2.1 ▸ low)
      have fresh : (m.heap.km.blkid2mem (level + 6) b, level + 6) ∉ m.outstanding := by
        rintro (live | ⟨-, inBoot, -⟩)
        · exact notLive live
        · rw [kept.boot] at inBoot
          exact absurd high (Nat.not_le.2 (kept.pool.high _ inBoot))
      have got' : m.supply.km.kmalloc (level + 6) =
          .ok (m.heap.km.blkid2mem (level + 6) b, km) := got
      refine Or.inr ⟨_, ⟨km, insert (m.heap.km.blkid2mem (level + 6) b, level + 6) m.heap.live⟩,
        m.fails.tail, ?_, nonzero, high, fresh, ?_, ?_⟩
      · simp only [got, if_neg nonzero]
      · refine kept.alloc inv rfl (List.Sublist.refl _) rfl ?_ fresh ?_
        · ext x
          simp [VMem.outstanding, or_assoc]
        · exact fun isZero => nonzero (congrArg Prod.fst isZero)
      · simp only [got', if_neg nonzero]
        rfl

/-- What `kmalloc` comes to. -/
inductive Given (S : Setup) (G : View) (Q : Set (Nat × Nat)) (order : Nat) (m : VMem) :
    Nat → VMem → Prop where
  | null (fails : List Bool) (refused : m.supply.block order = none) :
      Given S G Q order m 0 { m with fails := fails, misses := order :: m.misses }
  | block (a : Nat) (h : Client) (fails : List Bool) (nonzero : a ≠ 0) (real : BOOT_END ≤ a)
      (fresh : (a, order) ∉ m.outstanding)
      (kept : Kept S G (insert (a, order) Q) { m with heap := h, fails := fails })
      (served : m.supply.block order = some (VMem.supply { m with heap := h, fails := fails })) :
      Given S G Q order m a { m with heap := h, fails := fails }

theorem kmalloc_spec (kept : Kept S G Q m) {level : Nat} (small : level ≤ 6) :
    Sat (vmStops short may) (Given S G Q (level + 6) m) (kmalloc (level + 6) m) := by
  rcases kmalloc_cases kept level small with
    ⟨fails, missed, refused⟩ | ⟨a, h, fails, got, nonzero, real, fresh, kept', served⟩
  · rw [missed]
    exact Given.null fails refused
  · rw [got]
    exact Given.block a h fails nonzero real fresh kept' served

theorem allocPage_spec (kept : Kept S G Q m) :
    Sat (vmStops short may) (Given S G Q PTE_SHIFT m) (allocPage m) := kmalloc_spec kept le_rfl

/-- **`kfree` gives a live block back.** -/
theorem kfree_live (kept : Kept S G Q m) {mem order : Nat} (live : (mem, order) ∈ m.heap.live) :
    ∃ h, kfree mem order m = .done () { m with heap := h } ∧
      Client.Inv S.N S.P S.km h ∧ h.live = m.heap.live.erase (mem, order) := by
  obtain ⟨km, freed, inv⟩ := kept.heap.kfree live
  refine ⟨⟨km, m.heap.live.erase (mem, order)⟩, ?_, inv, rfl⟩
  unfold kfree
  rw [freed]

/-- What is outstanding when a live block has been given back. -/
theorem Kept.outstanding_erase (kept : Kept S G Q m) {b : Nat × Nat} (live : b ∈ m.heap.live)
    {h : Client} (erased : h.live = m.heap.live.erase b) :
    VMem.outstanding { m with heap := h } = m.outstanding \ {b} := by
  have high := (kept.live_inside live).2
  ext x
  simp only [VMem.outstanding, erased, Finset.mem_erase, Set.mem_ofPred_eq, Set.mem_sdiff,
    Set.mem_singleton_iff]
  constructor
  · rintro (⟨other, inLive⟩ | ⟨table, inBoot, taken⟩)
    · exact ⟨Or.inl inLive, other⟩
    · refine ⟨Or.inr ⟨table, inBoot, taken⟩, ?_⟩
      rintro rfl
      rw [kept.boot] at inBoot
      exact absurd high (Nat.not_le.2 (kept.pool.high _ inBoot))
  · rintro ⟨inLive | boot, other⟩
    · exact Or.inl ⟨other, inLive⟩
    · exact Or.inr boot

/-- Freeing a loose block of the heap. -/
theorem kfree_spec (kept : Kept S G Q m) {mem order : Nat} (live : (mem, order) ∈ m.heap.live)
    (loose : (mem, order) ∈ Q) :
    ∃ h, kfree mem order m = .done () { m with heap := h } ∧
      Kept S G (Q \ {(mem, order)}) { m with heap := h } := by
  obtain ⟨h, freed, inv, erased⟩ := kfree_live kept live
  exact ⟨h, freed, kept.free inv rfl kept.nodup kept.spare rfl
    (kept.outstanding_erase live erased) loose⟩

/-- A contract under which a page table may go back where it came from. -/
def ReturnsTables (C : VContract) : Prop :=
  ∀ pool m, C.shows (.kptFree (some pool) pool) m

theorem vmStops_returnsTables : ReturnsTables (vmStops short may) := fun _ _ => rfl

/-- **`kpt_free` returns a page table to the pool it came from.** -/
theorem kptFree_spec {C : VContract} (back : ReturnsTables C)
    (kept : Kept S G Q m) {v : Nat} (loose : (v, PT_ORDER) ∈ Q) :
    Sat C (fun _ m' => Kept S G (Q \ {(v, PT_ORDER)}) m' ∧ m'.words = m.words ∧
      m'.misses = m.misses) (kptFree v m) := by
  have out := kept.owns.loose_used _ loose
  have isLive := kept.live_iff out
  unfold kptFree
  refine Sat.step (Act.get_apply m) ?_
  have taken : m.takenFrom v = some (if BOOT_END ≤ v then .buddy else .boot) := by
    unfold VMem.takenFrom
    by_cases high : BOOT_END ≤ v
    · rw [if_pos (isLive.2 high), if_pos high]
    · have notLive : (v, PT_ORDER) ∉ m.heap.live := fun live => high (isLive.1 live)
      rcases out with live | ⟨-, taken⟩
      · exact absurd live notLive
      · rw [if_neg notLive, if_pos taken, if_neg high]
  refine Sat.event (Act.emit_apply _ m) (taken ▸ back _ m) fun _ => ?_
  by_cases high : BOOT_END ≤ v
  · rw [if_pos high]
    obtain ⟨h, freed, kept'⟩ := kfree_spec kept (isLive.2 high) loose
    rw [freed]
    exact ⟨kept', rfl, rfl⟩
  · rw [if_neg high]
    have notLive : (v, PT_ORDER) ∉ m.heap.live := fun live => high (isLive.1 live)
    obtain ⟨-, inBoot, taken⟩ := out.resolve_left notLive
    refine ⟨kept.free kept.heap rfl ?_ ?_ rfl ?_ loose, rfl, rfl⟩
    · exact List.nodup_cons.2 ⟨taken, kept.nodup⟩
    · intro a member
      rcases List.mem_cons.1 member with rfl | old
      · rw [← kept.boot]
        exact inBoot
      · exact kept.spare a old
    · ext ⟨a, order⟩
      simp only [VMem.outstanding, Set.mem_ofPred_eq, Set.mem_sdiff, Set.mem_singleton_iff,
        Prod.mk.injEq, List.mem_cons, not_or]
      constructor
      · rintro (live | ⟨table, inBoot', other, taken'⟩)
        · refine ⟨Or.inl live, ?_⟩
          rintro ⟨rfl, rfl⟩
          exact notLive live
        · exact ⟨Or.inr ⟨table, inBoot', taken'⟩, fun same => other same.1⟩
      · rintro ⟨live | ⟨table, inBoot', taken'⟩, other⟩
        · exact Or.inl live
        · exact Or.inr ⟨table, inBoot', fun same => other ⟨same, table⟩, taken'⟩

/-- A page table that has just been taken is cleared. -/
theorem Kept.cleared {m' : VMem} {v : Nat} (kept : Kept S G (insert (v, PT_ORDER) Q) m')
    (words : m'.words = m.words) (misses : m'.misses = m.misses)
    (fresh : (v, PT_ORDER) ∉ m.outstanding) (loose : ∀ b ∈ Q, b ∈ m.outstanding)
    (served : m.supply.give .table = some m'.supply) :
    Sat (vmStops short may) (fun t m2 => t ≠ 0 ∧ (t, PT_ORDER) ∉ Q ∧
      Kept S G (insert (t, PT_ORDER) Q) m2 ∧ SameSpaces G m.words m2.words ∧
      (∀ j, m2.words t j = 0) ∧ m2.misses = m.misses ∧
      m.supply.give .table = some m2.supply)
      ((do clearTable v; return v : V Nat) m') := by
  have isLoose : (v, PT_ORDER) ∈ insert (v, PT_ORDER) Q := Or.inl rfl
  have same := kept.upd_loose isLoose fun _ => 0
  have low : 0x80000000 < v := kept.kernel (kept.owns.loose_used _ isLoose)
  refine ⟨by omega, fun inQ => fresh (loose _ inQ), kept.of_same same, words ▸ same, ?_, misses,
    served⟩
  intro j
  show upd m'.words v (fun _ => 0) v j = 0
  rw [upd_same]

/-- **`kpt_alloc` gives out a cleared page table**, or panics for want of one. -/
theorem kptAlloc_spec (kept : Kept S G Q m) (why : m.supply.give .table = none → short) :
    Sat (vmStops short may) (fun t m' => t ≠ 0 ∧ (t, PT_ORDER) ∉ Q ∧
      Kept S G (insert (t, PT_ORDER) Q) m' ∧ SameSpaces G m.words m'.words ∧
      (∀ j, m'.words t j = 0) ∧ m'.misses = m.misses ∧
      m.supply.give .table = some m'.supply) (kptAlloc m) := by
  unfold kptAlloc
  refine Sat.step (Act.get_apply m) ?_
  cases list : m.freelist with
  | cons v rest =>
    have inBoot : v ∈ S.boot := kept.spare v (list ▸ List.mem_cons_self)
    have nodup := kept.nodup
    rw [list] at nodup
    obtain ⟨notInRest, -⟩ := List.nodup_cons.1 nodup
    have low : 0x80000000 < v := kept.pool.low v inBoot
    have fresh : (v, PT_ORDER) ∉ m.outstanding := by
      rintro (live | ⟨-, -, taken⟩)
      · exact absurd (kept.live_inside live).2 (Nat.not_le.2 (kept.pool.high v inBoot))
      · exact taken (list ▸ List.mem_cons_self)
    have served : m.supply.give .table = some (VMem.supply { m with freelist := rest }) := by
      have left : m.supply.tables = rest.length + 1 := congrArg List.length list
      simp only [Supply.give, left]
      rfl
    refine Sat.step (Act.modify_apply _ m)
      (Kept.cleared ?_ rfl rfl fresh kept.owns.loose_used served)
    refine kept.alloc kept.heap rfl ?_ rfl ?_ fresh ?_
    · rw [list]
      exact List.sublist_cons_self v rest
    · ext ⟨a, order⟩
      simp only [VMem.outstanding, list, Set.mem_ofPred_eq, Set.mem_insert_iff, Prod.mk.injEq,
        List.mem_cons, not_or]
      constructor
      · rintro (live | ⟨table, inBoot', taken⟩)
        · exact Or.inr (Or.inl live)
        · by_cases same : a = v
          · exact Or.inl ⟨same, table⟩
          · exact Or.inr (Or.inr ⟨table, inBoot', same, taken⟩)
      · rintro (⟨rfl, rfl⟩ | live | ⟨table, inBoot', -, taken⟩)
        · exact Or.inr ⟨rfl, kept.boot ▸ inBoot, notInRest⟩
        · exact Or.inl live
        · exact Or.inr ⟨table, inBoot', taken⟩
    · exact fun isZero => absurd (congrArg Prod.fst isZero) (by show v ≠ 0; omega)
  | nil =>
    have isBlock : m.supply.give .table = m.supply.block PT_ORDER := by
      have left : m.supply.tables = 0 := congrArg List.length list
      simp only [Supply.give, left]
    rcases kmalloc_cases kept 4 (by decide) with
      ⟨fails, missed, refused⟩ | ⟨mem, h, fails, got, nonzero, -, fresh, kept', served⟩
    · refine Sat.step missed ?_
      exact Or.inl ⟨rfl, List.mem_cons_self, why (isBlock.trans refused)⟩
    · refine Sat.step got (Sat.failIf (fun isZero => ?_) fun _ => ?_)
      · exact absurd (beq_iff_eq.1 isZero) nonzero
      · exact Kept.cleared kept' rfl rfl fresh kept.owns.loose_used (isBlock.trans served)

end Alloc

end Xv6Rpi.Proc.Vm
