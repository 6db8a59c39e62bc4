/-
# Proc.ExecLoad -- the address space that `exec` builds

While `exec` works, its new address space has some number of pages, from 0 on and without a
gap, and everything that was outstanding when it began is as it was (`Built`).  What the user
will see in it is a function `g` (`Shows`), which is zero past the last page: `allocuvm` does
not change it, and loading a segment puts the bytes of the file where the segment goes.

As long as nothing has failed, the page tables are those of the pages and no others (`Tidy`), and
every step ends as its plan in `Proc.ExecPlan` says.
-/
import Xv6Rpi.Proc.ExecPlan
import Xv6Rpi.Proc.VmCopy

namespace Xv6Rpi.Proc.Exec

open Theory
open Proc.Vm
open Kernel (upd upd_same upd_ne KERNBASE)

set_option autoImplicit false

/-- A directory with `n` pages that has been made since `m0`. -/
structure Built (S : Setup) (m0 : VMem) (d n : Nat) (m : VMem) : Prop where
  held : Held S d m0.outstanding m
  only : ∀ k, entry m.words d k ≠ 0 ↔ k < n
  few : n ≤ 65536
  tables : KeepsTables m0 m
  bytes : KeepsBytes m0 m
  clean : Clean m.words d

/-- The page tables of `n` pages are there, and no others. -/
def Tidy (w : Words) (d n : Nat) : Prop := tabled w d = covered n

/-- What the user sees in the first `n` pages; past them `g` is zero. -/
structure Shows (m : VMem) (d n : Nat) (g : Nat → Byte) : Prop where
  inside : ∀ va < PTE_SZ * n, m.user d va = g va
  past : ∀ va, PTE_SZ * n ≤ va → g va = 0

section Build

variable {S : Setup} {m0 m m' : VMem} {d n k : Nat} {short : Prop} {may : VmPanic → Prop}
  {g : Nat → Byte}

theorem mapped_of_lt {va : Nat} (below : va < PTE_SZ * n) : va / PTE_SZ < n := by
  have below : va < 4096 * n := below
  show va / 4096 < n
  omega

theorem Built.reaches (built : Built S m0 d n m) : Reaches m.words d n :=
  fun j below => tableAt_ne_zero_of_entry ((built.only j).2 below)

theorem Built.grows (built : Built S m0 d n m) : m0.outstanding ⊆ m.outstanding :=
  built.held.owns.loose_used

/-- Other bytes in pages of the directory. -/
theorem Built.rebyte (built : Built S m0 d n m) {b : Nat → Byte}
    (others : ∀ a, (a, PTE_SHIFT) ∈ m0.outstanding → ∀ i < PTE_SZ, b (a + i) = m.bytes (a + i)) :
    Built S m0 d n { m with bytes := b } :=
  ⟨built.held.rebyte b, built.only, built.few, built.tables,
    fun a out i small => (others a out i small).trans (built.bytes a out i small), built.clean⟩

theorem Tidy.there (tidy : Tidy m.words d n) (i : Nat) :
    tableAt m.words d i ≠ 0 ↔ covered n i = true := by
  rw [← congrFun tidy i, tabled, decide_eq_true_iff]

/-- More pages, with their page tables. -/
theorem Tidy.adds {n' : Nat} (tidy : Tidy m.words d n) (tables : AddsTables d n n' m.words m'.words)
    (le : n ≤ n') : Tidy m'.words d n' := by
  funext i
  refine decide_eq_decide.2 ((tables i).trans ?_)
  rw [tidy.there, covered, decide_eq_true_iff]
  constructor
  · rintro (before | ⟨k, -, below, rfl⟩)
    · omega
    · omega
  · intro inside
    by_cases before : 256 * i < n
    · exact Or.inl before
    · exact Or.inr ⟨256 * i, Nat.not_lt.1 before, inside, by omega⟩

/-- `exec` begins with a directory without pages. -/
theorem Built.start (memory : Kept S nowhere m0.outstanding m0)
    (why : m0.supply.give .table = none → short) :
    Sat (vmStops short may) (fun d m => Built S m0 d 0 m ∧ Tidy m.words d 0 ∧
      (Shows m d 0 fun _ => 0) ∧ m0.supply.give .table = some m.supply) (kptAlloc m0) := by
  refine (kptAlloc_held memory why).mono fun d m post => ?_
  obtain ⟨held, empty, tables, bytes, -, served⟩ := post
  refine ⟨⟨held, fun k => iff_of_false (not_not.2 ?_) (Nat.not_lt_zero k), Nat.zero_le _, tables,
    bytes, fun i some_ => absurd (empty i) some_⟩, ?_, ⟨fun va below => ?_, fun _ _ => rfl⟩, served⟩
  · exact entry_of_tableAt_eq_zero (empty _)
  · funext i
    simp [tabled, covered, empty]
  · have below : va < 4096 * 0 := below
    omega

/-! ## More pages -/

/-- More pages: what was there stays, and new pages are the user's and hold zeros. -/
structure Extends (d n n' : Nat) (m m' : VMem) : Prop where
  stays : ∀ k < n, entry m'.words d k = entry m.words d k
  new : ∀ k, n ≤ k → k < n' → UserPage m'.words d k
  shows : ∀ g, Shows m d n g → Shows m' d n' g

theorem Extends.refl (d n : Nat) (m : VMem) : Extends d n n m m :=
  ⟨fun _ _ => rfl, fun _ above below => absurd (above.trans_lt below) (Nat.lt_irrefl _), fun _ => id⟩

/-- The pages that `allocuvm` has mapped. -/
theorem Built.gained {n' : Nat} {new : Nat → Prop} (built : Built S m0 d n m)
    (held : Held S d m0.outstanding m') (gained : Gained m0.outstanding d new m m')
    (isNew : ∀ k, new k ↔ n ≤ k ∧ k < n') (le : n ≤ n') (few : n' ≤ 65536) :
    Built S m0 d n' m' ∧ Extends d n n' m m' := by
  have stays : ∀ k < n, entry m'.words d k = entry m.words d k := by
    intro k below
    exact gained.stays k fun isNew' => absurd ((isNew k).1 isNew').1 (Nat.not_le.2 below)
  have only : ∀ k, entry m'.words d k ≠ 0 ↔ k < n' := by
    intro k
    by_cases inside : n ≤ k ∧ k < n'
    · exact iff_of_true (gained.mapped k ((isNew k).2 inside)).1 inside.2
    · rw [gained.stays k fun isNew' => inside ((isNew k).1 isNew'), built.only]
      omega
  refine ⟨⟨held, only, few, fun u out => ?_, fun a out i small => ?_, gained.clean built.clean⟩,
    stays, fun k above below => gained.mapped k ((isNew k).2 ⟨above, below⟩), fun g shows =>
      ⟨fun va below => ?_, fun va past => ?_⟩⟩
  · exact (gained.others u out).trans (built.tables u out)
  · exact (gained.bytes a (built.grows out) i small).trans (built.bytes a out i small)
  · have small : va % PTE_SZ < PTE_SZ := Nat.mod_lt va (by decide)
    by_cases old : va < PTE_SZ * n
    · have page := mapped_of_lt old
      have some_ := mt pageAt_eq_zero_iff.1 ((built.only _).2 page)
      rw [← shows.inside va old]
      refine user_congr (stays _ page) ?_
      exact gained.bytes _ (built.held.named (x := .page (va / PTE_SZ)) some_).1 _ small
    · have above : n ≤ va / PTE_SZ := by
        have old : ¬ va < 4096 * n := old
        show n ≤ va / 4096
        omega
      rw [shows.past va (Nat.not_lt.1 old)]
      exact gained.zeroed _ ((isNew _).2 ⟨above, mapped_of_lt below⟩) _ small
  · refine shows.past va (le_trans ?_ past)
    exact Nat.mul_le_mul_left PTE_SZ le

/-- **`allocuvm` extends the new address space**, or it returns 0, as `grow` says. -/
theorem Built.allocuvm {oldsz : Nat} (built : Built S m0 d (pages oldsz) m)
    (tidy : Tidy m.words d (pages oldsz)) (newsz : Nat)
    (why : grow oldsz newsz m.supply = .error .starves → short) :
    Sat (vmStops short may) (fun res m' =>
        (res = 0 ∧ (∃ n, Built S m0 d n m') ∧ grow oldsz newsz m.supply = .error .refuses) ∨
        (res ≠ 0 ∧ res = max oldsz newsz ∧ newsz < UADDR_SZ ∧ Built S m0 d (pages res) m' ∧
          Tidy m'.words d (pages res) ∧ Extends d (pages oldsz) (pages res) m m' ∧
          grow oldsz newsz m.supply = .ok (res, m'.supply))) (Vm.allocuvm d oldsz newsz m) := by
  unfold grow at why ⊢
  by_cases huge : UADDR_SZ ≤ newsz
  · unfold Vm.allocuvm
    rw [if_pos huge, if_pos huge]
    exact Or.inl ⟨rfl, ⟨_, built⟩, rfl⟩
  rw [if_neg huge] at why ⊢
  by_cases smaller : newsz < oldsz
  · unfold Vm.allocuvm
    rw [if_neg huge, if_pos smaller, if_pos smaller]
    exact Or.inr ⟨by omega, (Nat.max_eq_left smaller.le).symm, Nat.not_le.1 huge, built, tidy,
      Extends.refl .., rfl⟩
  rw [if_neg smaller] at why ⊢
  have le : oldsz ≤ newsz := Nat.not_lt.1 smaller
  have empty : ∀ k, pages oldsz ≤ k → k < pages newsz → entry m.words d k = 0 := by
    intro k above _
    by_contra some_
    exact absurd ((built.only k).1 some_) (Nat.not_lt.2 above)
  have takes : growth m.words d oldsz newsz =
      needs (covered (pages oldsz)) (pages oldsz) (pages newsz - pages oldsz) := by
    rw [growth, tidy]
  rw [← takes] at why ⊢
  have why' : newsz < UADDR_SZ →
      m.supply.serve (growth m.words d oldsz newsz) = .error .table → short := by
    intro _ refused
    refine why ?_
    rw [refused]
  refine (built.held.allocuvm le empty why').mono fun res m' post => ?_
  obtain ⟨held', -, ⟨rfl, reason, gained⟩ | ⟨rfl, below, -, gained, tables, served⟩⟩ := post
  · refine Or.inl ⟨rfl, ⟨_, (built.gained held' gained (fun k => ?_) le_rfl built.few).1⟩, ?_⟩
    · exact iff_of_false id fun inside => absurd (inside.1.trans_lt inside.2) (Nat.lt_irrefl _)
    · rcases reason with ⟨tooLarge, -⟩ | ⟨-, refused⟩
      · exact absurd tooLarge huge
      · rw [refused]
  · obtain ⟨built', extends_⟩ := built.gained held' gained (fun _ => Iff.rfl) (pages_le le)
      (pages_bounded below.le)
    rw [served]
    dsimp only
    by_cases none_ : res = 0
    · rw [if_pos none_]
      exact Or.inl ⟨none_, ⟨_, built'⟩, rfl⟩
    · rw [if_neg none_]
      exact Or.inr ⟨none_, (Nat.max_eq_right le).symm, below, built', tidy.adds tables (pages_le le),
        extends_, rfl⟩

/-! ## Segments -/

theorem shows_placed {a : Nat} {data : List Byte} (built : Built S m0 d n m) (shows : Shows m d n g)
    (fits : a + data.length ≤ PTE_SZ * n)
    (user : ∀ va, entry m.words d (va / PTE_SZ) ≠ 0 → m'.user d va = placed (m.user d) a data va) :
    Shows m' d n (placed g a data) := by
  refine ⟨fun va below => ?_, fun va past => ?_⟩
  · rw [user va ((built.only _).2 (mapped_of_lt below))]
    exact placed_congr (shows.inside va below)
  · rw [placed_outside (by omega)]
    exact shows.past va past

/-- The bytes of a segment up to page `j` and those of that page. -/
theorem slice_append {size : Nat} (b : Bytes size) (off x y : Nat) :
    b.slice off x ++ b.slice (off + x) y = b.slice off (x + y) := by
  simp only [Bytes.slice, List.range_add, List.map_append, List.map_map, Function.comp_def, Nat.add_assoc]

/-- `readi` that returns what it was asked for. -/
theorem readBytes_whole {f : FileBytes} {off len : Nat} (whole : f.readi off len = len) :
    f.readBytes off len = f.bytes.slice off len := by
  rw [FileBytes.readBytes, whole, Int.toNat_natCast]

theorem length_readBytes_le (f : FileBytes) (off len : Nat) : (f.readBytes off len).length ≤ len := by
  rw [FileBytes.readBytes, Bytes.length_slice, FileBytes.readi]
  split
  · exact Nat.zero_le _
  · split
    · omega
    · exact le_of_eq (Int.toNat_natCast len)

/-- A read that returns what it was asked for lies inside the file. -/
theorem readi_whole {f : FileBytes} {off len : Nat} (whole : f.readi off len = len) (some_ : 0 < len) :
    off + len ≤ f.size := by
  rw [FileBytes.readi] at whole
  split at whole
  · omega
  · split at whole <;> omega

/-- Where `loaduvm` puts the bytes for page `k`, if there is a page table: into the page, or for want
of one to the beginning of the kernel's memory. -/
def target (w : Words) (d n k : Nat) : Nat := if k < n then pageAt w d k else KERNBASE

theorem Built.target_eq (built : Built S m0 d n m) (there : tableAt m.words d (k / 256) ≠ 0) :
    p2v (pteAddr (m.words (tableAt m.words d (k / 256)) (k % 256))) = target m.words d n k := by
  have isEntry := entry_eq (k := k) rfl there
  unfold target
  by_cases inside : k < n
  · have some_ := (built.only k).2 inside
    rw [if_pos inside, pageAt, if_neg some_]
    split at isEntry
    · rw [isEntry]
    · exact absurd isEntry some_
  · have none_ : entry m.words d k = 0 := not_not.1 (mt (built.only k).1 inside)
    rw [if_neg inside]
    rcases built.clean _ there (k % 256) with on | zero
    · rw [if_pos on, none_] at isEntry
      exact absurd isEntry.symm (present_ne_zero on)
    · rw [zero]
      rfl

/-- Pages are above the beginning of the kernel's memory. -/
theorem placed_low {data : List Byte} {Q : Set (Nat × Nat)} (memory : Kept S nowhere Q m)
    (short_ : data.length ≤ PTE_SZ) {a : Nat} (out : (a, PTE_SHIFT) ∈ m.outstanding) (i : Nat) :
    placed m.bytes KERNBASE data (a + i) = m.bytes (a + i) := by
  have short_ : data.length ≤ 4096 := short_
  have high : 0x80000000 + 0x100000 ≤ a := (memory.live_inside (Kept.live_of_page out rfl)).2
  have isBase : KERNBASE = 0x80000000 := rfl
  exact placed_outside (by omega)

/-- Bytes read for a page of the segment change no page in use when `exec` began. -/
theorem Built.fill (built : Built S m0 d n m) (k : Nat) {data : List Byte}
    (short_ : data.length ≤ PTE_SZ) :
    Built S m0 d n { m with bytes := placed m.bytes (target m.words d n k) data } := by
  refine built.rebyte fun a out i small => ?_
  unfold target
  by_cases inside : k < n
  · rw [if_pos inside]
    exact built.held.keeps_placed 0 ((built.only k).2 inside) (by omega) out small
  · rw [if_neg inside]
    exact placed_low built.held.memory short_ (built.grows out) i

/-- A page table that is not there. -/
theorem Tidy.missing (tidy : Tidy m.words d n)
    (none_ : covered n (PDE_IDX (PTE_SZ * k)) = false) (nonzero : d ≠ 0) :
    walkpgdir d (PTE_SZ * k) false m = .fail .overrun m ∨
      walkpgdir d (PTE_SZ * k) false m = .done none m := by
  by_cases past : 65536 ≤ k
  · exact Or.inl (walkpgdir_past past false)
  · rw [PDE_IDX_page] at none_
    have noTable : tableAt m.words d (k / 256) = 0 := by
      by_contra some_
      rw [(tidy.there _).1 some_] at none_
      cases none_
    rw [walkpgdir_look nonzero (Nat.not_le.1 past), if_pos noTable]
    exact Or.inr rfl

/-- What loading the pages of a segment comes to, from page `j` on: what `fills` says; the file has
the bytes that have been loaded, and they show where the segment goes if that is inside the address
space. -/
structure SegmentLoaded (S : Setup) (m0 : VMem) (d n addr : Nat) (f : FileBytes) (offset sz j c : Nat)
    (plan : Except Verdict Unit) (m : VMem) (ok : Bool) (m' : VMem) : Prop where
  built : Built S m0 d n m'
  words : m'.words = m.words
  supply : m'.supply = m.supply
  plan : plan = if ok then .ok () else .error .refuses
  inFile : ok = true → offset + PTE_SZ * j < UINTS → 0 < c → offset + sz ≤ f.size
  shows : ok = true → addr + sz ≤ PTE_SZ * n → offset + PTE_SZ * j < UINTS → ∀ g,
    Shows m d n (placed g addr (f.bytes.slice offset (min sz (PTE_SZ * j)))) →
    Shows m' d n (placed g addr (f.bytes.slice offset sz))

/-- The pages of a segment from page `j` on. -/
theorem Built.loadPages {addr offset sz : Nat} (f : FileBytes) (aligned : addr % 4096 = 0) :
    ∀ (c j : Nat) (m : VMem), Built S m0 d n m → Tidy m.words d n → j + c = pages sz →
      (fills addr f offset sz n ((List.range' j c).map (PTE_SZ * ·)) = .error .breaks →
        ∀ e, Verdict.breaks.panics e → may e) →
      Sat (vmStops short may) (SegmentLoaded S m0 d n addr f offset sz j c
          (fills addr f offset sz n ((List.range' j c).map (PTE_SZ * ·))) m)
        (Vm.loadPages d addr f offset sz ((List.range' j c).map (PTE_SZ * ·)) m) := by
  intro c
  induction c with
  | zero =>
    intro j m built _ whole _
    have last : min sz (PTE_SZ * j) = sz := by
      have whole : j + 0 = (sz + 4095) / 4096 := whole
      show min sz (4096 * j) = sz
      omega
    refine ⟨built, rfl, rfl, rfl, fun _ _ never => absurd never (Nat.lt_irrefl 0),
      fun _ _ _ g shows => ?_⟩
    rwa [last] at shows
  | succ c ih =>
    intro j m built tidy whole breaks
    have inside : 4096 * j < sz := by
      have whole : j + (c + 1) = (sz + 4095) / 4096 := whole
      omega
    obtain ⟨k, isPage⟩ : ∃ k, (addr + PTE_SZ * j) % UINTS = PTE_SZ * k := by
      refine ⟨(addr + 4096 * j) % 4294967296 / 4096, ?_⟩
      show (addr + 4096 * j) % 4294967296 = 4096 * ((addr + 4096 * j) % 4294967296 / 4096)
      omega
    rw [List.range'_succ, List.map_cons] at breaks ⊢
    rw [Vm.loadPages, isPage]
    rw [fills, isPage] at breaks ⊢
    cases there : covered n (PDE_IDX (PTE_SZ * k)) with
    | false =>
      rw [there] at breaks
      have panics := breaks rfl
      rcases tidy.missing there built.held.nonzero with past | none_
      · rw [Act.bind_apply, past]
        exact Or.inr (panics _ (Or.inr (Or.inr rfl)))
      · rw [Act.bind_apply, none_]
        exact Or.inr (panics _ (Or.inr (Or.inl rfl)))
    | true =>
    rw [there, Bool.not_true, if_neg Bool.false_ne_true] at breaks
    rw [Bool.not_true, if_neg Bool.false_ne_true]
    have few := built.few
    rw [PDE_IDX_page] at there
    have small : k < 65536 := by
      have below := of_decide_eq_true there
      omega
    have table : tableAt m.words d (k / 256) ≠ 0 := (tidy.there _).2 there
    refine Sat.step (walkpgdir_look built.held.nonzero small) ?_
    rw [if_neg table]
    refine Sat.step (word_apply ..) ?_
    rw [built.target_eq table]
    generalize isOff : (offset + PTE_SZ * j) % UINTS = off at breaks ⊢
    generalize isLen : FileBytes.chunk sz (PTE_SZ * j) = len at breaks ⊢
    have isLen : (if sz - 4096 * j < 4096 then sz - 4096 * j else 4096) = len := isLen
    have inPage : (f.readBytes off len).length ≤ PTE_SZ := by
      have short_ := length_readBytes_le f off len
      show (f.readBytes off len).length ≤ 4096
      split at isLen <;> omega
    have built1 := built.fill k inPage
    refine Sat.step rfl ?_
    by_cases read : f.readi off len = len
    · rw [if_pos read] at breaks
      rw [if_pos read, if_pos read]
      refine (ih (j + 1) _ built1 tidy (by omega) breaks).mono fun ok m' post => ?_
      obtain ⟨built', words', supply', plan', more, rest⟩ := post
      have small : f.size ≤ 71680 := f.fits
      have inFile := readi_whole read (by split at isLen <;> omega)
      -- nothing wraps around
      have offEq : offset + PTE_SZ * j < UINTS → offset + 4096 * j = off := by
        intro low
        have low : offset + 4096 * j < 4294967296 := low
        have isOff : (offset + 4096 * j) % 4294967296 = off := isOff
        omega
      have next : offset + PTE_SZ * j < UINTS → offset + PTE_SZ * (j + 1) < UINTS := by
        intro low
        have := offEq low
        show offset + 4096 * (j + 1) < 4294967296
        omega
      refine ⟨built', words', supply', plan', fun isOk low _ => ?_, fun isOk fits low g shows => ?_⟩
      · have offEq := offEq low
        by_cases last : c = 0
        · have whole : j + (c + 1) = (sz + 4095) / 4096 := whole
          split at isLen <;> omega
        · exact more isOk (next low) (Nat.pos_of_ne_zero last)
      have fits' : addr + sz ≤ 4096 * n := fits
      have kEq : addr + 4096 * j = 4096 * k := by
        have isPage : (addr + 4096 * j) % 4294967296 = 4096 * k := isPage
        omega
      have mapped : k < n := by omega
      refine rest isOk fits (next low) g ?_
      have before : min sz (PTE_SZ * j) = 4096 * j := Nat.min_eq_right inside.le
      have after : min sz (PTE_SZ * (j + 1)) = 4096 * j + len := by
        show min sz (4096 * (j + 1)) = 4096 * j + len
        split at isLen <;> omega
      rw [before] at shows
      rw [after, ← slice_append, ← placed_append, Bytes.length_slice, offEq low, kEq,
        ← readBytes_whole read]
      refine shows_placed built shows ?_ fun va mapped' => ?_
      · show 4096 * k + (f.readBytes off len).length ≤ 4096 * n
        have short_ := length_readBytes_le f off len
        split at isLen <;> omega
      · rw [target, if_pos mapped]
        exact built.held.user_placed 0 ((built.only k).2 mapped) (by omega) mapped'
    · rw [if_neg read, if_neg read]
      exact ⟨built1, rfl, rfl, rfl, fun never => absurd never Bool.false_ne_true,
        fun never => absurd never Bool.false_ne_true⟩

/-- **`loaduvm` puts a segment into the new address space**, or ends as `lands` says. -/
theorem Built.loaduvm (built : Built S m0 d n m) (tidy : Tidy m.words d n) (f : FileBytes)
    (ph : Proghdr) (low : ph.off < UINTS)
    (breaks : lands f ph n = .error .breaks → ∀ e, Verdict.breaks.panics e → may e) :
    Sat (vmStops short may) (fun ok m' => Built S m0 d n m' ∧ m'.words = m.words ∧
      m'.supply = m.supply ∧ (lands f ph n = if ok then .ok () else .error .refuses) ∧
      (ok = true → 0 < ph.filesz → ph.off + ph.filesz ≤ f.size) ∧
      (ok = true → ph.vaddr + ph.filesz ≤ PTE_SZ * n → ∀ g, Shows m d n g →
        Shows m' d n (placed g ph.vaddr (f.bytes.slice ph.off ph.filesz))))
      (Vm.loaduvm d ph.vaddr f ph.off ph.filesz m) := by
  unfold Vm.loaduvm
  unfold lands at breaks ⊢
  refine Sat.failIf (fun bad => ?_) fun aligned => ?_
  · rw [if_pos (by simpa using bad)] at breaks
    exact Or.inr (breaks rfl _ (Or.inl rfl))
  have aligned : ph.vaddr % 4096 = 0 := by simpa using aligned
  have range : pagesFrom 0 ph.filesz = (List.range' 0 (pages ph.filesz)).map (PTE_SZ * ·) :=
    pagesFrom_page 0 ph.filesz
  rw [if_neg (not_not.2 aligned), range] at breaks
  rw [if_neg (not_not.2 aligned), range]
  refine (Built.loadPages f aligned (pages ph.filesz) 0 m built tidy (Nat.zero_add _) breaks).mono
    fun ok m' post => ?_
  refine ⟨post.built, post.words, post.supply, post.plan, fun isOk some_ => post.inFile isOk low ?_,
    fun isOk fits g start => post.shows isOk fits low g ?_⟩
  · show 0 < (ph.filesz + 4095) / 4096
    omega
  have nothing : f.bytes.slice ph.off (min ph.filesz (PTE_SZ * 0)) = [] := by simp [Bytes.slice]
  rw [nothing, placed_nil]
  exact start

/-- The segments that are loaded. -/
def loadable (headers : List (Option Proghdr)) : List Proghdr :=
  (headers.filterMap id).filter fun ph => ph.type == FileBytes.ELF_PROG_LOAD

/-- The contents of memory with the segments of a file put where they go. -/
def imageOf (f : FileBytes) (segments : List Proghdr) (g : Nat → Byte) : Nat → Byte :=
  segments.foldl (fun g ph => placed g ph.vaddr (f.bytes.slice ph.off ph.filesz)) g

/-- The address `x` is one of the bytes of the file that a segment has. -/
def Proghdr.Covers (ph : Proghdr) (x : Nat) : Prop := ph.vaddr ≤ x ∧ x < ph.vaddr + ph.filesz

theorem imageOf_outside {f : FileBytes} {segments : List Proghdr} {x : Nat}
    (outside : ∀ ph ∈ segments, ¬ ph.Covers x) : imageOf f segments g x = g x := by
  induction segments generalizing g with
  | nil => rfl
  | cons ph rest ih =>
    rw [imageOf, List.foldl_cons]
    refine (ih fun q member => outside q (List.mem_cons_of_mem _ member)).trans (placed_outside ?_)
    rw [Bytes.length_slice]
    exact outside ph List.mem_cons_self

/-- Segments that do not overlap show as they are in the file. -/
theorem imageOf_inside {f : FileBytes} {segments : List Proghdr}
    (apart : segments.Pairwise fun p q => ∀ x, ¬ (p.Covers x ∧ q.Covers x)) {ph : Proghdr}
    (member : ph ∈ segments) {i : Nat} (inside : i < ph.filesz) :
    imageOf f segments g (ph.vaddr + i) = f.bytes.get (ph.off + i) := by
  induction segments generalizing g with
  | nil => cases member
  | cons q rest ih =>
    obtain ⟨first, apart'⟩ := List.pairwise_cons.1 apart
    rw [imageOf, List.foldl_cons]
    rcases List.mem_cons.1 member with rfl | later
    · have covers : ph.Covers (ph.vaddr + i) :=
        ⟨Nat.le_add_right _ _, Nat.add_lt_add_left inside _⟩
      refine (imageOf_outside fun q member both => first q member _ ⟨covers, both⟩).trans ?_
      rw [placed_inside (by rwa [Bytes.length_slice])]
      simp [Bytes.slice]
    · exact ih apart' later

/-- What the loop over the program headers comes to. -/
def Loaded (S : Setup) (m0 : VMem) (d : Nat) (f : FileBytes) (segments : List Proghdr) (sz : Nat)
    (plan : Except Verdict (Nat × Supply)) (m : VMem) : Option Nat → VMem → Prop
  | none, m' => (∃ n, Built S m0 d n m') ∧ plan = .error .refuses
  | some sz', m' => sz' < UADDR_SZ ∧ Built S m0 d (pages sz') m' ∧ Tidy m'.words d (pages sz') ∧
      plan = .ok (sz', m'.supply) ∧ (∀ k < pages sz', UserPage m'.words d k) ∧
      (∀ ph ∈ segments, ph.filesz ≤ ph.memsz ∧ (0 < ph.filesz → ph.off + ph.filesz ≤ f.size)) ∧
      ((∀ ph ∈ segments, ph.vaddr + ph.memsz < UINTS) → sz ≤ sz' ∧
        (∀ ph ∈ segments, ph.vaddr + ph.memsz ≤ sz') ∧
        ∀ g, Shows m d (pages sz) g → Shows m' d (pages sz') (imageOf f segments g))

theorem shows_self (m : VMem) (d n : Nat) :
    Shows m d n fun va => if va < PTE_SZ * n then m.user d va else 0 :=
  ⟨fun _ below => (if_pos below).symm, fun _ past => if_neg (Nat.not_lt.2 past)⟩

theorem le_pages (sz : Nat) : sz ≤ PTE_SZ * pages sz := by
  show sz ≤ 4096 * ((sz + 4095) / 4096)
  omega

/-- **The loop over the program headers** loads the segments or gives up, as `loads` says. -/
theorem Built.loadProgram (f : FileBytes) : ∀ (headers : List (Option Proghdr)) (sz : Nat) (m : VMem),
    Built S m0 d (pages sz) m → Tidy m.words d (pages sz) → sz < UADDR_SZ →
    (∀ k < pages sz, UserPage m.words d k) → (∀ ph, some ph ∈ headers → ph.off < UINTS) →
    (loads f headers sz m.supply = .error .starves → short) →
    (loads f headers sz m.supply = .error .breaks → ∀ e, Verdict.breaks.panics e → may e) →
    Sat (vmStops short may) (Loaded S m0 d f (loadable headers) sz (loads f headers sz m.supply) m)
      (Exec.loadProgram d f headers sz m) := by
  intro headers
  induction headers with
  | nil =>
    intro sz m built tidy small user _ _ _
    exact ⟨small, built, tidy, rfl, user, fun _ never => (nomatch never),
      fun _ => ⟨le_rfl, fun _ never => (nomatch never), fun _ => id⟩⟩
  | cons head rest ih =>
    intro sz m built tidy small user offsets starves breaks
    have offsets' : ∀ ph, some ph ∈ rest → ph.off < UINTS :=
      fun ph member => offsets ph (List.mem_cons_of_mem _ member)
    cases head with
    | none => exact ⟨⟨_, built⟩, rfl⟩
    | some ph =>
      rw [Exec.loadProgram]
      rw [loads] at starves breaks ⊢
      by_cases other : ph.type ≠ FileBytes.ELF_PROG_LOAD
      · have same : loadable (some ph :: rest) = loadable rest := by
          simp [loadable, other]
        rw [if_pos other] at starves breaks
        rw [if_pos other, if_pos other, same]
        exact ih sz m built tidy small user offsets' starves breaks
      have isLoad : loadable (some ph :: rest) = ph :: loadable rest := by
        simp [loadable, not_not.1 other]
      rw [if_neg other] at starves breaks
      rw [if_neg other, if_neg other]
      by_cases short_ : ph.memsz < ph.filesz
      · rw [if_pos short_, if_pos short_]
        exact ⟨⟨_, built⟩, rfl⟩
      rw [if_neg short_] at starves breaks
      rw [if_neg short_, if_neg short_]
      have why : grow sz ((ph.vaddr + ph.memsz) % UINTS) m.supply = .error .starves → short := by
        intro refused
        rw [refused] at starves
        exact starves rfl
      refine (built.allocuvm tidy _ why).seq fun sz1 m1 post => ?_
      rcases post with ⟨failed, built1, plan⟩ | ⟨nonzero, isMax, below, built1, tidy1, extends1, plan⟩
      · rw [if_pos failed, plan]
        exact ⟨built1, rfl⟩
      rw [if_neg nonzero]
      rw [plan] at starves breaks ⊢
      have small1 : sz1 < UADDR_SZ := isMax ▸ max_lt small below
      have user1 : ∀ k < pages sz1, UserPage m1.words d k := by
        intro k inside
        by_cases old : k < pages sz
        · unfold UserPage
          rw [extends1.stays k old]
          exact user k old
        · exact extends1.new k (Nat.not_lt.1 old) inside
      have breaks1 : lands f ph (pages sz1) = .error .breaks →
          ∀ e, Verdict.breaks.panics e → may e := by
        intro outside
        refine breaks ?_
        show (lands f ph (pages sz1)).bind _ = _
        rw [outside]
        rfl
      refine (built1.loaduvm tidy1 f ph (offsets ph List.mem_cons_self) breaks1).seq
        fun ok m2 post2 => ?_
      obtain ⟨built2, words2, supply2, plan2, inFile2, shows2⟩ := post2
      simp only [bind, Except.bind, plan2] at starves breaks ⊢
      cases ok with
      | false => exact ⟨⟨_, built2⟩, rfl⟩
      | true =>
        rw [if_pos rfl]
        rw [if_pos rfl, ← supply2] at starves breaks ⊢
        refine (ih sz1 m2 built2 (words2 ▸ tidy1) small1 (words2 ▸ user1) offsets' starves
          breaks).mono fun res m' loaded => ?_
        cases res with
        | none => exact loaded
        | some sz' =>
          obtain ⟨small', built', tidy', plan', user', inFile, sound⟩ := loaded
          rw [isLoad]
          refine ⟨small', built', tidy', plan', user', fun q member => ?_, fun noWrap => ?_⟩
          · rcases List.mem_cons.1 member with rfl | old
            · exact ⟨Nat.not_lt.1 short_, inFile2 rfl⟩
            · exact inFile q old
          obtain ⟨le', ends', shows'⟩ :=
            sound fun q member => noWrap q (List.mem_cons_of_mem _ member)
          have whole : (ph.vaddr + ph.memsz) % UINTS = ph.vaddr + ph.memsz :=
            Nat.mod_eq_of_lt (noWrap ph List.mem_cons_self)
          rw [whole] at isMax
          have reaches : ph.vaddr + ph.memsz ≤ sz1 := isMax ▸ le_max_right _ _
          have inside : ph.vaddr + ph.filesz ≤ sz1 := by omega
          refine ⟨(isMax ▸ le_max_left _ _ : sz ≤ sz1).trans le', fun q member => ?_,
            fun g start => ?_⟩
          · rcases List.mem_cons.1 member with rfl | old
            · exact reaches.trans le'
            · exact ends' q old
          · exact shows' _ (shows2 rfl (inside.trans (le_pages sz1)) g (extends1.shows g start))

/-! ## The stack -/

/-- The new address space with its stack: above the program one page for the kernel only and one
for the stack. -/
structure Stacked (S : Setup) (m0 : VMem) (d n : Nat) (m : VMem) : Prop where
  built : Built S m0 d (n + 2) m
  tidy : Tidy m.words d (n + 2)
  small : topOf n < UADDR_SZ
  guard : pteAp (entry m.words d n) = AP_KO
  stack : UserPage m.words d (n + 1)

theorem Stacked.notUser (stacked : Stacked S m0 d n m) : ¬ UserPage m.words d n := by
  rintro ⟨-, user⟩
  rw [stacked.guard] at user
  cases user

/-- The stack of an image, in numbers. -/
theorem Stacked.top_bounds (stacked : Stacked S m0 d n m) :
    topOf n < UINTS ∧ topOf n % 4 = 0 ∧ PTE_SZ * (n + 1) ≤ topOf n := by
  refine ⟨stacked.small.trans (by decide), ?_, Nat.mul_le_mul_left _ (by omega)⟩
  show 4096 * (n + 2) % 4 = 0
  omega

theorem pages_mul (c : Nat) : pages (PTE_SZ * c) = c := by
  show (4096 * c + 4095) / 4096 = c
  omega

/-- `stackPages` on top of `n` pages. -/
theorem stackPages_eq {sz : Nat} (small : sz < UADDR_SZ) (isN : pages sz = n) :
    Exec.stackPages d sz = (do
      let top ← Vm.allocuvm d (PTE_SZ * n) (topOf n)
      if top = 0 then return none
      else do
        Vm.clearpteu d (top - 2 * PTE_SZ)
        return some top) := by
  have few : n ≤ 65536 := isN ▸ pages_bounded small.le
  have whole : alignUp sz PTE_SZ = PTE_SZ * n := isN ▸ alignUp_eq small.le
  have top : (PTE_SZ * n + 2 * PTE_SZ) % UINTS = topOf n := by
    show (4096 * n + 2 * 4096) % 4294967296 = 4096 * (n + 2)
    omega
  rw [← top, ← whole]
  rfl

/-- The page below the stack is taken away from the user. -/
theorem Built.guarded (built : Built S m0 d (n + 2) m) (tidy : Tidy m.words d (n + 2))
    (small : topOf n < UADDR_SZ) (stack : UserPage m.words d (n + 1)) :
    Sat (vmStops short may) (fun _ m' => Stacked S m0 d n m' ∧ m'.supply = m.supply ∧
      ∀ g, Shows m d (n + 2) g → Shows m' d (n + 2) g) (Vm.clearpteu d (PTE_SZ * n) m) := by
  have there : entry m.words d n ≠ 0 := (built.only n).2 (by omega)
  obtain ⟨samePage, on⟩ := pteAddr_kernelOnly (present_entry there)
  refine (built.held.clearpteu (by have := built.few; omega) there).mono fun _ m' post => ?_
  obtain ⟨held', bytes', change, tables', -, supply'⟩ := post
  have here : entry m'.words d n = kernelOnly (entry m.words d n) := by
    rw [change.mine, upd_same]
  have same : ∀ k, k ≠ n → entry m'.words d k = entry m.words d k := by
    intro k ne
    rw [change.mine, upd_ne _ _ ne]
  have pagesStay : ∀ k, pageAt m'.words d k = pageAt m.words d k := by
    intro k
    by_cases isGuard : k = n
    · rw [isGuard, pageAt, here, if_neg (present_ne_zero on), pageAt, if_neg there, samePage]
    · rw [pageAt, same k isGuard, pageAt]
  refine ⟨⟨⟨held', fun k => ?_, built.few, fun u out => ?_, fun a out i inside => ?_,
    change.clean built.clean⟩, ?_, small, ?_, ?_⟩, supply',
    fun g shows => ⟨fun va low => ?_, shows.past⟩⟩
  · by_cases isGuard : k = n
    · rw [isGuard, here]
      exact iff_of_true (present_ne_zero on) (by omega)
    · rw [same k isGuard]
      exact built.only k
  · exact (change.others u out).trans (built.tables u out)
  · rw [bytes']
    exact built.bytes a out i inside
  · rw [Tidy, ← tidy]
    funext i
    simp only [tabled, tables']
  · rw [here]
    exact pteAp_kernelOnly _
  · unfold UserPage
    rw [same _ (by omega)]
    exact stack
  · rw [← shows.inside va low, VMem.user, pagesStay, bytes']
    rfl

-- a goal about it must not make Lean compute sizes
attribute [local irreducible] Vm.allocuvm

/-- What comes of the stack pages. -/
def StackMade (S : Setup) (m0 : VMem) (d n : Nat) (plan : Except Verdict (Nat × Supply)) (m : VMem) :
    Option Nat → VMem → Prop
  | none, m' => (∃ n, Built S m0 d n m') ∧ plan = .error .refuses
  | some top, m' => top = topOf n ∧ Stacked S m0 d n m' ∧ plan = .ok (top, m'.supply) ∧
      ∀ g, Shows m d n g → Shows m' d (n + 2) g

/-- **The stack pages** come on top of the program, as `grow` says. -/
theorem Built.stackPages {sz : Nat} (built : Built S m0 d n m) (tidy : Tidy m.words d n)
    (small : sz < UADDR_SZ) (isN : pages sz = n)
    (why : grow (PTE_SZ * n) (topOf n) m.supply = .error .starves → short) :
    Sat (vmStops short may) (StackMade S m0 d n (grow (PTE_SZ * n) (topOf n) m.supply) m)
      (Exec.stackPages d sz m) := by
  rw [stackPages_eq small isN]
  have built : Built S m0 d (pages (PTE_SZ * n)) m := by rwa [pages_mul]
  have tidy : Tidy m.words d (pages (PTE_SZ * n)) := by rwa [pages_mul]
  refine (built.allocuvm tidy _ why).seq fun res m1 post => ?_
  rcases post with ⟨failed, built1, plan⟩ | ⟨nonzero, isMax, below, built1, tidy1, extends1, plan⟩
  · rw [if_pos failed]
    exact ⟨built1, plan⟩
  · rw [if_neg nonzero]
    have isTop : res = topOf n := by
      rw [isMax]
      show max (4096 * n) (4096 * (n + 2)) = 4096 * (n + 2)
      omega
    have guard : res - 2 * PTE_SZ = PTE_SZ * n := by
      rw [isTop]
      show 4096 * (n + 2) - 2 * 4096 = 4096 * n
      omega
    rw [isTop, pages_mul] at built1 tidy1 extends1
    rw [pages_mul] at extends1
    rw [guard]
    refine (built1.guarded tidy1 below (extends1.new _ (by omega) (by omega))).seq
      fun _ m2 post2 => ?_
    obtain ⟨stacked, supply2, shows2⟩ := post2
    refine ⟨isTop, stacked, ?_, fun g shows => shows2 g (extends1.shows g shows)⟩
    rw [plan, supply2]

end Build

end Xv6Rpi.Proc.Exec
