/-
# Proc.VmGrow -- what `sbrk` promises

`growproc` is to move the end of an address space by `n` bytes or to leave it as it is
(`Settled`).  It does, except for a request to give up at least all that a process has: giving
up all of it frees the pages and reports a failure, and for more than that the sum wraps
around and nothing happens, which is reported as a success.

`growproc_settles` tells the two apart; `growproc_contract` reads it off for every state of
every run.  When the first thing that cannot be had for growing is a page table (`Sys.Starves`),
`kpt_alloc` panics.
-/
import Xv6Rpi.Proc.VmRun

namespace Xv6Rpi.Proc.Vm

open Theory
open Kernel (Kmem Pid Region upd upd_same upd_ne noHeap)

set_option autoImplicit false

/-- The address space of `p` has grown or shrunk by `n` bytes. -/
structure Moved (s s' : Sys) (p : Pid) (n : Int) : Prop where
  size : ((s'.procs p).sz : Int) = (s.procs p).sz + n
  below : (s'.procs p).sz < UADDR_SZ
  pgdir : (s'.procs p).pgdir = (s.procs p).pgdir
  pages : s'.mem.Exactly (s.procs p).pgdir (s'.procs p).sz
  bytes : ∀ va < min (s.procs p).sz (s'.procs p).sz,
    s'.mem.user (s.procs p).pgdir va = s.mem.user (s.procs p).pgdir va
  zeros : Zeroed s'.mem (s.procs p).pgdir (Vm.pages (s.procs p).sz) (Vm.pages (s'.procs p).sz)

/-- The address space of `p` is as it was. -/
structure Stayed (s s' : Sys) (p : Pid) : Prop where
  size : (s'.procs p).sz = (s.procs p).sz
  pgdir : (s'.procs p).pgdir = (s.procs p).pgdir
  entries : ∀ k, entry s'.mem.words (s.procs p).pgdir k = entry s.mem.words (s.procs p).pgdir k

/-- What `growproc` is to do. -/
def Settled (s : Sys) (p : Pid) (n r : Int) (s' : Sys) : Prop :=
  r = 0 ∧ Moved s s' p n ∨ r = -1 ∧ Stayed s s' p

/-- Giving up at least all there is. -/
def TakesAll (s : Sys) (p : Pid) (n : Int) : Prop := 0 < (s.procs p).sz ∧ n ≤ -((s.procs p).sz : Int)

variable {short : Prop} {may : VmPanic → Prop} {S : Setup} {s : Sys} {p : Pid} {n : Int}

/-! ## One call -/

theorem pages_of_lt {va sz : Nat} (below : va < sz) : va / PTE_SZ < pages sz := by
  show va / 4096 < (sz + 4095) / 4096
  omega

/-- What `growproc` does with the size that `allocuvm` or `deallocuvm` returns. -/
def Resizes (s : Sys) (p : Pid) (n : Int) (sz : Nat) (m : VMem) : Prop :=
  ¬ s.Starves p n ∧ if n ≠ 0 ∧ sz = 0 then (Settled s p n (-1) { s with mem := m } ↔ ¬ TakesAll s p n)
  else (Settled s p n 0
    { s with mem := m, procs := upd s.procs p { s.procs p with sz := sz } } ↔ ¬ TakesAll s p n)

/-- A new size, and the memory it is the size of. -/
theorem moved_upd {sz : Nat} {m : VMem} (size : (sz : Int) = (s.procs p).sz + n) (below : sz < UADDR_SZ)
    (pages : m.Exactly (s.procs p).pgdir sz)
    (bytes : ∀ va < min (s.procs p).sz sz, m.user (s.procs p).pgdir va = s.mem.user (s.procs p).pgdir va)
    (zeros : Zeroed m (s.procs p).pgdir (Vm.pages (s.procs p).sz) (Vm.pages sz)) :
    Moved s { s with mem := m, procs := upd s.procs p { s.procs p with sz := sz } } p n := by
  constructor <;> simp only [upd_same] <;> assumption

variable (inv : s.Inv S) (running : (s.procs p).state = .runnable)
  (exactly : s.mem.Exactly (s.procs p).pgdir (s.procs p).sz)
include inv running exactly

/-- **Growing**: new pages of zeros, or nothing. -/
theorem growUp_settles (pos : 0 < n) (high : n < 2147483648) (why : s.Starves p n → short) :
    Sat (vmStops short may) (Resizes s p n)
      (allocuvm (s.procs p).pgdir (s.procs p).sz (grown (s.procs p).sz n) s.mem) := by
  have isDir := owners_dir (used_of_runnable running)
  have notAll : ¬ TakesAll s p n := fun all => by
    have := all.2
    omega
  refine (growUp_alloc inv running pos high why).mono fun res m post => ?_
  obtain ⟨-, calm, fed, ⟨rfl, edit⟩ | ⟨isSum, le, below, grew⟩⟩ := post
  · refine ⟨fed, ?_⟩
    rw [if_pos ⟨pos.ne', rfl⟩]
    refine iff_of_true (Or.inr ⟨rfl, rfl, rfl, fun k => ?_⟩) notAll
    rw [← isDir] at edit ⊢
    exact edit.mine k
  · refine ⟨fed, ?_⟩
    rw [if_neg (by omega)]
    rw [← isDir] at exactly
    have exactly' := grew.exactly exactly le
    rw [isDir] at exactly exactly'
    obtain ⟨-, -, zeroed, e, filled, edit⟩ := grew
    rw [isDir] at zeroed filled
    have entries : ∀ k, entry m.words (s.procs p).pgdir k = e k := by
      intro k
      rw [← isDir]
      exact edit.mine k
    refine iff_of_true (Or.inl ⟨rfl, moved_upd isSum below exactly' (fun va both => ?_) zeroed⟩) notAll
    have page := pages_of_lt (lt_of_lt_of_le both (min_le_left _ _))
    refine user_congr ((entries _).trans (filled.old _ page)) ?_
    have there : pageAt s.mem.words (s.procs p).pgdir (va / PTE_SZ) ≠ 0 := by
      rw [Ne, pageAt_eq_zero_iff]
      exact (exactly _).2 page
    rw [← isDir] at there ⊢
    exact calm (some p) _ there _ (Nat.mod_lt _ (by decide))

/-- **Shrinking**: pages are freed, but all of them or more are not taken well. -/
theorem growDown_settles (neg : n < 0) (low : -2147483648 ≤ n) :
    Sat (vmStops short may) (Resizes s p n)
      (deallocuvm (s.procs p).pgdir (s.procs p).sz (grown (s.procs p).sz n) s.mem) := by
  have used := used_of_runnable running
  refine (growDown_dealloc inv running neg low).mono fun res m post => ⟨not_starves neg.le, ?_⟩
  obtain ⟨bytes, ⟨under, rfl, rfl⟩ | ⟨isSum, -, edit⟩⟩ := post
  · -- the sum wraps around, and nothing is done
    by_cases empty : (s.procs p).sz = 0
    · rw [if_pos ⟨neg.ne, empty⟩]
      refine iff_of_true (Or.inr ⟨rfl, rfl, rfl, fun k => rfl⟩) fun all => ?_
      exact absurd empty all.1.ne'
    · rw [if_neg fun both => empty both.2]
      refine iff_of_false ?_ fun notAll => notAll ⟨by omega, by omega⟩
      rintro (⟨-, moved⟩ | ⟨impossible, -⟩)
      · have size := moved.size
        simp only [upd_same] at size
        omega
      · cases impossible
  · have shrinks : res < (s.procs p).sz := by omega
    have entries : ∀ k, entry m.words (s.procs p).pgdir k =
        cut (entry s.mem.words (s.procs p).pgdir) (pages res) (pages (s.procs p).sz) k := by
      intro k
      rw [← edit.mine k, owners_dir used]
    by_cases none_ : res = 0
    · -- all pages are gone, and a failure is reported
      rw [if_pos ⟨neg.ne, none_⟩]
      refine iff_of_false ?_ fun notAll => notAll ⟨by omega, by omega⟩
      rintro (⟨impossible, -⟩ | ⟨-, stayed⟩)
      · cases impossible
      · have first : 0 < pages (s.procs p).sz := by
          unfold pages
          omega
        have same := stayed.entries 0
        rw [show ({ s with mem := m } : Sys).mem = m from rfl, entries, none_, cut,
          if_pos ⟨le_rfl, first⟩] at same
        exact (exactly 0).2 first same.symm
    · rw [if_neg fun both => none_ both.2]
      have notAll : ¬ TakesAll s p n := fun all => by
        have := all.2
        omega
      have fewer := pages_le shrinks.le
      refine iff_of_true (Or.inl ⟨rfl, moved_upd isSum (lt_trans shrinks ((inv.procs p).small used))
        (fun k => ?_) (fun va both => ?_) fun k above under => by omega⟩) notAll
      · rw [entries, cut]
        by_cases before : k < pages (s.procs p).sz
        · by_cases kept : k < pages res
          · rw [if_neg (by omega)]
            exact iff_of_true ((exactly k).2 before) kept
          · rw [if_pos ⟨Nat.not_lt.1 kept, before⟩]
            exact iff_of_false (fun no => no rfl) kept
        · rw [if_neg fun both => before both.2]
          exact iff_of_false (fun there => before ((exactly k).1 there)) (by omega)
      · have page := pages_of_lt (lt_of_lt_of_le both (min_le_right _ _))
        refine user_congr ?_ (by rw [bytes])
        rw [entries, cut, if_neg (by omega)]

/-- **`growproc`** does what it is to do exactly if it is not asked to take all. -/
theorem growproc_settles (low : -2147483648 ≤ n) (high : n < 2147483648)
    (why : s.Starves p n → short) :
    Sat (sysStops short may)
      (fun r s' => ¬ s.Starves p n ∧ (Settled s p n r s' ↔ ¬ TakesAll s p n)) (growproc p n s) := by
  refine growproc_sat (fun pos => growUp_settles inv running exactly pos high why)
    (fun neg => growDown_settles inv running exactly neg low) (fun zero => ?_)
    (fun m moves resizes => ?_) fun sz m fine resizes => ?_
  · subst zero
    refine ⟨not_starves le_rfl, ?_⟩
    rw [if_neg fun both => both.1 rfl]
    refine iff_of_true (Or.inl ⟨rfl, ?_⟩) fun all => ?_
    · exact moved_upd (add_zero _).symm ((inv.procs p).small (used_of_runnable running)) exactly
        (fun _ _ => rfl) fun k above below => by omega
    · have one := all.1
      have two := all.2
      omega
  · rwa [Resizes, if_pos ⟨moves, rfl⟩] at resizes
  · rwa [Resizes, if_neg (by omega)] at resizes

omit inv running exactly

/-! ## Every state of every run -/

/-- **The contract of `growproc`.**  In every state of every run after booting, whichever
allocations fail, and for every process with exactly the pages of its size: if a page table is the
first thing that cannot be had, `kpt_alloc` panics; if not, `growproc` comes back, and has moved
the end of the address space or left it alone exactly if it was not asked to take all of it or
more. -/
theorem growproc_contract {vend : Nat} (region : Region BOOT_END vend) (km : Kmem) {boot : List Nat}
    (pool : BootPool boot) (fails : List Bool) (root : Nat) :
    ∃ km0, Kmem.kmemInit2 BOOT_END vend km = .ok km0 ∧
      ∀ s, (Vm.boot root (Sys.zeroed km0 boot fails)).leaf = .done () s →
      ∀ ops z seen, Machine.run Sys.step s ops = some (z, seen) →
      ∀ p, (z.procs p).state = .runnable → z.mem.Exactly (z.procs p).pgdir (z.procs p).sz →
      ∀ n : BitVec 32,
        (z.Starves p n.toInt → ∃ z', (growproc p n.toInt z).leaf = .fail .oom z' ∧
          PT_ORDER ∈ z'.mem.misses) ∧
        (¬ z.Starves p n.toInt → ∃ r z', (growproc p n.toInt z).leaf = .done r z' ∧
          (Settled z p n.toInt r z' ↔ ¬ TakesAll z p n.toInt)) := by
  obtain ⟨N, P, km0, ready, heap, above, -⟩ := Kernel.kmemInit2_spec region km
  refine ⟨km0, ready, fun s booted ops z seen ran p running exactly n => ?_⟩
  have inv := reachable_inv heap above pool booted ran
  have low : -2147483648 ≤ n.toInt := BitVec.le_toInt n
  have high : n.toInt < 2147483648 := BitVec.toInt_lt
  have settles : Sat (sysStops (z.Starves p n.toInt) fun _ => False) _ (growproc p n.toInt z) :=
    growproc_settles inv running exactly low high id
  rcases settles.ends (fun _ => id) fun _ => trivial with
    ⟨r, done, -, fed, fine⟩ | ⟨e, stops, -, allowed⟩
  · exact ⟨fun starves => absurd starves fed, fun _ => ⟨r, _, done, fine⟩⟩
  · rcases allowed with ⟨rfl, missed, starves⟩ | impossible
    · exact ⟨fun _ => ⟨_, stops, missed⟩, fun fed => absurd starves fed⟩
    · exact impossible.elim

/-! ### The first process -/

/-- The first process has the one page of its size. -/
def Sys.onePage (s : Sys) : Bool :=
  decide ((s.procs 0).state = .runnable) && decide ((s.procs 0).sz = 4096) &&
    decide (entry s.mem.words (s.procs 0).pgdir 0 ≠ 0)

theorem exactly_onePage {s : Sys} (inv : s.Inv S) (one : s.onePage = true) :
    (s.procs 0).state = .runnable ∧ (s.procs 0).sz = 4096 ∧
      s.mem.Exactly (s.procs 0).pgdir (s.procs 0).sz := by
  simp only [Sys.onePage, Bool.and_eq_true, decide_eq_true_eq] at one
  obtain ⟨⟨running, size⟩, first⟩ := one
  refine ⟨running, size, fun k => ⟨fun there => ?_, fun below => ?_⟩⟩
  · by_contra past
    exact there (((inv.procs 0).space (used_of_runnable running)).past k (Nat.not_lt.1 past))
  · rw [size] at below
    have below : k < 1 := below
    obtain rfl : k = 0 := by omega
    exact first

/-- The first process grows by a page. -/
theorem growproc_contract_page :
    ∃ km0 s r s', Kmem.kmemInit2 BOOT_END (BOOT_END + 163840) noHeap = .ok km0 ∧
      (Vm.boot 1 (Sys.zeroed km0 (bootTables VECTBL 60) [])).leaf = .done () s ∧
      ¬ s.Starves 0 4096 ∧ (growproc 0 4096 s).leaf = .done r s' ∧ Settled s 0 4096 r s' := by
  obtain ⟨km0, s, ready, booted, checked⟩ := booted_checked (bootTables VECTBL 60) []
    (fun s => s.onePage && (growproc 0 4096 s).value?.isSome) (by decide +kernel)
  rw [Bool.and_eq_true] at checked
  obtain ⟨km', ready', contract⟩ := growproc_contract region_small noHeap
    (bootPool_main (by decide) le_rfl 60) [] 1
  obtain rfl : km0 = km' := Except.ok.inj (ready.symm.trans ready')
  obtain ⟨N, P, km', ready', heap, above, -⟩ := Kernel.kmemInit2_spec region_small noHeap
  obtain rfl : km0 = km' := Except.ok.inj (ready.symm.trans ready')
  have inv := reachable_inv heap above (bootPool_main (by decide) le_rfl 60) booted
    (show Machine.run Sys.step s [] = some (s, []) from rfl)
  obtain ⟨running, size, exactly⟩ := exactly_onePage inv checked.1
  have notAll : ¬ TakesAll s 0 4096 := fun all => by
    have := all.2
    omega
  obtain ⟨starved, settles⟩ := contract s booted [] s [] rfl 0 running exactly 4096
  rw [show ((4096 : BitVec 32).toInt) = 4096 from rfl] at starved settles
  have fed : ¬ s.Starves 0 4096 := by
    intro starves
    obtain ⟨z', stops, -⟩ := starved starves
    obtain ⟨r, value⟩ := Option.isSome_iff_exists.1 checked.2
    rw [Outcome.leaf_of_value? value] at stops
    cases stops
  obtain ⟨r, z', done, iff_⟩ := settles fed
  exact ⟨km0, s, r, z', ready, booted, fed, done, iff_.2 notAll⟩

/-- **Giving up all pages** frees them and reports a failure; giving up one byte more does nothing
and reports a success. -/
theorem growproc_takes_all :
    ∃ km0 s s1 s2, Kmem.kmemInit2 BOOT_END (BOOT_END + 163840) noHeap = .ok km0 ∧
      (Vm.boot 1 (Sys.zeroed km0 (bootTables VECTBL 60) [])).leaf = .done () s ∧
      (s.procs 0).sz = 4096 ∧
      (growproc 0 (-4096) s).leaf = .done (-1) s1 ∧ (s1.procs 0).sz = 4096 ∧
      entry s.mem.words (s.procs 0).pgdir 0 ≠ 0 ∧ entry s1.mem.words (s.procs 0).pgdir 0 = 0 ∧
      ¬ Settled s 0 (-4096) (-1) s1 ∧
      (growproc 0 (-4097) s).leaf = .done 0 s2 ∧ (s2.procs 0).sz = 4096 ∧
      ¬ Settled s 0 (-4097) 0 s2 := by
  obtain ⟨km0, s, ready, booted, checked⟩ := booted_checked (bootTables VECTBL 60) [] (fun s =>
    s.onePage &&
    decide ((growproc 0 (-4096) s).value? = some (-1)) &&
    decide (((growproc 0 (-4096) s).final.procs 0).sz = 4096) &&
    decide (entry (growproc 0 (-4096) s).final.mem.words (s.procs 0).pgdir 0 = 0) &&
    decide ((growproc 0 (-4097) s).value? = some 0) &&
    decide (((growproc 0 (-4097) s).final.procs 0).sz = 4096)) (by decide +kernel)
  simp only [Sys.onePage, Bool.and_eq_true, decide_eq_true_eq] at checked
  obtain ⟨⟨⟨⟨⟨⟨⟨-, size⟩, there⟩, value1⟩, size1⟩, gone⟩, value2⟩, size2⟩ := checked
  refine ⟨km0, s, _, _, ready, booted, size, Outcome.leaf_of_value? value1, size1, there, gone, ?_,
    Outcome.leaf_of_value? value2, size2, ?_⟩
  · rintro (⟨impossible, -⟩ | ⟨-, stayed⟩)
    · cases impossible
    · exact there ((stayed.entries 0).symm.trans gone)
  · rintro (⟨-, moved⟩ | ⟨impossible, -⟩)
    · have := moved.size
      omega
    · cases impossible

end Xv6Rpi.Proc.Vm
