/-
# Proc.Elf -- what `exec` makes of the contents of a file

`exec` reads an ELF header, program headers and segments from a file that anyone may have
written.  How the call ends is what `Exec.verdict` says (`exec_verdict`), and for some files that
is a panic of `loaduvm`, a look past the end of the page directory, or a pointer that was never
set.  `exec_rejects_safely` says for which, in every state of every run.

Two checks are missing.  No file for which they hold (`Exec.Checked`) breaks while it is
loaded, whatever memory there is.
-/
import Xv6Rpi.Proc.ExecSpec
import Xv6Rpi.Proc.VmRun

set_option autoImplicit false

namespace Xv6Rpi.Proc.Exec

open Theory
open Proc.Vm

/-! ## The missing checks -/

/-- Every segment that is loaded begins on a page boundary and ends after it begins. -/
def Checked (f : FileBytes) : Prop :=
  ∀ head ∈ proghdrs f, ∀ ph ∈ head, ph.type = FileBytes.ELF_PROG_LOAD →
    ph.vaddr % PTE_SZ = 0 ∧ ph.vaddr + ph.memsz < UINTS

instance (f : FileBytes) : Decidable (Checked f) :=
  inferInstanceAs (Decidable (∀ head ∈ proghdrs f, ∀ ph ∈ head, _ → _))

variable {f : FileBytes} {ph : Proghdr} {a a' : Supply} {sz sz' newsz n : Nat}

theorem grow_covers (grown : grow sz newsz a = .ok (sz', a')) : newsz ≤ sz' := by
  unfold grow at grown
  split at grown
  case isTrue => cases grown
  case isFalse =>
    split at grown
    case isTrue smaller =>
      cases grown
      exact smaller.le
    case isFalse =>
      split at grown
      · cases grown
      · cases grown
      · split at grown
        · cases grown
        · cases grown
          exact le_rfl

theorem grow_ne_breaks : grow sz newsz a ≠ .error .breaks := by
  unfold grow
  split
  · simp
  · split
    · simp
    · split
      · simp
      · simp
      · split <;> simp

-- from here on only what it comes to counts
attribute [local irreducible] grow

/-- The pages of a segment have page tables, if they are pages of the address space. -/
theorem fills_ne_breaks {addr offset : Nat} (l : List Nat)
    (inside : ∀ i ∈ l, addr + i < PTE_SZ * n ∧ addr + i < UINTS) :
    fills addr f offset sz n l ≠ .error .breaks := by
  induction l with
  | nil => simp [fills]
  | cons i rest ih =>
    obtain ⟨page, small⟩ := inside i List.mem_cons_self
    have there : covered n (PDE_IDX ((addr + i) % UINTS)) = true := by
      rw [Nat.mod_eq_of_lt small, covered, decide_eq_true_iff]
      have page : addr + i < 4096 * n := page
      show 256 * ((addr + i) / 1048576) < n
      omega
    simp only [fills, there, Bool.not_true, Bool.false_eq_true, if_false]
    split
    · exact ih fun j member => inside j (List.mem_cons_of_mem i member)
    · simp

theorem lands_ne_breaks (aligned : ph.vaddr % PTE_SZ = 0) (ends : ph.vaddr + ph.filesz < UINTS)
    (inside : ph.vaddr + ph.filesz ≤ PTE_SZ * n) : lands f ph n ≠ .error .breaks := by
  rw [lands, if_neg (not_not.2 aligned)]
  apply fills_ne_breaks
  intro i member
  rw [← Nat.mul_zero PTE_SZ, pagesFrom_page] at member
  obtain ⟨k, isPage, rfl⟩ := List.mem_map.1 member
  have below : k < pages ph.filesz := by simpa [List.mem_range'_1] using isPage
  have before : PTE_SZ * k < ph.filesz := by
    have below : k < (ph.filesz + 4095) / 4096 := below
    show 4096 * k < ph.filesz
    omega
  omega

/-- Following the headers of a file that has been checked comes to no page without a page table. -/
theorem loads_ne_breaks (headers : List (Option Proghdr))
    (checked : ∀ head ∈ headers, ∀ ph ∈ head, ph.type = FileBytes.ELF_PROG_LOAD →
      ph.vaddr % PTE_SZ = 0 ∧ ph.vaddr + ph.memsz < UINTS) (sz : Nat) (a : Supply) :
    loads f headers sz a ≠ .error .breaks := by
  induction headers generalizing sz a with
  | nil => simp [loads]
  | cons head rest ih =>
    have ih := ih fun other member => checked other (List.mem_cons_of_mem head member)
    cases head with
    | none => simp [loads]
    | some ph =>
      rw [loads]
      split
      case isTrue => exact ih sz a
      case isFalse isLoad =>
        obtain ⟨aligned, ends⟩ := checked (some ph) List.mem_cons_self ph rfl (not_not.1 isLoad)
        split
        case isTrue => simp
        case isFalse fits =>
          rw [Nat.mod_eq_of_lt ends]
          cases grown : grow sz (ph.vaddr + ph.memsz) a with
          | error v =>
            rintro failed
            cases failed
            exact grow_ne_breaks grown
          | ok made =>
            obtain ⟨sz', a'⟩ := made
            have covers := grow_covers grown
            have inside : ph.vaddr + ph.filesz ≤ PTE_SZ * pages sz' := by
              have whole : sz' ≤ 4096 * ((sz' + 4095) / 4096) := by omega
              have whole : sz' ≤ PTE_SZ * pages sz' := whole
              omega
            have landed := lands_ne_breaks (f := f) aligned (by omega) inside
            show (lands f ph (pages sz') >>= fun _ => loads f rest sz' a') ≠ _
            cases isLanded : lands f ph (pages sz') with
            | error v =>
              rintro failed
              cases failed
              exact landed isLanded
            | ok _ => exact ih sz' a'

theorem makes_ne_breaks (checked : Checked f) (a : Supply) : makes f a ≠ .error .breaks := by
  unfold makes program
  cases a.give .table with
  | none => rintro ⟨⟩
  | some a' =>
    have loaded := loads_ne_breaks (f := f) (proghdrs f) checked 0 a'
    dsimp only
    cases isLoaded : loads f (proghdrs f) 0 a' with
    | error v =>
      rintro failed
      cases failed
      exact loaded isLoaded
    | ok made => exact grow_ne_breaks

/-- **A file that has been checked does not break**, whatever memory there is. -/
theorem verdict_ne_breaks (junk ip : Nat) (checked : Checked f) (argv : Argv) (a : Supply) :
    verdict junk (some (ip, f)) argv a ≠ .breaks := by
  have made := makes_ne_breaks checked a
  simp only [verdict, fileVerdict]
  split
  · cases isMade : makes f a with
    | error v =>
      rintro rfl
      exact made isMade
    | ok image =>
      simp only [argsVerdict]
      split
      · simp
      · split <;> simp
  · split <;> simp

end Xv6Rpi.Proc.Exec

namespace Xv6Rpi.Proc.Vm

open Theory
open Kernel (Kmem Pid Region noHeap)

/-! ## One call -/

/-- How a call comes out that is to end so. -/
def EndsAs (o : Outcome Sys VmPanic VmEvent Execed) : Exec.Verdict → Prop
  | .succeeds => ∃ x s, o.leaf = .done x s ∧ x.ret = 0
  | .refuses => ∃ x s, o.leaf = .done x s ∧ x.ret = -1
  | .starves => ∃ s, o.leaf = .fail .oom s ∧ PT_ORDER ∈ s.mem.misses
  | .breaks => ∃ e s, o.leaf = .fail e s ∧ (e = .loaduvmAlign ∨ e = .loaduvmPte ∨ e = .overrun)
  | .wraps => ∃ s, o.leaf = .fail .overrun s
  | .wild => ∃ s, o.leaf = .fail .wild s

/-- **A call of `exec` ends as its verdict says.** -/
theorem exec_verdict {S : Setup} {s : Sys} {p : Pid} (inv : s.Inv S)
    (running : (s.procs p).state = .runnable) (img : Image) :
    EndsAs (exec p img s) (img.verdict s.mem.supply) := by
  rcases (exec_spec inv running img id fun _ => id).ends (fun _ => id) fun _ => trivial with
    ⟨x, done, -, fine⟩ | ⟨e, stops, -, ⟨rfl, missed, starves⟩ | panics⟩
  · rcases fine.result with ⟨isZero, succeeds⟩ | ⟨isBad, refuses⟩
    · rw [succeeds]
      exact ⟨x, _, done, isZero⟩
    · rw [refuses]
      exact ⟨x, _, done, isBad⟩
  · rw [starves]
    exact ⟨_, stops, missed⟩
  · generalize img.verdict s.mem.supply = v at panics ⊢
    cases v with
    | breaks => exact ⟨e, _, stops, panics⟩
    | wraps =>
      obtain rfl : e = .overrun := panics
      exact ⟨_, stops⟩
    | wild =>
      obtain rfl : e = .wild := panics
      exact ⟨_, stops⟩
    | succeeds => exact panics.elim
    | refuses => exact panics.elim
    | starves => exact panics.elim

/-- A call that ends so returns. -/
theorem EndsAs.returns_iff {o : Outcome Sys VmPanic VmEvent Execed} {v : Exec.Verdict} (ends : EndsAs o v) :
    (∃ x s, o.leaf = .done x s ∧ (x.ret = 0 ∨ x.ret = -1)) ↔ v = .succeeds ∨ v = .refuses := by
  have stopped : ∀ {e s}, o.leaf = .fail e s →
      ¬ ∃ x s, o.leaf = .done x s ∧ (x.ret = 0 ∨ x.ret = -1) := by
    rintro e s stops ⟨x, s', done, -⟩
    rw [stops] at done
    cases done
  cases v with
  | succeeds =>
    obtain ⟨x, s, done, isZero⟩ := ends
    exact iff_of_true ⟨x, s, done, Or.inl isZero⟩ (Or.inl rfl)
  | refuses =>
    obtain ⟨x, s, done, isBad⟩ := ends
    exact iff_of_true ⟨x, s, done, Or.inr isBad⟩ (Or.inr rfl)
  | starves =>
    obtain ⟨s, stops, -⟩ := ends
    exact iff_of_false (stopped stops) (by simp)
  | breaks =>
    obtain ⟨e, s, stops, -⟩ := ends
    exact iff_of_false (stopped stops) (by simp)
  | wraps =>
    obtain ⟨s, stops⟩ := ends
    exact iff_of_false (stopped stops) (by simp)
  | wild =>
    obtain ⟨s, stops⟩ := ends
    exact iff_of_false (stopped stops) (by simp)

/-! ## Every state of every run -/

/-- **Malformed files.**  In every state of every run after booting, whichever allocations fail,
and for every content of the file: `exec` returns 0 or -1 exactly if that is the verdict on file,
arguments and memory; otherwise it stops as the verdict says.  A file that has been checked does
not break while it is loaded. -/
theorem exec_rejects_safely {vend : Nat} (region : Region BOOT_END vend) (km : Kmem)
    {boot : List Nat} (pool : BootPool boot) (fails : List Bool) (root : Nat) :
    ∃ km0, Kmem.kmemInit2 BOOT_END vend km = .ok km0 ∧
      ∀ s, (Vm.boot root (Sys.zeroed km0 boot fails)).leaf = .done () s →
      ∀ ops z seen, Machine.run Sys.step s ops = some (z, seen) →
      ∀ p, (z.procs p).state = .runnable → ∀ (img : Image) (ip : Nat) (f : FileBytes),
        img.node = some (ip, f) →
        ((∃ x z', (exec p img z.entered).leaf = .done x z' ∧ (x.ret = 0 ∨ x.ret = -1)) ↔
          img.verdict z.mem.supply = .succeeds ∨ img.verdict z.mem.supply = .refuses) ∧
        EndsAs (exec p img z.entered) (img.verdict z.mem.supply) ∧
        (Exec.Checked f → img.verdict z.mem.supply ≠ .breaks) := by
  obtain ⟨N, P, km0, ready, heap, above, -⟩ := Kernel.kmemInit2_spec region km
  refine ⟨km0, ready, fun s booted ops z seen ran p running img ip f isNode => ?_⟩
  have inv := (reachable_inv heap above pool booted ran).entered
  have ends : EndsAs (exec p img z.entered) (img.verdict z.mem.supply) :=
    exec_verdict (s := z.entered) inv running img
  refine ⟨ends.returns_iff, ends, fun checked => ?_⟩
  rw [Image.verdict, isNode]
  split
  · exact Exec.verdict_ne_breaks img.junk ip checked img.argv _
  · simp

/-- A call with two arguments; `junk` is in the variable `pgdir`. -/
def FileBytes.image (f : FileBytes) (junk : Nat) : Image :=
  ⟨true, [], some (5, f), junk, [[97, 98], [99]], by decide⟩

/-- The first process executes a file with a page of code; of another one it is told that it takes
less memory than there is in the file. -/
theorem exec_rejects_safely_page :
    ∃ km0 s x s' y s'', Kmem.kmemInit2 BOOT_END (BOOT_END + 163840) noHeap = .ok km0 ∧
      (Vm.boot 1 (Sys.zeroed km0 (bootTables VECTBL 60) [])).leaf = .done () s ∧
      Exec.Checked (Exec.oneSegment 0 0 84 4096) ∧
      (exec 0 ((Exec.oneSegment 0 0 84 4096).image 0) s.entered).leaf = .done x s' ∧ x.ret = 0 ∧
      (exec 0 ((Exec.oneSegment 0 0 84 80).image 0) s.entered).leaf = .done y s'' ∧ y.ret = -1 := by
  obtain ⟨km0, s, ready, booted, checked⟩ := booted_checked (bootTables VECTBL 60) []
    (fun s => decide ((s.procs 0).state = .runnable) &&
      decide (((Exec.oneSegment 0 0 84 4096).image 0).verdict s.mem.supply = .succeeds) &&
      decide (((Exec.oneSegment 0 0 84 80).image 0).verdict s.mem.supply = .refuses))
    (by decide +kernel)
  simp only [Bool.and_eq_true, decide_eq_true_eq] at checked
  obtain ⟨⟨running, succeeds⟩, refuses⟩ := checked
  obtain ⟨km', ready', safely⟩ := exec_rejects_safely region_small noHeap
    (bootPool_main (by decide) le_rfl 60) [] 1
  obtain rfl : km0 = km' := Except.ok.inj (ready.symm.trans ready')
  obtain ⟨-, good, -⟩ :=
    safely s booted [] s [] rfl 0 running ((Exec.oneSegment 0 0 84 4096).image 0) 5 _ rfl
  obtain ⟨-, bad, -⟩ :=
    safely s booted [] s [] rfl 0 running ((Exec.oneSegment 0 0 84 80).image 0) 5 _ rfl
  rw [succeeds] at good
  rw [refuses] at bad
  obtain ⟨x, s', done, isZero⟩ := good
  obtain ⟨y, s'', done', isBad⟩ := bad
  exact ⟨km0, s, x, s', y, s'', ready, booted, by decide +kernel, done, isZero, done', isBad⟩

/-- **Files that end the kernel**: one whose segment is not on a page boundary, two whose segment
ends before it begins, and one that is no ELF file, when `pgdir` is not 0 by chance. -/
theorem exec_of_malformed_files :
    ∃ km0 s, Kmem.kmemInit2 BOOT_END (BOOT_END + 163840) noHeap = .ok km0 ∧
      (Vm.boot 1 (Sys.zeroed km0 (bootTables VECTBL 60) [])).leaf = .done () s ∧
      (s.procs 0).state = .runnable ∧
      (exec 0 ((Exec.oneSegment 0 4 4 8).image 0) s.entered).failure? = some .loaduvmAlign ∧
      (exec 0 ((Exec.oneSegment 0 0x200000 1 0xFFE01000).image 0) s.entered).failure? =
        some .loaduvmPte ∧
      (exec 0 ((Exec.oneSegment 0 0xFFFFF000 1 0x2000).image 0) s.entered).failure? =
        some .overrun ∧
      (exec 0 ((⟨0, fun _ => 0, by decide⟩ : FileBytes).image 1) s.entered).failure? =
        some .wild := by
  obtain ⟨km0, s, ready, booted, checked⟩ := booted_checked (bootTables VECTBL 60) []
    (fun s => decide ((s.procs 0).state = .runnable) &&
      decide ((exec 0 ((Exec.oneSegment 0 4 4 8).image 0) s.entered).failure? =
        some .loaduvmAlign) &&
      decide ((exec 0 ((Exec.oneSegment 0 0x200000 1 0xFFE01000).image 0) s.entered).failure? =
        some .loaduvmPte) &&
      decide ((exec 0 ((Exec.oneSegment 0 0xFFFFF000 1 0x2000).image 0) s.entered).failure? =
        some .overrun) &&
      decide ((exec 0 ((⟨0, fun _ => 0, by decide⟩ : FileBytes).image 1) s.entered).failure? =
        some .wild)) (by decide +kernel)
  simp only [Bool.and_eq_true, decide_eq_true_eq] at checked
  obtain ⟨⟨⟨⟨running, unaligned⟩, missing⟩, outside⟩, noElf⟩ := checked
  exact ⟨km0, s, ready, booted, running, unaligned, missing, outside, noElf⟩

end Xv6Rpi.Proc.Vm
