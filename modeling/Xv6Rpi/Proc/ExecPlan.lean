/-
# Proc.ExecPlan -- how a call of `exec` ends

How `exec` ends is settled before it begins, by the file, by the lengths of the arguments and by
the memory there is to take.  Of the new address space only the size counts: it has no gap, so
the size says which pages and page tables there are.  `verdict` follows the program headers with
the size and the supply in hand and looks at nothing else; that `exec` ends so is in
`Proc.ExecRun`.

Two checks are missing in `exec`.  `vaddr` need not be on a page boundary, and `vaddr + memsz` may
wrap around, so that a segment can lie outside of what has been allocated for it; `loaduvm` panics
when it comes to a page without a page table (`breaks`).  Neither is the stack pointer checked
before a string is copied there (`wraps`).
-/
import Xv6Rpi.Proc.Exec
import Xv6Rpi.Proc.VmSpace

namespace Xv6Rpi.Proc.Exec

open Theory
open Proc.Vm

set_option autoImplicit false

inductive Verdict where
  /-- with 0 -/
  | succeeds
  /-- with -1 -/
  | refuses
  /-- no memory for a page table, and `kpt_alloc` panics -/
  | starves
  /-- one of the panics of `loaduvm`, or a page table past the end of the directory -/
  | breaks
  /-- a string goes past the end of the directory -/
  | wraps
  /-- `freevm` of what was never set -/
  | wild
  deriving DecidableEq

/-! ## The image -/

/-- The page tables of an address space with `n` pages and no gap. -/
def covered (n : Nat) : Nat → Bool := fun i => decide (256 * i < n)

/-- `allocuvm` on an address space of `sz` bytes: its size then, and the memory left. -/
def grow (sz newsz : Nat) (a : Supply) : Except Verdict (Nat × Supply) :=
  if UADDR_SZ ≤ newsz then .error .refuses
  else if newsz < sz then .ok (sz, a)
  else
    match a.serve (needs (covered (pages sz)) (pages sz) (pages newsz - pages sz)) with
    | .error .page => .error .refuses
    | .error .table => .error .starves
    | .ok a => if newsz = 0 then .error .refuses else .ok (newsz, a)

/-- The loop of `loaduvm` in an address space of `n` pages. -/
def fills (addr : Nat) (f : FileBytes) (offset sz n : Nat) : List Nat → Except Verdict Unit
  | [] => .ok ()
  | i :: rest =>
    if !covered n (PDE_IDX ((addr + i) % UINTS)) then .error .breaks
    else if f.readi ((offset + i) % UINTS) (FileBytes.chunk sz i) = FileBytes.chunk sz i then
      fills addr f offset sz n rest
    else .error .refuses

/-- `loaduvm` of a segment into an address space of `n` pages. -/
def lands (f : FileBytes) (ph : Proghdr) (n : Nat) : Except Verdict Unit :=
  if ph.vaddr % PTE_SZ ≠ 0 then .error .breaks
  else fills ph.vaddr f ph.off ph.filesz n (pagesFrom 0 ph.filesz)

/-- The loop over the program headers. -/
def loads (f : FileBytes) : List (Option Proghdr) → Nat → Supply → Except Verdict (Nat × Supply)
  | [], sz, a => .ok (sz, a)
  | none :: _, _, _ => .error .refuses
  | some ph :: rest, sz, a =>
    if ph.type ≠ FileBytes.ELF_PROG_LOAD then loads f rest sz a
    else if ph.memsz < ph.filesz then .error .refuses
    else do
      let (sz, a) ← grow sz ((ph.vaddr + ph.memsz) % UINTS) a
      lands f ph (pages sz)
      loads f rest sz a

/-- A directory, and the program in it. -/
def program (f : FileBytes) (a : Supply) : Except Verdict (Nat × Supply) :=
  match a.give .table with
  | none => .error .starves
  | some a => loads f (proghdrs f) 0 a

/-- The whole image, with two pages for the stack. -/
def makes (f : FileBytes) (a : Supply) : Except Verdict (Nat × Supply) := do
  let (sz, a) ← program f a
  grow (PTE_SZ * pages sz) (PTE_SZ * (pages sz + 2)) a

/-- An address space that grows ends where it is to end. -/
theorem grow_eq {sz newsz top : Nat} {a a' : Supply} (le : sz ≤ newsz)
    (grown : grow sz newsz a = .ok (top, a')) : top = newsz ∧ newsz < UADDR_SZ := by
  unfold grow at grown
  split at grown
  case isTrue => cases grown
  case isFalse below =>
    rw [if_neg (Nat.not_lt.2 le)] at grown
    split at grown
    · cases grown
    · cases grown
    · split at grown
      · cases grown
      · cases grown
        exact ⟨rfl, Nat.not_le.1 below⟩

-- from here on only what it comes to counts
attribute [local irreducible] grow

/-- An image that can be made ends with its two stack pages. -/
theorem makes_top {f : FileBytes} {a a' : Supply} {top : Nat} (made : makes f a = .ok (top, a')) :
    ∃ n, top = topOf n ∧ top < UADDR_SZ := by
  unfold makes at made
  cases isProgram : program f a with
  | error v =>
    rw [isProgram] at made
    cases made
  | ok loaded =>
    obtain ⟨sz, b⟩ := loaded
    rw [isProgram] at made
    have more : PTE_SZ * pages sz ≤ PTE_SZ * (pages sz + 2) := Nat.mul_le_mul_left _ (by omega)
    obtain ⟨rfl, below⟩ := grow_eq more made
    exact ⟨pages sz, rfl, below⟩

/-! ## The arguments -/

/-- After strings that end above `base` there is one that takes the stack pointer below 0. -/
def Wraps (base : Nat) : Argv → Nat → Prop
  | [], _ => False
  | s :: rest, sp =>
    sp ≤ s.length ∨ base ≤ pushed sp s.length ∧ Wraps base rest (pushed sp s.length)

instance decidableWraps (base : Nat) : (argv : Argv) → (sp : Nat) →
    Decidable (Wraps base argv sp)
  | [], _ => inferInstanceAs (Decidable False)
  | s :: rest, sp =>
    have := decidableWraps base rest (pushed sp s.length)
    inferInstanceAs (Decidable (_ ∨ _ ∧ _))

/-- The bytes that strings take on the stack: each with its terminator, rounded up to words. -/
def stringBytes (argv : Argv) : Nat := (argv.map fun s => (s.length / 4 + 1) * 4).sum

/-- Strings and vector fit in a page. -/
def Roomy (argv : Argv) : Prop :=
  argv.length ≤ MAXARG ∧ stringBytes argv + 4 * (argv.length + 1) ≤ PTE_SZ

instance (argv : Argv) : Decidable (Roomy argv) := inferInstanceAs (Decidable (_ ∧ _))

/-- The vector does not fit below strings that do. -/
def Spills (argv : Argv) : Prop :=
  argv.length ≤ MAXARG ∧ stringBytes argv ≤ PTE_SZ ∧
    PTE_SZ < stringBytes argv + 4 * (argv.length + 1)

instance (argv : Argv) : Decidable (Spills argv) :=
  inferInstanceAs (Decidable (_ ∧ _ ∧ _))

/-- The arguments on the stack of an image that ends at `top`. -/
def argsVerdict (argv : Argv) (top : Nat) : Verdict :=
  if Wraps (top - PTE_SZ) (argv.take MAXARG) top then .wraps
  else if Roomy argv then .succeeds
  else .refuses

/-! ## The whole call -/

/-- `exec` of a file with a header. -/
def fileVerdict (f : FileBytes) (argv : Argv) (a : Supply) : Verdict :=
  match makes f a with
  | .error v => v
  | .ok (top, _) => argsVerdict argv top

def verdict (junk : Nat) (node : Option (Nat × FileBytes)) (argv : Argv) (a : Supply) :
    Verdict :=
  match node with
  | none => .refuses
  | some (_, f) =>
    if f.header then fileVerdict f argv a
    else if junk = 0 then .refuses
    else .wild

/-- The panics that a verdict stands for, apart from that of `kpt_alloc`. -/
def Verdict.panics : Verdict → VmPanic → Prop
  | .breaks, e => e = .loaduvmAlign ∨ e = .loaduvmPte ∨ e = .overrun
  | .wraps, e => e = .overrun
  | .wild, e => e = .wild
  | _, _ => False

end Xv6Rpi.Proc.Exec
