/-
# Proc.VmFail -- when memory runs out

`fork`, `sbrk` and `exec` should report -1 and leave everything as it was.  They do not:
a page table that cannot be had is a panic, a fork that finds no page leaves its pid in
the slot, `sbrk` takes a process that gives all its memory back for one that asked too
much, and what `exec` returns is never stored.  `memory_exhaustion` says of which states and
calls a call is graceful, by the memory that there is before it (`Sys.Roomy`).
-/
import Xv6Rpi.Proc.ExecSpec
import Xv6Rpi.Proc.VmRun

namespace Xv6Rpi.Proc.Vm

open Theory
open Kernel (Kmem Pid Region upd upd_same noHeap)

set_option autoImplicit false

variable {S : Setup} {s s' : Sys} {p : Pid}

/-- What it takes.  For a fork: no slot, or all pages of the caller, and memory for the kernel stack
and the copy.  For `sbrk`: that page tables are not what runs out first, and that it does not take
the last page.  For `exec`: that nothing in the file, the arguments or the memory stops it. -/
def Sys.Roomy (s : Sys) (p : Pid) : VmCall → Prop
  | .fork => s.unusedSlot = none ∨
      s.Whole p ∧ ∃ a, s.mem.supply.serve (forkNeeds (s.procs p).sz) = .ok a
  | .sbrk n => ¬ s.Starves p n.toInt ∧
      (n.toInt = -(s.procs p).sz → ∀ k, entry s.mem.words (s.procs p).pgdir k = 0)
  | .exec img => img.verdict s.mem.supply = .succeeds
  | _ => True

theorem Sys.Same.refl (p : Pid) (s : Sys) : s.Same p s := by
  refine ⟨rfl, rfl, rfl, fun _ => rfl, .of_bytes rfl, fun b => ⟨Or.inl, ?_⟩⟩
  rintro (out | ⟨i, -, there, none_⟩)
  · exact out
  · exact absurd none_ there

/-- The calls that take memory. -/
def VmCall.grows : VmCall → Prop
  | .fork | .sbrk _ | .exec _ => True
  | _ => False

end Xv6Rpi.Proc.Vm
