/-
# Proc.Supply -- the memory there is to take

Whether a call that allocates goes through is settled before it begins, by what is left of the
heap and of the boot-time page tables, and by the blocks it asks for one after the other
(`Supply.serve`).  What `allocuvm` and `copyuvm` ask for depends only on the page tables that the
directory has (`needs`): a page, and with the first page of a page table that is not there, that
page table.
-/
import Xv6Rpi.Proc.Vm

namespace Xv6Rpi.Proc.Vm

open Theory
open Kernel (Kmem upd)

set_option autoImplicit false

/-- What the allocators go by: the heap, how many boot-time page tables are left, and which of the
next allocations fail. -/
structure Supply where
  km : Kmem
  tables : Nat
  fails : List Bool

def VMem.supply (m : VMem) : Supply := ⟨m.heap.km, m.freelist.length, m.fails⟩

inductive Need where
  | page
  | table
  deriving DecidableEq

namespace Supply

/-- What is left after a block of the heap has been taken, none if it cannot be had. -/
def block (a : Supply) (order : Nat) : Option Supply :=
  if a.fails.head? = some true then none
  else
    match a.km.kmalloc order with
    | .error _ => none
    | .ok (mem, km) => if mem = 0 then none else some { a with km := km, fails := a.fails.tail }

def give (a : Supply) : Need → Option Supply
  | .page => a.block PTE_SHIFT
  | .table =>
    match a.tables with
    | 0 => a.block PT_ORDER
    | tables + 1 => some { a with tables := tables }

/-- What is left after all of `l`, or the first of them that cannot be had. -/
def serve : List Need → Supply → Except Need Supply
  | [], a => .ok a
  | x :: l, a =>
    match a.give x with
    | none => .error x
    | some a => serve l a

instance (l : List Need) (a : Supply) (x : Need) : Decidable (serve l a = .error x) :=
  match serve l a with
  | .error y => decidable_of_iff (y = x) (by rw [Except.error.injEq])
  | .ok _ => isFalse (by simp)

variable {a a' : Supply} {x y : Need} {l l' : List Need}

theorem serve_none (none_ : a.give x = none) : serve (x :: l) a = .error x := by
  simp only [serve, none_]

theorem serve_some (some_ : a.give x = some a') : serve (x :: l) a = serve l a' := by
  simp only [serve, some_]

/-- What comes first is served first. -/
theorem serve_append (first : serve l a = .ok a') : serve (l ++ l') a = serve l' a' := by
  induction l generalizing a with
  | nil =>
    cases first
    rfl
  | cons x l ih =>
    rw [List.cons_append]
    cases given : a.give x with
    | none =>
      rw [serve_none given] at first
      cases first
    | some b =>
      rw [serve_some given] at first ⊢
      exact ih first

theorem serve_append_error (first : serve l a = .error y) : serve (l ++ l') a = .error y := by
  induction l generalizing a with
  | nil => cases first
  | cons x l ih =>
    rw [List.cons_append]
    cases given : a.give x with
    | none =>
      rw [serve_none given] at first ⊢
      exact first
    | some b =>
      rw [serve_some given] at first ⊢
      exact ih first

end Supply

/-! ## What a range of pages takes -/

/-- The page table of page `k`, if it is not there. -/
def tableNeed (there : Nat → Bool) (k : Nat) : List Need :=
  if there (k / 256) then [] else [.table]

/-- What it takes to map `n` pages from `k` on. -/
def needs : (Nat → Bool) → Nat → Nat → List Need
  | _, _, 0 => []
  | there, k, n + 1 =>
    .page :: (tableNeed there k ++ needs (upd there (k / 256) true) (k + 1) n)

end Xv6Rpi.Proc.Vm
