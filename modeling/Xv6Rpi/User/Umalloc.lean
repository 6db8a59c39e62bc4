/-
# User.Umalloc -- the user library's malloc and free

`umalloc.c`.  Addresses are byte addresses; a `Header` is 8 bytes, and `p + n` of the code
is `p + 8 * n` here.  The two fields of a header are two functions of its address.  All
memory lies below `2^32`, so pointer arithmetic does not wrap; the arithmetic on `nbytes`
and on the argument of `sbrk` is that of `unsigned int`.

What `sbrk` answers is up to the surroundings (`offers`).  An offer counts if it is fresh:
8-byte aligned, not below the end of what was returned before, and inside the address
space; otherwise the answer is -1.

The search loops have fuel (`rounds`); running out of it is a loop that does not end.
-/
import Xv6Rpi.Kernel.State
import Xv6Rpi.Theory.Cycle
import Xv6Rpi.Theory.Machine
import Xv6Rpi.Theory.Tiling

namespace Xv6Rpi.User.Umalloc

open Theory Kernel

set_option autoImplicit false

/-- `UADDR_SZ` -/
abbrev UADDRSZ : Nat := 268435456

/-- The allocator's memory: the fields of the headers, `freep` (0 is null), what `sbrk` has
returned and where that ends, and what it is going to answer. -/
structure Heap where
  ptr : Nat → Nat
  size : Nat → Nat
  freep : Nat
  mem : List Span
  brk : Nat
  offers : List (Option Nat)

namespace Heap

/-- `sbrk(n)`, none for -1. -/
def sbrk (h : Heap) (n : Nat) : Heap × Option Nat :=
  match h.offers with
  | some a :: rest =>
    if a % 8 = 0 ∧ h.brk ≤ a ∧ a + n < 4294967296 then
      ({ h with offers := rest, mem := ⟨a, n⟩ :: h.mem, brk := a + n }, some a)
    else ({ h with offers := rest }, none)
  | none :: rest => ({ h with offers := rest }, none)
  | [] => (h, none)

/-- Rounds that suffice for a search: there are no more free blocks than bytes. -/
def rounds (h : Heap) : Nat := (h.mem.map Span.len).sum + 2

/-- The condition that ends the loop of `free`. -/
def isPlace (h : Heap) (bp p : Nat) : Bool :=
  (p < bp && bp < h.ptr p) || (h.ptr p ≤ p && (p < bp || bp < h.ptr p))

/-- Join to the upper neighbour, or link to it. -/
def joinUp (h : Heap) (bp next : Nat) : Heap :=
  if bp + 8 * h.size bp = next then
    { h with
      size := upd h.size bp (h.size bp + h.size next)
      ptr := upd h.ptr bp (h.ptr next) }
  else { h with ptr := upd h.ptr bp next }

/-- Join to the lower neighbour, or link to it. -/
def joinDown (h : Heap) (bp p : Nat) : Heap :=
  if p + 8 * h.size p = bp then
    { h with
      size := upd h.size p (h.size p + h.size bp)
      ptr := upd h.ptr p (h.ptr bp)
      freep := p }
  else { h with ptr := upd h.ptr p bp, freep := p }

/-- `free` -/
def free (h : Heap) (ap : Nat) : Option Heap :=
  let bp := ap - 8
  match Cycle.search h.ptr (h.isPlace bp) h.rounds h.freep with
  | none => none
  | some p => some ((h.joinUp bp (h.ptr p)).joinDown bp p)

/-- `morecore`, which returns `freep` or 0. -/
def morecore (h : Heap) (nu : Nat) : Option (Heap × Nat) :=
  let nu := if nu < 4096 then 4096 else nu
  match h.sbrk (nu * 8 % 4294967296) with
  | (h, none) => some (h, 0)
  | (h, some hp) =>
    (free { h with size := upd h.size hp nu } (hp + 8)).map fun h => (h, h.freep)

/-- Take the block `p`, or its tail end. -/
def take (h : Heap) (nunits prevp p : Nat) : Heap × Nat :=
  if h.size p = nunits then ({ h with ptr := upd h.ptr prevp (h.ptr p), freep := prevp }, p + 8)
  else
    let rest := h.size p - nunits
    ({ h with size := upd (upd h.size p rest) (p + 8 * rest) nunits, freep := prevp },
      p + 8 * rest + 8)

/-- The loop of `malloc`. -/
def scan (nunits : Nat) : Nat → Heap → Nat → Nat → Option (Heap × Nat)
  | 0, _, _, _ => none
  | fuel + 1, h, prevp, p =>
    if nunits ≤ h.size p then some (h.take nunits prevp p)
    else if p = h.freep then
      match h.morecore nunits with
      | none => none
      | some (h, p) => if p = 0 then some (h, 0) else scan nunits fuel h p (h.ptr p)
    else scan nunits fuel h p (h.ptr p)

/-- `(nbytes + sizeof(Header) - 1)/sizeof(Header) + 1` -/
def units (nbytes : Nat) : Nat := (nbytes + 7) % 4294967296 / 8 + 1

/-- The first call sets up an empty list. -/
def init (base : Nat) (h : Heap) : Heap :=
  if h.freep = 0 then
    { h with ptr := upd h.ptr base base, size := upd h.size base 0, freep := base }
  else h

/-- `malloc`, which returns 0 for null.  The loop goes round once, and once more after
`morecore`. -/
def malloc (base : Nat) (h : Heap) (nbytes : Nat) : Option (Heap × Nat) :=
  let nunits := units nbytes
  let h := h.init base
  scan nunits (2 * h.rounds + 8 * max nunits 4096) h h.freep (h.ptr h.freep)

end Heap

/-! ## A program that uses them -/

/-- The heap, and the live blocks with the number of bytes asked for. -/
structure Prog where
  heap : Heap
  live : List (Nat × Nat)

inductive Op where
  | malloc (nbytes : Nat) (offers : List (Option Nat))
  | free (ap : Nat)
  /-- the program stores into a live block, which may change what was a header there -/
  | store (a ptr size : Nat)
  deriving DecidableEq

inductive Obs where
  | returned (ap : Nat)
  | null
  | loops
  deriving DecidableEq

namespace Prog

/-- The program owns the 8 bytes at `a`, or the first of them. -/
def Owns (s : Prog) (a : Nat) : Prop := a % 8 = 0 ∧ ∃ b ∈ s.live, b.1 ≤ a ∧ a < b.1 + b.2

instance (s : Prog) (a : Nat) : Decidable (s.Owns a) := inferInstanceAs (Decidable (_ ∧ _))

/-- One call, or a store. -/
def step (base : Nat) (s : Prog) : Op → Option (Prog × List Obs)
  | .malloc nbytes offers =>
    if nbytes ≤ UADDRSZ then
      match Heap.malloc base { s.heap with offers := offers } nbytes with
      | none => some (s, [.loops])
      | some (h, ap) =>
        if ap = 0 then some (⟨h, s.live⟩, [.null])
        else some (⟨h, (ap, nbytes) :: s.live⟩, [.returned ap])
    else none
  | .free ap =>
    if ap ∈ s.live.map Prod.fst then
      match s.heap.free ap with
      | none => some (s, [.loops])
      | some h => some (⟨h, s.live.filter fun b => b.1 ≠ ap⟩, [])
    else none
  | .store a ptr size =>
    if s.Owns a then
      some ({ s with heap :=
        { s.heap with ptr := upd s.heap.ptr a ptr, size := upd s.heap.size a size } }, [])
    else none

/-- At the start nothing is allocated, `freep` is null, and memory holds anything. -/
def start (base : Nat) (ptr size : Nat → Nat) : Prog where
  heap := { ptr := ptr, size := size, freep := 0, mem := [], brk := base + 8, offers := [] }
  live := []

end Prog

end Xv6Rpi.User.Umalloc
