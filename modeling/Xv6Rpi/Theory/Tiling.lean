/-
# Theory.Tiling -- memory cut into chunks

A `Span` is a range of addresses.  `Tiled g mem chunks` says that the chunks lie in the
memory `mem`, do not overlap, are aligned to `g` and together are as long as the memory, so
that nothing of it is lost.  Chunks can be reordered, cut and joined, and memory can be
added.
-/
import Mathlib.Algebra.GroupWithZero.Nat
import Mathlib.Algebra.Order.Group.Nat
import Mathlib.Algebra.BigOperators.Group.List.Basic
import Mathlib.Data.List.Pairwise
import Mathlib.Tactic.Common

namespace Xv6Rpi.Theory

set_option autoImplicit false

/-- The addresses from `start` on, `len` of them. -/
structure Span where
  start : Nat
  len : Nat
  deriving DecidableEq, Repr

namespace Span

def Has (c : Span) (x : Nat) : Prop := c.start ≤ x ∧ x < c.start + c.len

/-- One ends before the other starts. -/
def Apart (c d : Span) : Prop := c.start + c.len ≤ d.start ∨ d.start + d.len ≤ c.start

theorem Apart.symm {c d : Span} (apart : c.Apart d) : d.Apart c := Or.symm apart

instance : Std.Symm Apart := ⟨fun _ _ apart => apart.symm⟩

end Span

structure Tiled (g : Nat) (mem chunks : List Span) : Prop where
  pos : ∀ c ∈ chunks, 0 < c.len
  aligned : ∀ c ∈ chunks, g ∣ c.start ∧ g ∣ c.len
  inside : ∀ c ∈ chunks, ∀ x, c.Has x → ∃ r ∈ mem, r.Has x
  apart : chunks.Pairwise Span.Apart
  total : (chunks.map Span.len).sum = (mem.map Span.len).sum

namespace Tiled

variable {g : Nat} {mem chunks more : List Span} {c d r : Span}

theorem perm (tiled : Tiled g mem chunks) (same : more.Perm chunks) : Tiled g mem more where
  pos c member := tiled.pos c (same.mem_iff.1 member)
  aligned c member := tiled.aligned c (same.mem_iff.1 member)
  inside c member := tiled.inside c (same.mem_iff.1 member)
  apart := (same.pairwise_iff fun apart => Span.Apart.symm apart).2 tiled.apart
  total := by rw [(same.map _).sum_eq, tiled.total]

theorem apart_of_ne (tiled : Tiled g mem chunks) (isC : c ∈ chunks) (isD : d ∈ chunks) (ne : c ≠ d) :
    c.Apart d :=
  tiled.apart.forall isC isD ne

/-- The first chunk is apart from the others. -/
theorem head_apart (tiled : Tiled g mem (c :: chunks)) (member : d ∈ chunks) : c.Apart d :=
  List.rel_of_pairwise_cons tiled.apart member

/-- Two adjacent chunks joined. -/
theorem join (tiled : Tiled g mem (c :: d :: chunks)) (adjacent : c.start + c.len = d.start) :
    Tiled g mem (⟨c.start, c.len + d.len⟩ :: chunks) where
  pos e member := by
    rcases List.mem_cons.1 member with rfl | old
    · have := tiled.pos c (by simp)
      show 0 < c.len + d.len
      omega
    · exact tiled.pos e (by simp [old])
  aligned e member := by
    rcases List.mem_cons.1 member with rfl | old
    · have first := tiled.aligned c (by simp)
      have second := tiled.aligned d (by simp)
      exact ⟨first.1, Nat.dvd_add first.2 second.2⟩
    · exact tiled.aligned e (by simp [old])
  inside e member x has := by
    rcases List.mem_cons.1 member with rfl | old
    · obtain ⟨low, high⟩ := has
      dsimp only at low high
      by_cases first : x < c.start + c.len
      · exact tiled.inside c (by simp) x ⟨low, first⟩
      · exact tiled.inside d (by simp) x ⟨by omega, by omega⟩
    · exact tiled.inside e (by simp [old]) x has
  apart := by
    obtain ⟨ofC, rest⟩ := List.pairwise_cons.1 tiled.apart
    obtain ⟨ofD, rest⟩ := List.pairwise_cons.1 rest
    refine List.pairwise_cons.2 ⟨fun e member => ?_, rest⟩
    have apartC := ofC e (by simp [member])
    have apartD := ofD e member
    have someD := tiled.pos d (by simp)
    have someE := tiled.pos e (by simp [member])
    unfold Span.Apart at *
    dsimp only
    omega
  total := by
    have sum := tiled.total
    simp only [List.map_cons, List.sum_cons] at sum ⊢
    omega

/-- A chunk cut in two. -/
theorem cut (tiled : Tiled g mem (c :: chunks)) {n : Nat} (some_ : 0 < n) (less : n < c.len)
    (multiple : g ∣ n) : Tiled g mem (⟨c.start, n⟩ :: ⟨c.start + n, c.len - n⟩ :: chunks) where
  pos e member := by
    simp only [List.mem_cons] at member
    rcases member with rfl | rfl | old
    · exact some_
    · show 0 < c.len - n
      omega
    · exact tiled.pos e (by simp [old])
  aligned e member := by
    have whole := tiled.aligned c (by simp)
    simp only [List.mem_cons] at member
    rcases member with rfl | rfl | old
    · exact ⟨whole.1, multiple⟩
    · exact ⟨Nat.dvd_add whole.1 multiple, Nat.dvd_sub whole.2 multiple⟩
    · exact tiled.aligned e (by simp [old])
  inside e member x has := by
    simp only [List.mem_cons] at member
    rcases member with rfl | rfl | old
    · obtain ⟨low, high⟩ := has
      dsimp only at low high
      exact tiled.inside c (by simp) x ⟨low, by omega⟩
    · obtain ⟨low, high⟩ := has
      dsimp only at low high
      exact tiled.inside c (by simp) x ⟨by omega, by omega⟩
    · exact tiled.inside e (by simp [old]) x has
  apart := by
    obtain ⟨ofC, rest⟩ := List.pairwise_cons.1 tiled.apart
    refine List.pairwise_cons.2 ⟨fun e member => ?_, List.pairwise_cons.2 ⟨fun e member => ?_, rest⟩⟩
    · rcases List.mem_cons.1 member with rfl | old
      · exact Or.inl (Nat.le_refl _)
      · have apartC := ofC e old
        unfold Span.Apart at *
        dsimp only
        omega
    · have apartC := ofC e member
      unfold Span.Apart at *
      dsimp only
      omega
  total := by
    have sum := tiled.total
    simp only [List.map_cons, List.sum_cons] at sum ⊢
    omega

/-- No more chunks than there is memory. -/
theorem length_le (tiled : Tiled g mem chunks) : chunks.length ≤ (mem.map Span.len).sum := by
  rw [← tiled.total]
  have lengths := List.length_le_sum_of_one_le (chunks.map Span.len) ?_
  · simpa using lengths
  · intro n member
    obtain ⟨c, isChunk, rfl⟩ := List.mem_map.1 member
    exact tiled.pos c isChunk

/-- Chunks end where the memory ends. -/
theorem end_le (tiled : Tiled g mem chunks) {z : Nat} (below : ∀ r ∈ mem, r.start + r.len ≤ z)
    (member : c ∈ chunks) : c.start + c.len ≤ z := by
  have some_ := tiled.pos c member
  obtain ⟨r, isRegion, -, high⟩ := tiled.inside c member (c.start + c.len - 1) ⟨by omega, by omega⟩
  have := below r isRegion
  omega

theorem start_ge (tiled : Tiled g mem chunks) {z : Nat} (above : ∀ r ∈ mem, z ≤ r.start)
    (member : c ∈ chunks) : z ≤ c.start := by
  have some_ := tiled.pos c member
  obtain ⟨r, isRegion, low, -⟩ := tiled.inside c member c.start ⟨by omega, by omega⟩
  have := above r isRegion
  omega

/-- New memory beyond the old is one more chunk. -/
theorem grow (tiled : Tiled g mem chunks) (beyond : ∀ s ∈ mem, s.start + s.len ≤ r.start)
    (some_ : 0 < r.len) (aligned : g ∣ r.start ∧ g ∣ r.len) : Tiled g (r :: mem) (r :: chunks) where
  pos e member := by
    rcases List.mem_cons.1 member with rfl | old
    · exact some_
    · exact tiled.pos e old
  aligned e member := by
    rcases List.mem_cons.1 member with rfl | old
    · exact aligned
    · exact tiled.aligned e old
  inside e member x has := by
    rcases List.mem_cons.1 member with rfl | old
    · exact ⟨e, by simp, has⟩
    · obtain ⟨s, isRegion, hasS⟩ := tiled.inside e old x has
      exact ⟨s, by simp [isRegion], hasS⟩
  apart := List.pairwise_cons.2 ⟨fun _ member => Or.inr (tiled.end_le beyond member), tiled.apart⟩
  total := by
    have sum := tiled.total
    simp only [List.map_cons, List.sum_cons] at sum ⊢
    omega

end Tiled

end Xv6Rpi.Theory
