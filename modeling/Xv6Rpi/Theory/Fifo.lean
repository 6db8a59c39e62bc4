/-
# Theory.Fifo -- a ring buffer with free-running counters

A queue of at most `cap` elements is kept in cells `0 .. cap - 1`; element number `k`
ever put in goes to cell `k % cap`.  The counters of elements taken and put run freely
modulo `M`, a multiple of `cap`.  `Queued cap M data r w q` says that the cells and the
counters stand for the queue `q`.

* `Queued.empty_iff`, `Queued.full_iff`: the two tests on the counters;
* `Queued.put`, `Queued.take`: the two moves;
* `Queued.drop`: the element put in last is taken back.
-/
import Mathlib.Data.Nat.ModEq
import Mathlib.Logic.Function.Basic
import Mathlib.Tactic.Common

namespace Xv6Rpi.Theory

set_option autoImplicit false

variable {α : Type}

structure Queued (cap M : Nat) (data : Nat → α) (r w : Nat) (q : List α) : Prop where
  few : q.length ≤ cap
  front : r < M
  back : w = (r + q.length) % M
  cells : ∀ i (inside : i < q.length), data ((r + i) % cap) = q[i]

/-- Fewer than `cap` steps apart, two cells are distinct. -/
theorem cell_ne {cap r i j : Nat} (less : i < j) (near : j < i + cap) :
    (r + i) % cap ≠ (r + j) % cap := by
  intro same
  have cong : i ≡ j [MOD cap] := Nat.ModEq.add_left_cancel' r same
  have divides := (Nat.modEq_iff_dvd' (Nat.le_of_lt less)).1 cong
  have := Nat.le_of_dvd (by omega) divides
  omega

namespace Queued

variable {cap M r w : Nat} {data : Nat → α} {q : List α}

theorem nil (front : r < M) : Queued cap M data r r [] where
  few := Nat.zero_le _
  front := front
  back := (Nat.mod_eq_of_lt front).symm
  cells i inside := by cases inside

/-- The distance of the counters is the length. -/
theorem length_eq (queued : Queued cap M data r w q) (room : cap < M) :
    (w + M - r) % M = q.length := by
  have few := queued.few
  have front := queued.front
  rw [queued.back]
  by_cases wraps : r + q.length < M
  · rw [Nat.mod_eq_of_lt wraps, show r + q.length + M - r = q.length + M by omega, Nat.add_mod_right]
    exact Nat.mod_eq_of_lt (by omega)
  · have once : (r + q.length) % M = r + q.length - M := by
      rw [Nat.mod_eq_sub_mod (by omega)]
      exact Nat.mod_eq_of_lt (by omega)
    rw [once, show r + q.length - M + M - r = q.length by omega]
    exact Nat.mod_eq_of_lt (by omega)

/-- Counters `k` apart, modulo `M`, mean `k` elements. -/
theorem apart_iff (queued : Queued cap M data r w q) (room : cap < M) {k : Nat} (small : k ≤ cap) :
    w = (r + k) % M ↔ q.length = k := by
  constructor
  · intro apart
    have same : (r + q.length) % M = (r + k) % M := queued.back.symm.trans apart
    have cong : q.length ≡ k [MOD M] := Nat.ModEq.add_left_cancel' r same
    have few := queued.few
    exact Nat.ModEq.eq_of_lt_of_lt cong (by omega) (by omega)
  · intro same
    rw [← same]
    exact queued.back

theorem empty_iff (queued : Queued cap M data r w q) (room : cap < M) : r = w ↔ q = [] := by
  have none_ := queued.apart_iff room (Nat.zero_le cap)
  rw [Nat.add_zero, Nat.mod_eq_of_lt queued.front, List.length_eq_zero_iff] at none_
  exact eq_comm.trans none_

theorem full_iff (queued : Queued cap M data r w q) (room : cap < M) :
    w = (r + cap) % M ↔ q.length = cap := queued.apart_iff room (Nat.le_refl cap)

/-- Putting an element. -/
theorem put (queued : Queued cap M data r w q) (divides : cap ∣ M) (notFull : q.length < cap) (x : α) :
    Queued cap M (Function.update data (w % cap) x) r ((w + 1) % M) (q ++ [x]) where
  few := by
    rw [List.length_append, List.length_singleton]
    omega
  front := queued.front
  back := by
    rw [queued.back, Nat.mod_add_mod, List.length_append, List.length_singleton, Nat.add_assoc]
  cells i inside := by
    rw [List.length_append, List.length_singleton] at inside
    have place : w % cap = (r + q.length) % cap := by
      rw [queued.back, Nat.mod_mod_of_dvd _ divides]
    rw [place]
    by_cases last : i = q.length
    · subst last
      rw [Function.update_self, List.getElem_concat_length rfl]
    · have old : i < q.length := by omega
      rw [Function.update_of_ne (cell_ne old (by omega)), queued.cells i old,
        List.getElem_append_left old]

/-- Taking the element in front. -/
theorem take {x : α} (queued : Queued cap M data r w (x :: q)) (divides : cap ∣ M) :
    data (r % cap) = x ∧ Queued cap M data ((r + 1) % M) w q := by
  have first : 0 < (x :: q).length := Nat.succ_pos _
  refine ⟨queued.cells 0 first, ?_⟩
  have few := queued.few
  rw [List.length_cons] at few
  refine ⟨by omega, Nat.mod_lt _ (Nat.zero_lt_of_lt queued.front), ?_, fun i inside => ?_⟩
  · rw [queued.back, Nat.mod_add_mod, List.length_cons, Nat.add_assoc, Nat.add_comm q.length 1]
  · have later : i + 1 < (x :: q).length := Nat.succ_lt_succ inside
    have cell := queued.cells (i + 1) later
    rw [List.getElem_cons_succ] at cell
    rw [← cell, ← Nat.mod_mod_of_dvd _ divides, Nat.mod_add_mod, Nat.mod_mod_of_dvd _ divides,
      Nat.add_assoc, Nat.add_comm 1 i]

/-- The first elements are a queue of their own. -/
theorem front_part {q' : List α} (queued : Queued cap M data r w (q ++ q')) :
    Queued cap M data r ((r + q.length) % M) q := by
  have few := queued.few
  rw [List.length_append] at few
  refine ⟨by omega, queued.front, rfl, fun i inside => ?_⟩
  rw [queued.cells i (by simp; omega), List.getElem_append_left inside]

/-- So are those after them. -/
theorem back_part {q' : List α} (queued : Queued cap M data r w (q ++ q')) (divides : cap ∣ M) :
    Queued cap M data ((r + q.length) % M) w q' := by
  induction q generalizing r with
  | nil =>
    rw [List.length_nil, Nat.add_zero, Nat.mod_eq_of_lt queued.front]
    exact queued
  | cons x q ih =>
    have rest := ih (queued.take divides).2
    rw [Nat.mod_add_mod, Nat.add_assoc, Nat.add_comm 1] at rest
    exact rest

/-- Taking back the element at the end. -/
theorem drop {x : α} (queued : Queued cap M data r w (q ++ [x])) (divides : cap ∣ M) :
    data ((w + M - 1) % M % cap) = x ∧ Queued cap M data r ((w + M - 1) % M) q := by
  have few := queued.few
  have front := queued.front
  rw [List.length_append, List.length_singleton] at few
  have back : (w + M - 1) % M = (r + q.length) % M := by
    rw [queued.back, List.length_append, List.length_singleton]
    have same : ((r + (q.length + 1)) % M + M - 1) % M = (r + (q.length + 1) + (M - 1)) % M := by
      rw [Nat.add_sub_assoc (by omega), Nat.mod_add_mod]
    rw [same, show r + (q.length + 1) + (M - 1) = r + q.length + M by omega, Nat.add_mod_right]
  constructor
  · rw [back, Nat.mod_mod_of_dvd _ divides, queued.cells q.length (by simp), List.getElem_concat_length rfl]
  · refine ⟨by omega, front, back, fun i inside => ?_⟩
    rw [queued.cells i (by simp; omega), List.getElem_append_left inside]

end Queued

end Xv6Rpi.Theory
