import Mathlib.Algebra.Order.BigOperators.Group.List
import Mathlib.Algebra.Order.Group.Nat
import Mathlib.Algebra.Ring.Nat

/-!
# `Alcor.Lib.Pieces`: a line of pieces of given sizes

Pieces of the sizes `ss` are laid end to end from 0 on. `edge ss k` is
where piece `k` starts, so piece `k` is the half-open interval from
`edge ss k` to `edge ss (k + 1)`. No point is in two pieces
(`piece_unique`), and every point below the sum of the sizes is in one
(`exists_piece`). Empty pieces contain no point and need no care there.
-/

set_option autoImplicit false

namespace Lib.Pieces

variable {k : Nat} {ss : List Nat}

/-- Where piece `k` starts. -/
def edge (ss : List Nat) (k : Nat) : Nat := (ss.take k).sum

@[simp] theorem edge_zero (ss : List Nat) : edge ss 0 = 0 := by
  simp [edge]

@[simp] theorem edge_length (ss : List Nat) : edge ss ss.length = ss.sum := by
  simp [edge]

@[simp] theorem edge_cons_succ (s : Nat) (ss : List Nat) (k : Nat) :
    edge (s :: ss) (k + 1) = s + edge ss k := by
  simp [edge]

theorem edge_succ (h : k < ss.length) : edge ss (k + 1) = edge ss k + ss[k] := by
  unfold edge
  rw [List.take_succ_eq_append_getElem h, List.sum_append, List.sum_singleton]

/-- The edges follow the order of the pieces. -/
theorem edge_mono (ss : List Nat) {j : Nat} (h : j ≤ k) : edge ss j ≤ edge ss k := by
  unfold edge
  exact (List.take_sublist_take_left h).sum_le_sum (fun _ _ => Nat.zero_le _)

/-- No edge is behind the end of the line. -/
theorem edge_le_sum (ss : List Nat) (k : Nat) : edge ss k ≤ ss.sum := by
  unfold edge
  exact (List.take_sublist k ss).sum_le_sum (fun _ _ => Nat.zero_le _)

/-- Pieces of positive size have different edges: each starts before
it ends. -/
theorem edge_lt_succ (hpos : ∀ s ∈ ss, 0 < s) (h : k < ss.length) :
    edge ss k < edge ss (k + 1) := by
  have := hpos ss[k] (List.getElem_mem h)
  rw [edge_succ h]
  omega

/-- Pieces of one size start at its multiples. -/
theorem edge_replicate {n s : Nat} (h : k ≤ n) : edge (List.replicate n s) k = k * s := by
  unfold edge
  rw [List.take_replicate, Nat.min_eq_left h, List.sum_replicate_nat]

/-- No point is in two pieces: two intervals with a common point are
the same one. -/
theorem piece_unique (ss : List Nat) (x : Nat) {j : Nat} (hj : edge ss j ≤ x)
    (hj' : x < edge ss (j + 1)) (hk : edge ss k ≤ x) (hk' : x < edge ss (k + 1)) : j = k := by
  -- Of two different pieces, the earlier one ends before the later one starts.
  rcases Nat.lt_trichotomy j k with h | h | h
  · have := edge_mono ss (show j + 1 ≤ k from h)
    omega
  · exact h
  · have := edge_mono ss (show k + 1 ≤ j from h)
    omega

/-- Every point of the line is in a piece, by induction on the pieces. -/
theorem exists_piece {x : Nat} (h : x < ss.sum) :
    ∃ k, k < ss.length ∧ edge ss k ≤ x ∧ x < edge ss (k + 1) := by
  induction ss generalizing x with
  | nil => simp at h
  | cons s ss ih =>
    rw [List.sum_cons] at h
    by_cases hs : x < s
    · exact ⟨0, by simp, by simp, by simpa using hs⟩
    · obtain ⟨k, hk, hle, hlt⟩ := ih (show x - s < ss.sum by omega)
      refine ⟨k + 1, by simpa using hk, ?_, ?_⟩
      · rw [edge_cons_succ]
        omega
      · rw [edge_cons_succ]
        omega

end Lib.Pieces
