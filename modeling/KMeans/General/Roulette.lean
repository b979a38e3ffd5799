import Mathlib.Algebra.Order.BigOperators.Group.List
import Mathlib.Algebra.Order.Group.Defs

/-! # Selection by subtraction

The weights are subtracted from a threshold one after another, and the first index at which
nothing is left is taken. For weights that are not negative a threshold up to their sum always
finds an index, and a positive one never finds a weight of zero.
-/

namespace Roulette

variable {K : Type*} [AddCommGroup K] [LinearOrder K] [IsOrderedAddMonoid K]

/-- The first index at which the weights up to it reach the threshold. -/
def pick : List K → K → Option Nat
  | [], _ => none
  | weight :: rest, threshold =>
      if threshold - weight ≤ 0 then some 0 else (pick rest (threshold - weight)).map (· + 1)

omit [IsOrderedAddMonoid K] in
theorem pick_lt {weights : List K} {threshold : K} {j : Nat}
    (picked : pick weights threshold = some j) : j < weights.length := by
  induction weights generalizing threshold j with
  | nil => cases picked
  | cons weight rest ih =>
      unfold pick at picked
      split at picked
      · cases picked
        exact Nat.succ_pos _
      · obtain ⟨i, later, rfl⟩ := Option.map_eq_some_iff.mp picked
        exact Nat.succ_lt_succ (ih later)

/-- Only a threshold above the sum of the weights is not reached. -/
theorem pick_eq_none {weights : List K} (nonneg : ∀ weight ∈ weights, 0 ≤ weight) {threshold : K} :
    pick weights threshold = none ↔ weights = [] ∨ weights.sum < threshold := by
  induction weights generalizing threshold with
  | nil => simp [pick]
  | cons weight rest ih =>
      have positive : 0 ≤ rest.sum :=
        List.sum_nonneg fun w member => nonneg w (List.mem_cons_of_mem weight member)
      unfold pick
      split
      case isTrue reached =>
        have before : threshold ≤ weight + rest.sum :=
          (sub_nonpos.mp reached).trans (le_add_of_nonneg_right positive)
        simp [before]
      case isFalse further =>
        rw [Option.map_eq_none_iff, ih fun w member => nonneg w (List.mem_cons_of_mem weight member)]
        have beyond := sub_pos.mp (not_le.mp further)
        cases rest with
        | nil => simp [beyond]
        | cons next rest => simp [lt_sub_iff_add_lt']

/-- A threshold of zero takes the first index. -/
theorem pick_zero {weights : List K} (nonneg : ∀ weight ∈ weights, 0 ≤ weight)
    (some_weight : weights ≠ []) : pick weights 0 = some 0 := by
  cases weights with
  | nil => exact absurd rfl some_weight
  | cons weight rest =>
      apply if_pos
      rw [zero_sub, neg_nonpos]
      exact nonneg weight List.mem_cons_self

/-- A positive threshold never takes a weight that is not positive. -/
theorem pick_pos {weights : List K} {threshold : K} (positive : 0 < threshold) {j : Nat}
    (picked : pick weights threshold = some j) : ∃ weight, weights[j]? = some weight ∧ 0 < weight := by
  induction weights generalizing threshold j with
  | nil => cases picked
  | cons weight rest ih =>
      unfold pick at picked
      split at picked
      case isTrue reached =>
        cases picked
        exact ⟨weight, rfl, positive.trans_le (sub_nonpos.mp reached)⟩
      case isFalse further =>
        obtain ⟨i, later, rfl⟩ := Option.map_eq_some_iff.mp picked
        exact ih (not_le.mp further) later

end Roulette
