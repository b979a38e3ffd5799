import Mathlib.LinearAlgebra.QuadraticForm.Basic
import Mathlib.Algebra.BigOperators.Field
import Mathlib.Algebra.Order.BigOperators.Group.Finset
import Mathlib.Algebra.Order.Field.Basic
import Mathlib.Tactic.LinearCombination
import Mathlib.Tactic.Positivity

/-! # The mean minimises the sum of squared distances

Distances are measured by a positive definite quadratic form, so that the same
facts serve every dimension and every ordered field of scalars. The decomposition
around the mean carries both the minimality and the uniqueness of the minimiser.
-/

namespace LeastSquares

variable {K E ι : Type*} [Field K] [LinearOrder K] [IsStrictOrderedRing K]
  [AddCommGroup E] [Module K E]

/-- Arithmetic mean of the family `x` over `s`. -/
def mean (K : Type*) [Field K] [Module K E] (s : Finset ι) (x : ι → E) : E :=
  (s.card : K)⁻¹ • ∑ i ∈ s, x i

/-- Sum of the squared distances from `c` to the members of the family. -/
def deviation (Q : QuadraticForm K E) (s : Finset ι) (x : ι → E) (c : E) : K :=
  ∑ i ∈ s, Q (x i - c)

theorem sum_sub_mean {s : Finset ι} (inhabited : s.Nonempty) (x : ι → E) :
    ∑ i ∈ s, (x i - mean K s x) = 0 := by
  have count : (s.card : K) ≠ 0 := Nat.cast_ne_zero.mpr inhabited.card_ne_zero
  rw [Finset.sum_sub_distrib, Finset.sum_const, ← Nat.cast_smul_eq_nsmul K, mean,
    smul_inv_smul₀ count, sub_self]

/-- Moving the reference point away from the mean costs exactly one squared
    displacement for each member. -/
theorem deviation_eq (Q : QuadraticForm K E) {s : Finset ι} (inhabited : s.Nonempty)
    (x : ι → E) (c : E) :
    deviation Q s x c = deviation Q s x (mean K s x) + s.card * Q (mean K s x - c) := by
  have expand : ∀ i, Q (x i - c) = Q (x i - mean K s x) + Q (mean K s x - c) +
      Q.polarBilin (x i - mean K s x) (mean K s x - c) := by
    intro i
    have split : x i - c = (x i - mean K s x) + (mean K s x - c) := by abel
    rw [split, QuadraticMap.map_add Q, QuadraticMap.polarBilin_apply_apply]
  have cross : ∑ i ∈ s, Q.polarBilin (x i - mean K s x) (mean K s x - c) = 0 := by
    rw [← LinearMap.sum_apply, ← map_sum, sum_sub_mean inhabited, map_zero, LinearMap.zero_apply]
  simp only [deviation, expand, Finset.sum_add_distrib, cross, Finset.sum_const, nsmul_eq_mul,
    add_zero]

theorem deviation_mean_le {Q : QuadraticForm K E} (pos : Q.PosDef) {s : Finset ι}
    (inhabited : s.Nonempty) (x : ι → E) (c : E) :
    deviation Q s x (mean K s x) ≤ deviation Q s x c := by
  rw [deviation_eq Q inhabited x c]
  have extra : 0 ≤ s.card * Q (mean K s x - c) := mul_nonneg (Nat.cast_nonneg _) (pos.nonneg _)
  exact le_add_of_nonneg_right extra

/-- The mean is the only minimiser. -/
theorem eq_mean_of_deviation_le {Q : QuadraticForm K E} (pos : Q.PosDef) {s : Finset ι}
    (inhabited : s.Nonempty) {x : ι → E} {c : E}
    (le : deviation Q s x c ≤ deviation Q s x (mean K s x)) : c = mean K s x := by
  rw [deviation_eq Q inhabited x c] at le
  have count : (0 : K) < s.card := Nat.cast_pos.mpr inhabited.card_pos
  have small : Q (mean K s x - c) ≤ 0 := by
    by_contra large
    have extra := mul_pos count (not_le.mp large)
    exact absurd le (not_le.mpr (lt_add_of_pos_right _ extra))
  exact (sub_eq_zero.mp (pos.le_zero_iff.mp small)).symm

theorem mean_const {s : Finset ι} (inhabited : s.Nonempty) {x : ι → E} {c : E}
    (same : ∀ i ∈ s, x i = c) : mean K s x = c := by
  have count : (s.card : K) ≠ 0 := Nat.cast_ne_zero.mpr inhabited.card_ne_zero
  rw [mean, Finset.sum_congr rfl same, Finset.sum_const, ← Nat.cast_smul_eq_nsmul K,
    inv_smul_smul₀ count]

end LeastSquares
