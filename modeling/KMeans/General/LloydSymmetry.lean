import Mathlib.LinearAlgebra.AffineSpace.AffineMap
import KMeans.General.Lloyd

/-! # Symmetries of Lloyd's algorithm

A similarity of the space carries one run of the algorithm to another, and so does a
renumbering of the points. Every pass then computes corresponding centers and the same
assignment, the costs differ by one factor, and the two runs stop together.
-/

namespace Lloyd

open LeastSquares

variable {K E F ι ι' κ : Type*} [Field K] [LinearOrder K] [IsStrictOrderedRing K]
  [AddCommGroup E] [Module K E] [AddCommGroup F] [Module K F]
  [Fintype ι] [Fintype ι'] [Fintype κ] [LinearOrder κ]

/-- A linear map that multiplies all squared lengths by one positive factor. -/
structure Similarity (Q : QuadraticForm K E) (R : QuadraticForm K F) where
  map : E →ₗ[K] F
  ratio : K
  positive : 0 < ratio
  scales : ∀ v, R (map v) = ratio * Q v

/-- The identity, as a similarity. -/
def Similarity.refl (Q : QuadraticForm K E) : Similarity Q Q where
  map := LinearMap.id
  ratio := 1
  positive := one_pos
  scales v := (one_mul (Q v)).symm

/-- The same for an affine map and squared distances. -/
structure Symmetry (Q : QuadraticForm K E) (R : QuadraticForm K F) where
  map : E →ᵃ[K] F
  ratio : K
  positive : 0 < ratio
  scales : ∀ v, R (map.linear v) = ratio * Q v

/-- A similarity followed by no translation. -/
def Similarity.symmetry {Q : QuadraticForm K E} {R : QuadraticForm K F} (L : Similarity Q R) :
    Symmetry Q R where
  map := L.map.toAffineMap
  ratio := L.ratio
  positive := L.positive
  scales := L.scales

/-- Translation by `t`. -/
def Symmetry.shifting (Q : QuadraticForm K E) (t : E) : Symmetry Q Q where
  map := AffineMap.id K E + AffineMap.const K E t
  ratio := 1
  positive := one_pos
  scales v := by simp

variable {Q : QuadraticForm K E} {R : QuadraticForm K F} (S : Symmetry Q R) (σ : ι' ≃ ι)
  (x : ι → E)

omit [IsStrictOrderedRing K] in
@[simp] theorem Similarity.coe_symmetry (L : Similarity Q R) : ⇑L.symmetry.map = ⇑L.map := rfl

omit [IsStrictOrderedRing K] in
theorem Symmetry.apart (u v : E) : R (S.map u - S.map v) = S.ratio * Q (u - v) := by
  have moved := S.map.linearMap_vsub u v
  simp only [vsub_eq_sub] at moved
  rw [← moved, S.scales]

omit [Fintype κ] [LinearOrder κ] [IsStrictOrderedRing K] in
theorem cost_carried (c : κ → E) (a : ι → κ) :
    cost R (S.map ∘ x ∘ σ) (S.map ∘ c) (a ∘ σ) = S.ratio * cost Q x c a := by
  unfold cost
  rw [Finset.mul_sum, ← σ.sum_comp]
  apply Finset.sum_congr rfl
  intro i _
  exact S.apart (x (σ i)) (c (a (σ i)))

omit [Fintype κ] in
theorem map_members (a : ι → κ) (j : κ) :
    (members (a ∘ σ) j).map σ.toEmbedding = members a j := by
  ext i
  constructor
  · intro carried
    obtain ⟨i', inside, same⟩ := Finset.mem_map.mp carried
    have own := mem_members.mp inside
    apply mem_members.mpr
    rw [← own, ← same]
    rfl
  · intro inside
    apply Finset.mem_map.mpr
    refine ⟨σ.symm i, mem_members.mpr ?_, σ.apply_symm_apply i⟩
    rw [Function.comp_apply, σ.apply_symm_apply]
    exact mem_members.mp inside

omit [Fintype ι'] in
/-- The translation goes into a sum once for each summand and comes out of the mean once. -/
theorem mean_affine (f : E →ᵃ[K] F) {s : Finset ι'} (some_point : s.Nonempty) (y : ι' → E) :
    mean K s (f ∘ y) = f (mean K s y) := by
  have counted : (s.card : K) ≠ 0 := Nat.cast_ne_zero.mpr some_point.card_pos.ne'
  unfold mean
  rw [f.decomp]
  simp only [Function.comp_apply, Pi.add_apply, Finset.sum_add_distrib, Finset.sum_const, smul_add,
    map_smul, map_sum]
  rw [← Nat.cast_smul_eq_nsmul K s.card (f 0), smul_smul, inv_mul_cancel₀ counted, one_smul]

omit [Fintype ι] [Fintype ι'] in
theorem mean_carried {s : Finset ι'} (some_point : s.Nonempty) :
    mean K s (S.map ∘ x ∘ σ) = S.map (mean K (s.map σ.toEmbedding) x) := by
  rw [mean_affine S.map some_point]
  unfold mean
  rw [Finset.card_map, Finset.sum_map]
  rfl

variable (empty : E → E) (empty' : F → F) (c : κ → E)

omit [Fintype κ] in
theorem recenter_carried (corresponds : ∀ e, empty' (S.map e) = S.map (empty e)) (a : ι → κ) :
    recenter K (S.map ∘ x ∘ σ) empty' (a ∘ σ) (S.map ∘ c) = S.map ∘ recenter K x empty a c := by
  funext j
  have inhabited : (members (a ∘ σ) j).Nonempty ↔ (members a j).Nonempty := by
    rw [← map_members σ a j, Finset.map_nonempty]
  simp only [recenter, Function.comp_apply, inhabited]
  split
  · rw [mean_carried S σ x (inhabited.mpr ‹_›), map_members]
  · exact corresponds (c j)

variable [Nonempty κ]

theorem nearest_carried (p : E) : nearest R (S.map ∘ c) (S.map p) = nearest Q c p := by
  apply nearest_eq
  · intro l
    simp only [Function.comp_apply, S.apart]
    exact mul_le_mul_of_nonneg_left (nearest_le Q c p l) S.positive.le
  · intro l earlier
    simp only [Function.comp_apply, S.apart]
    exact mul_lt_mul_of_pos_left (nearest_lt Q earlier) S.positive

omit [Fintype ι] [Fintype ι'] in
theorem assign_carried : assign R (S.map ∘ x ∘ σ) (S.map ∘ c) = assign Q x c ∘ σ := by
  funext i
  exact nearest_carried S c (x (σ i))

section Runs

variable {empty : E → E} {empty' : F → F}
  (corresponds : ∀ e, empty' (S.map e) = S.map (empty e))

include corresponds

theorem centers_carried (n : Nat) :
    centers R (S.map ∘ x ∘ σ) empty' (S.map ∘ c) n = S.map ∘ centers Q x empty c n := by
  induction n with
  | zero => rfl
  | succ n ih =>
      rw [centers_succ, centers_succ, indexes, ih, assign_carried]
      exact recenter_carried S σ x empty empty' _ corresponds _

theorem indexes_carried (n : Nat) :
    indexes R (S.map ∘ x ∘ σ) empty' (S.map ∘ c) n = indexes Q x empty c n ∘ σ := by
  rw [indexes, centers_carried S σ x c corresponds, assign_carried]
  rfl

theorem value_carried (n : Nat) :
    value R (S.map ∘ x ∘ σ) empty' (S.map ∘ c) n = S.ratio * value Q x empty c n := by
  rw [value, centers_carried S σ x c corresponds, indexes_carried S σ x c corresponds,
    cost_carried]
  rfl

theorem previous_carried (n : Nat) :
    previous R (S.map ∘ x ∘ σ) empty' (S.map ∘ c) n = S.ratio * previous Q x empty c n := by
  cases n with
  | zero => exact (mul_zero S.ratio).symm
  | succ n => exact value_carried S σ x c corresponds n

/-- The two runs stop in the same pass. -/
theorem stopsAt_carried (n : Nat) :
    StopsAt R (S.map ∘ x ∘ σ) empty' (S.map ∘ c) n ↔ StopsAt Q x empty c n := by
  have same : ∀ m, value R (S.map ∘ x ∘ σ) empty' (S.map ∘ c) m =
      previous R (S.map ∘ x ∘ σ) empty' (S.map ∘ c) m ↔
        value Q x empty c m = previous Q x empty c m := by
    intro m
    rw [value_carried S σ x c corresponds, previous_carried S σ x c corresponds]
    exact mul_right_inj' S.positive.ne'
  unfold StopsAt
  simp only [ne_eq, same]

end Runs

/-! ## The order of the points -/

section Renumbered

variable (Q) (empty : E → E)

omit [Fintype ι'] in
theorem Similarity.refl_comp (f : ι' → E) : (Similarity.refl Q).symmetry.map ∘ f = f := rfl

theorem Similarity.refl_corresponds (e : E) :
    empty ((Similarity.refl Q).symmetry.map e) = (Similarity.refl Q).symmetry.map (empty e) := rfl

theorem centers_renumbered (n : Nat) :
    centers Q (x ∘ σ) empty c n = centers Q x empty c n := by
  have carried := centers_carried (Similarity.refl Q).symmetry σ x c (Similarity.refl_corresponds Q empty) n
  simp only [Similarity.refl_comp] at carried
  exact carried

theorem indexes_renumbered (n : Nat) :
    indexes Q (x ∘ σ) empty c n = indexes Q x empty c n ∘ σ := by
  have carried := indexes_carried (Similarity.refl Q).symmetry σ x c (Similarity.refl_corresponds Q empty) n
  simp only [Similarity.refl_comp] at carried
  exact carried

theorem value_renumbered (n : Nat) : value Q (x ∘ σ) empty c n = value Q x empty c n := by
  have carried := value_carried (Similarity.refl Q).symmetry σ x c (Similarity.refl_corresponds Q empty) n
  simp only [Similarity.refl_comp] at carried
  exact carried.trans (one_mul _)

theorem stopsAt_renumbered (n : Nat) :
    StopsAt Q (x ∘ σ) empty c n ↔ StopsAt Q x empty c n := by
  have carried := stopsAt_carried (Similarity.refl Q).symmetry σ x c (Similarity.refl_corresponds Q empty) n
  simp only [Similarity.refl_comp] at carried
  exact carried

end Renumbered

end Lloyd
