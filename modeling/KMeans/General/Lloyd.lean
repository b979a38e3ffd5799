import Mathlib.Data.Fintype.BigOperators
import Mathlib.Data.Finset.Max
import Mathlib.Data.Set.Finite.Lemmas
import Mathlib.Data.Set.Finite.Powerset
import Mathlib.Dynamics.FixedPoints.Basic
import KMeans.General.Loops
import KMeans.General.LeastSquares

/-! # Lloyd's algorithm

The points are a finite family, the clusters a finite linear order; a tie between
centers goes to the least cluster. What happens to the center of an empty cluster
is a parameter `empty`, because the descent of the cost does not depend on it and
the fixed point property does.
-/

namespace Lloyd

open LeastSquares

variable {K E ι κ : Type*} [Field K] [LinearOrder K] [IsStrictOrderedRing K]
  [AddCommGroup E] [Module K E] [Fintype ι] [Fintype κ] [LinearOrder κ]

section Nearest

variable (Q : QuadraticForm K E)

/-- The clusters whose center is at the least distance from `p`. -/
def closest (c : κ → E) (p : E) : Finset κ :=
  Finset.univ.filter fun j => ∀ l, Q (c j - p) ≤ Q (c l - p)

omit [IsStrictOrderedRing K] [LinearOrder κ] in
theorem closest_nonempty [Nonempty κ] (c : κ → E) (p : E) : (closest Q c p).Nonempty := by
  obtain ⟨j, -, least⟩ := Finset.exists_min_image Finset.univ (fun j => Q (c j - p))
    Finset.univ_nonempty
  exact ⟨j, Finset.mem_filter.mpr ⟨Finset.mem_univ j, fun l => least l (Finset.mem_univ l)⟩⟩

/-- The least cluster among those whose center is closest to `p`. -/
def nearest [Nonempty κ] (c : κ → E) (p : E) : κ :=
  (closest Q c p).min' (closest_nonempty Q c p)

variable [Nonempty κ]

omit [IsStrictOrderedRing K] in
theorem nearest_le (c : κ → E) (p : E) (l : κ) : Q (c (nearest Q c p) - p) ≤ Q (c l - p) :=
  (Finset.mem_filter.mp ((closest Q c p).min'_mem (closest_nonempty Q c p))).2 l

omit [IsStrictOrderedRing K] in
theorem nearest_lt {c : κ → E} {p : E} {l : κ} (earlier : l < nearest Q c p) :
    Q (c (nearest Q c p) - p) < Q (c l - p) := by
  refine lt_of_le_of_ne (nearest_le Q c p l) fun tie => ?_
  have member : l ∈ closest Q c p :=
    Finset.mem_filter.mpr ⟨Finset.mem_univ l, fun m => tie ▸ nearest_le Q c p m⟩
  exact absurd earlier (not_lt.mpr ((closest Q c p).min'_le l member))

omit [IsStrictOrderedRing K] in
/-- A scan that keeps the first minimum computes `nearest`. -/
theorem nearest_eq {c : κ → E} {p : E} {j : κ} (least : ∀ l, Q (c j - p) ≤ Q (c l - p))
    (first : ∀ l < j, Q (c j - p) < Q (c l - p)) : nearest Q c p = j := by
  rcases lt_trichotomy (nearest Q c p) j with earlier | same | later
  · exact absurd (nearest_le Q c p j) (not_le.mpr (first _ earlier))
  · exact same
  · exact absurd (nearest_lt Q later) (not_lt.mpr (least _))

end Nearest

/-- The members of cluster `j`. -/
def members (a : ι → κ) (j : κ) : Finset ι := Finset.univ.filter fun i => a i = j

omit [Fintype κ] in
@[simp] theorem mem_members {a : ι → κ} {i : ι} {j : κ} : i ∈ members a j ↔ a i = j := by
  simp [members]

omit [Fintype κ] in
theorem members_nonempty (a : ι → κ) (i : ι) : (members a (a i)).Nonempty := ⟨i, by simp⟩

/-- Sum of the squared distances from each point to the center of its cluster. -/
def cost (Q : QuadraticForm K E) (x : ι → E) (c : κ → E) (a : ι → κ) : K :=
  ∑ i, Q (x i - c (a i))

/-- The mean of each nonempty cluster; `empty` treats the center of an empty one. -/
def recenter (K : Type*) [Field K] [Module K E] (x : ι → E) (empty : E → E) (a : ι → κ)
    (c : κ → E) (j : κ) : E :=
  if (members a j).Nonempty then mean K (members a j) x else empty (c j)

section Pass

variable (Q : QuadraticForm K E) (x : ι → E) (empty : E → E)

omit [LinearOrder K] [IsStrictOrderedRing K] in
theorem cost_eq_deviations (c : κ → E) (a : ι → κ) :
    cost Q x c a = ∑ j, deviation Q (members a j) x (c j) := by
  have fibers := Finset.sum_fiberwise (s := Finset.univ) a fun i => Q (x i - c (a i))
  rw [cost, ← fibers]
  refine Finset.sum_congr rfl fun j _ => Finset.sum_congr rfl fun i inside => ?_
  rw [mem_members.mp inside]

variable {Q} in
omit [Fintype κ] in
theorem deviation_recenter_le (pos : Q.PosDef) (a : ι → κ) (c : κ → E) (j : κ) :
    deviation Q (members a j) x (recenter K x empty a c j) ≤ deviation Q (members a j) x (c j) := by
  by_cases inhabited : (members a j).Nonempty
  · rw [recenter, if_pos inhabited]
    exact deviation_mean_le pos inhabited x (c j)
  · simp [Finset.not_nonempty_iff_eq_empty.mp inhabited, deviation]

variable {Q} in
theorem cost_recenter_le (pos : Q.PosDef) (a : ι → κ) (c : κ → E) :
    cost Q x (recenter K x empty a c) a ≤ cost Q x c a := by
  rw [cost_eq_deviations, cost_eq_deviations]
  exact Finset.sum_le_sum fun j _ => deviation_recenter_le x empty pos a c j

variable {Q} in
/-- Recentering that does not lower the cost moves no center of a nonempty cluster. -/
theorem recenter_eq_of_cost_le (pos : Q.PosDef) {a : ι → κ} {c : κ → E}
    (le : cost Q x c a ≤ cost Q x (recenter K x empty a c) a) {j : κ}
    (inhabited : (members a j).Nonempty) : recenter K x empty a c j = c j := by
  rw [cost_eq_deviations, cost_eq_deviations] at le
  have each := (Finset.sum_eq_sum_iff_of_le fun l _ => deviation_recenter_le x empty pos a c l).mp
    (le_antisymm (Finset.sum_le_sum fun l _ => deviation_recenter_le x empty pos a c l) le)
    j (Finset.mem_univ j)
  rw [recenter, if_pos inhabited] at each ⊢
  exact (eq_mean_of_deviation_le pos inhabited each.ge).symm

variable [Nonempty κ]

/-- Each point goes to its nearest center. -/
def assign (c : κ → E) (i : ι) : κ := nearest Q c (x i)

theorem cost_assign_le (c : κ → E) (a : ι → κ) : cost Q x c (assign Q x c) ≤ cost Q x c a := by
  refine Finset.sum_le_sum fun i _ => ?_
  rw [QuadraticMap.map_sub Q (x i), QuadraticMap.map_sub Q (x i)]
  exact nearest_le Q c (x i) (a i)

/-- The centers after one pass of the loop. -/
def pass (c : κ → E) : κ → E := recenter K x empty (assign Q x c) c

variable (c : κ → E)

/-- The centers that pass number `n` starts from, counting from zero. -/
def centers (n : Nat) : κ → E := (pass Q x empty)^[n] c

/-- The assignment that pass `n` computes. -/
def indexes (n : Nat) : ι → κ := assign Q x (centers Q x empty c n)

/-- The cost that pass `n` computes: the new assignment against the old centers. -/
def value (n : Nat) : K := cost Q x (centers Q x empty c n) (indexes Q x empty c n)

/-- What pass `n` compares its cost with: the cost of the pass before, and zero at first. -/
def previous : Nat → K
  | 0 => 0
  | n + 1 => value Q x empty c n

/-- Pass `n` is the first to repeat the cost of the pass before it. -/
def StopsAt (n : Nat) : Prop :=
  value Q x empty c n = previous Q x empty c n ∧
    ∀ m < n, value Q x empty c m ≠ previous Q x empty c m

omit [IsStrictOrderedRing K] in
theorem centers_succ (n : Nat) : centers Q x empty c (n + 1) =
    recenter K x empty (indexes Q x empty c n) (centers Q x empty c n) :=
  Function.iterate_succ_apply' _ _ _

variable {Q} (pos : Q.PosDef)

include pos

/-- The cost never rises: the new centers serve the old assignment at least as
    well, and the new assignment serves the new centers at least as well. -/
theorem value_succ_le (n : Nat) : value Q x empty c (n + 1) ≤ value Q x empty c n :=
  calc value Q x empty c (n + 1)
      ≤ cost Q x (centers Q x empty c (n + 1)) (indexes Q x empty c n) := cost_assign_le Q x _ _
    _ ≤ value Q x empty c n := by
      rw [centers_succ]
      exact cost_recenter_le x empty pos _ _

theorem centers_succ_eq_of_value_eq {n : Nat}
    (same : value Q x empty c (n + 1) = value Q x empty c n) {j : κ}
    (inhabited : (members (indexes Q x empty c n) j).Nonempty) :
    centers Q x empty c (n + 1) j = centers Q x empty c n j := by
  have stays : cost Q x (centers Q x empty c n) (indexes Q x empty c n) ≤
      cost Q x (centers Q x empty c (n + 1)) (indexes Q x empty c n) :=
    same.ge.trans (cost_assign_le Q x _ _)
  rw [centers_succ] at stays ⊢
  exact recenter_eq_of_cost_le x empty pos stays inhabited

/-- If the cost stays, the old assignment is still a nearest one. -/
theorem nearest_ties_of_value_eq {n : Nat}
    (same : value Q x empty c (n + 1) = value Q x empty c n) (i : ι) (l : κ) :
    Q (centers Q x empty c (n + 1) (indexes Q x empty c n i) - x i) ≤
      Q (centers Q x empty c (n + 1) l - x i) := by
  have least : ∀ i ∈ Finset.univ, Q (x i - centers Q x empty c (n + 1) (indexes Q x empty c (n + 1) i)) ≤
      Q (x i - centers Q x empty c (n + 1) (indexes Q x empty c n i)) := by
    intro i _
    rw [QuadraticMap.map_sub Q (x i), QuadraticMap.map_sub Q (x i)]
    exact nearest_le Q _ (x i) _
  have equal : cost Q x (centers Q x empty c (n + 1)) (indexes Q x empty c (n + 1)) =
      cost Q x (centers Q x empty c (n + 1)) (indexes Q x empty c n) := by
    refine same.trans (Finset.sum_congr rfl fun i _ => ?_)
    rw [centers_succ_eq_of_value_eq x empty c pos same (members_nonempty _ i)]
  have each := (Finset.sum_eq_sum_iff_of_le least).mp equal i (Finset.mem_univ i)
  rw [QuadraticMap.map_sub Q (x i), QuadraticMap.map_sub Q (x i)] at each
  exact each.ge.trans (nearest_le Q _ (x i) l)

theorem centers_succ_eq_of_value_zero {n : Nat} (zero : value Q x empty c n = 0) {j : κ}
    (inhabited : (members (indexes Q x empty c n) j).Nonempty) :
    centers Q x empty c (n + 1) j = centers Q x empty c n j := by
  have each := (Finset.sum_eq_zero_iff_of_nonneg fun i _ => pos.nonneg _).mp zero
  rw [centers_succ, recenter, if_pos inhabited]
  refine mean_const inhabited fun i inside => ?_
  have gap := pos.le_zero_iff.mp (each i (Finset.mem_univ i)).le
  rw [mem_members.mp inside] at gap
  exact sub_eq_zero.mp gap

omit [IsStrictOrderedRing K] pos in
/-- Finitely many centers are ever reached, so the cost takes finitely many values. -/
theorem finite_range_value (bounded : ∀ F : Set E, F.Finite → ∃ G, F ⊆ G ∧ G.Finite ∧
    Set.MapsTo empty G G) : (Set.range (value Q x empty c)).Finite := by
  classical
  obtain ⟨G, within, finite, closed⟩ := bounded
    (Set.range c ∪ Set.range fun s : Finset ι => mean K s x)
    ((Set.finite_range c).union (Set.finite_range _))
  have reached : ∀ n j, centers Q x empty c n j ∈ G := by
    intro n
    induction n with
    | zero => exact fun j => within (Or.inl ⟨j, rfl⟩)
    | succ n ih =>
        intro j
        rw [centers_succ, recenter]
        split
        · exact within (Or.inr ⟨_, rfl⟩)
        · exact closed (ih j)
  have product : {d : κ → E | ∀ j, d j ∈ G}.Finite := Set.Finite.pi' fun _ => finite
  refine (product.image fun d => cost Q x d (assign Q x d)).subset ?_
  rintro _ ⟨n, rfl⟩
  exact ⟨centers Q x empty c n, reached n, rfl⟩

theorem exists_value_eq_previous (bounded : ∀ F : Set E, F.Finite → ∃ G, F ⊆ G ∧ G.Finite ∧
    Set.MapsTo empty G G) : ∃ n, value Q x empty c n = previous Q x empty c n := by
  obtain ⟨n, same⟩ := Loops.descending_repeats (value_succ_le x empty c pos)
    (finite_range_value x empty c bounded)
  exact ⟨n + 1, same⟩

theorem exists_stopsAt (bounded : ∀ F : Set E, F.Finite → ∃ G, F ⊆ G ∧ G.Finite ∧
    Set.MapsTo empty G G) : ∃ n, StopsAt Q x empty c n := by
  classical
  have stop := exists_value_eq_previous x empty c pos bounded
  exact ⟨Nat.find stop, Nat.find_spec stop, fun m lt => Nat.find_min stop lt⟩

end Pass

section Harmless

variable (Q : QuadraticForm K E) (x : ι → E) (empty : E → E) [Nonempty κ] (c : κ → E)

/-- Pass `n` moves the center of no empty cluster. -/
def Harmless (n : Nat) : Prop :=
  ∀ j, ¬ (members (indexes Q x empty c n) j).Nonempty →
    empty (centers Q x empty c n j) = centers Q x empty c n j

omit [IsStrictOrderedRing K] in
/-- As long as no empty cluster is moved, the treatment of empty clusters is invisible. -/
theorem centers_eq_keep {n : Nat} (harmless : ∀ m < n, Harmless Q x empty c m) :
    centers Q x empty c n = centers Q x id c n := by
  induction n with
  | zero => rfl
  | succ n ih =>
      have before := ih fun m lt => harmless m (by omega)
      have now := harmless n (by omega)
      funext j
      have same : indexes Q x id c n = indexes Q x empty c n := by rw [indexes, indexes, before]
      rw [centers_succ, centers_succ, same, ← before, recenter, recenter]
      split
      · rfl
      · exact now j ‹_›

omit [IsStrictOrderedRing K] in
/-- Conversely, two runs that agree through pass `n` moved no empty cluster in it. -/
theorem harmless_of_centers_eq {n : Nat} (now : centers Q x empty c n = centers Q x id c n)
    (next : centers Q x empty c (n + 1) = centers Q x id c (n + 1)) : Harmless Q x empty c n := by
  intro j absent
  have same : indexes Q x id c n = indexes Q x empty c n := by rw [indexes, indexes, now]
  have at_j := congrFun next j
  rw [centers_succ, centers_succ, same, ← now, recenter, recenter, if_neg absent, if_neg absent]
    at at_j
  exact at_j

omit [IsStrictOrderedRing K] in
theorem centers_settled {n : Nat} (settled : centers Q x empty c (n + 1) = centers Q x empty c n) :
    centers Q x empty c (n + 1 + 1) = centers Q x empty c (n + 1) := by
  rw [centers_succ _ _ _ _ (n + 1), indexes, settled, ← indexes, ← centers_succ, settled]

variable {Q} (pos : Q.PosDef)

include pos

theorem settled_of_value_eq {n : Nat} (harmless : Harmless Q x empty c n)
    (same : value Q x empty c (n + 1) = value Q x empty c n) :
    centers Q x empty c (n + 1) = centers Q x empty c n := by
  funext j
  by_cases inhabited : (members (indexes Q x empty c n) j).Nonempty
  · exact centers_succ_eq_of_value_eq x empty c pos same inhabited
  · rw [centers_succ, recenter, if_neg inhabited, harmless j inhabited]

omit [IsStrictOrderedRing K] pos in
theorem harmless_id (n : Nat) : Harmless Q x id c n := fun _ _ => rfl

/-- If every empty cluster keeps its center, the pass that stops the loop moves none. -/
theorem keep_stable {n : Nat} (stop : value Q x id c n = previous Q x id c n) :
    centers Q x id c (n + 1) = centers Q x id c n := by
  cases n with
  | zero =>
      funext j
      by_cases inhabited : (members (indexes Q x id c 0) j).Nonempty
      · exact centers_succ_eq_of_value_zero x id c pos stop inhabited
      · rw [centers_succ, recenter, if_neg inhabited, id]
  | succ n =>
      exact centers_settled Q x id c (settled_of_value_eq x id c pos (harmless_id x c n) stop)

end Harmless

end Lloyd
