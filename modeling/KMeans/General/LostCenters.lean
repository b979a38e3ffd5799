import Mathlib.Order.WithBot
import Mathlib.Data.Prod.Lex
import KMeans.General.Lloyd

/-! # Lloyd's algorithm that loses centers

Here a cluster without points loses its center, and no point is ever assigned to it again. A
pass is then a function of the assignment alone: it takes the means of the clusters that
have points and assigns each point to the nearest one.
-/

namespace Lloyd

open LeastSquares

variable {K E L ι κ : Type*} [Field K] [LinearOrder K]
  [AddCommGroup E] [Module K E] [LinearOrder L] [Fintype ι] [Fintype κ] [LinearOrder κ] [Nonempty κ]

/-! ## The first least value -/

section Least

/-- The indices of the least values of `f`. -/
def leasts (f : κ → L) : Finset κ := Finset.univ.filter fun j => ∀ l, f j ≤ f l

omit [LinearOrder κ] in
theorem leasts_nonempty (f : κ → L) : (leasts f).Nonempty := by
  obtain ⟨j, -, least⟩ := Finset.exists_min_image Finset.univ f Finset.univ_nonempty
  exact ⟨j, Finset.mem_filter.mpr ⟨Finset.mem_univ j, fun l => least l (Finset.mem_univ l)⟩⟩

/-- The first index of a least value. -/
def firstLeast (f : κ → L) : κ := (leasts f).min' (leasts_nonempty f)

theorem firstLeast_le (f : κ → L) (l : κ) : f (firstLeast f) ≤ f l :=
  (Finset.mem_filter.mp ((leasts f).min'_mem (leasts_nonempty f))).2 l

theorem firstLeast_first {f : κ → L} {j : κ} (least : ∀ l, f j ≤ f l) : firstLeast f ≤ j :=
  (leasts f).min'_le j (Finset.mem_filter.mpr ⟨Finset.mem_univ j, least⟩)

theorem firstLeast_eq {f : κ → L} {j : κ} (least : ∀ l, f j ≤ f l) (first : ∀ l < j, f j < f l) :
    firstLeast f = j := by
  apply le_antisymm (firstLeast_first least)
  by_contra earlier
  have less := first _ (not_le.mp earlier)
  exact absurd (firstLeast_le f j) (not_le.mpr less)

theorem nearest_eq_firstLeast (Q : QuadraticForm K E) (c : κ → E) (p : E) :
    nearest Q c p = firstLeast fun j => Q (c j - p) := by
  apply nearest_eq Q fun l => firstLeast_le (fun j => Q (c j - p)) l
  intro l earlier
  by_contra tie
  have least : ∀ m, Q (c l - p) ≤ Q (c m - p) := fun m =>
    (not_lt.mp tie).trans (firstLeast_le (fun j => Q (c j - p)) m)
  exact absurd earlier (not_lt.mpr (firstLeast_first least))

/-- A strictly increasing map of the values changes nothing. -/
theorem firstLeast_comp {M : Type*} [LinearOrder M] (f : κ → L) {g : L → M} (up : StrictMono g) :
    (firstLeast fun j => g (f j)) = firstLeast f := by
  apply firstLeast_eq
  · exact fun l => up.monotone (firstLeast_le f l)
  · intro l earlier
    apply up
    by_contra tie
    have least : ∀ m, f l ≤ f m := fun m => (not_lt.mp tie).trans (firstLeast_le f m)
    exact absurd earlier (not_lt.mpr (firstLeast_first least))

end Least

/-! ## A pass -/

/-- The squared distance from a center; nothing is near to a lost one. -/
def gap (Q : QuadraticForm K E) (c : κ → Option E) (p : E) (j : κ) : WithTop K :=
  (c j).elim ⊤ fun q => (Q (q - p) : WithTop K)

/-- Without lost centers the least gap is at the nearest one. -/
theorem firstLeast_gap (Q : QuadraticForm K E) (c : κ → E) (p : E) :
    firstLeast (gap Q (fun j => some (c j)) p) = nearest Q c p := by
  rw [nearest_eq_firstLeast]
  exact firstLeast_comp (fun j => Q (c j - p)) WithTop.coe_strictMono

/-- The centers after the points have been assigned by `a`. -/
def means (K : Type*) [Field K] [Module K E] (x : ι → E) (a : ι → κ) (j : κ) : Option E :=
  if (members a j).Nonempty then some (mean K (members a j) x) else none

/-- The assignment to the nearest of these centers. -/
def regroup (Q : QuadraticForm K E) (x : ι → E) (a : ι → κ) (i : ι) : κ :=
  firstLeast (gap Q (means K x a) (x i))

/-- The points that such a pass moves to another cluster. -/
def moved (Q : QuadraticForm K E) (x : ι → E) (a : ι → κ) : Finset ι :=
  Finset.univ.filter fun i => regroup Q x a i ≠ a i

/-- Sum of the squared distances from each point to the mean of its cluster. -/
def spread (Q : QuadraticForm K E) (x : ι → E) (a : ι → κ) : K :=
  cost Q x (fun j => mean K (members a j) x) a

section Pass

variable (Q : QuadraticForm K E) (x : ι → E) (a : ι → κ)

omit [LinearOrder K] [Fintype κ] [Nonempty κ] in
theorem gap_inhabited {j : κ} (inhabited : (members a j).Nonempty) (p : E) :
    gap Q (means K x a) p j = (Q (mean K (members a j) x - p) : WithTop K) := by
  rw [gap, means, if_pos inhabited, Option.elim_some]

/-- A point goes only to a cluster that has points. -/
theorem regroup_inhabited (i : ι) : (members a (regroup Q x a i)).Nonempty := by
  by_contra absent
  have least : gap Q (means K x a) (x i) (regroup Q x a i) ≤ gap Q (means K x a) (x i) (a i) :=
    firstLeast_le _ _
  have lost : gap Q (means K x a) (x i) (regroup Q x a i) = ⊤ := by
    rw [gap, means, if_neg absent, Option.elim_none]
  rw [lost, gap_inhabited Q x a (members_nonempty a i)] at least
  exact WithTop.coe_ne_top (top_le_iff.mp least)

theorem regroup_le (i : ι) {j : κ} (inhabited : (members a j).Nonempty) :
    Q (mean K (members a (regroup Q x a i)) x - x i) ≤ Q (mean K (members a j) x - x i) := by
  have least : gap Q (means K x a) (x i) (regroup Q x a i) ≤ gap Q (means K x a) (x i) j :=
    firstLeast_le _ _
  rw [gap_inhabited Q x a (regroup_inhabited Q x a i), gap_inhabited Q x a inhabited] at least
  exact WithTop.coe_le_coe.mp least

theorem regroup_first (i : ι) {j : κ} (inhabited : (members a j).Nonempty)
    (tie : Q (mean K (members a j) x - x i) = Q (mean K (members a (regroup Q x a i)) x - x i)) :
    regroup Q x a i ≤ j := by
  apply firstLeast_first
  intro l
  rw [gap_inhabited Q x a inhabited, tie, ← gap_inhabited Q x a (regroup_inhabited Q x a i)]
  exact firstLeast_le _ _

/-- A cluster without points stays so. -/
theorem members_of_regroup {j : κ} (inhabited : (members (regroup Q x a) j).Nonempty) :
    (members a j).Nonempty := by
  obtain ⟨i, there⟩ := inhabited
  rw [← mem_members.mp there]
  exact regroup_inhabited Q x a i

theorem moved_eq_empty : moved Q x a = ∅ ↔ regroup Q x a = a := by
  unfold moved
  rw [Finset.filter_eq_empty_iff, funext_iff]
  simp

variable [IsStrictOrderedRing K] {Q} (pos : Q.PosDef)

include pos

omit [Nonempty κ] in
theorem spread_le (c : κ → E) : spread Q x a ≤ cost Q x c a := by
  unfold spread
  rw [cost_eq_deviations, cost_eq_deviations]
  apply Finset.sum_le_sum
  intro j _
  by_cases inhabited : (members a j).Nonempty
  · exact deviation_mean_le pos inhabited x (c j)
  · simp [Finset.not_nonempty_iff_eq_empty.mp inhabited, deviation]

/-- A pass that moves a point lowers the spread, or keeps it and moves points to earlier
    clusters only. -/
theorem descends (moves : regroup Q x a ≠ a) :
    toLex (spread Q x (regroup Q x a), regroup Q x a) < toLex (spread Q x a, a) := by
  have each : ∀ i ∈ Finset.univ, Q (x i - mean K (members a (regroup Q x a i)) x) ≤
      Q (x i - mean K (members a (a i)) x) := by
    intro i _
    rw [QuadraticMap.map_sub Q (x i), QuadraticMap.map_sub Q (x i)]
    exact regroup_le Q x a i (members_nonempty a i)
  have kept : cost Q x (fun j => mean K (members a j) x) (regroup Q x a) ≤ spread Q x a :=
    Finset.sum_le_sum each
  have less := spread_le x (regroup Q x a) pos fun j => mean K (members a j) x
  rw [Prod.Lex.toLex_lt_toLex]
  cases (less.trans kept).lt_or_eq with
  | inl lower => exact Or.inl lower
  | inr same =>
      refine Or.inr ⟨same, lt_of_le_of_ne ?_ moves⟩
      have equal := (Finset.sum_eq_sum_iff_of_le each).mp (le_antisymm kept (same.ge.trans less))
      intro i
      apply regroup_first Q x a i (members_nonempty a i)
      have tie := equal i (Finset.mem_univ i)
      rw [QuadraticMap.map_sub Q (x i), QuadraticMap.map_sub Q (x i)] at tie
      exact tie.symm

end Pass

/-! ## A run -/

section Run

variable (Q : QuadraticForm K E) (x : ι → E) (a : ι → κ)

/-- The assignment after `n` passes. -/
def groups (n : Nat) : ι → κ := (regroup Q x)^[n] a

theorem groups_succ (n : Nat) : groups Q x a (n + 1) = regroup Q x (groups Q x a n) :=
  Function.iterate_succ_apply' _ _ _

/-- Pass `n` is the first that moves at most `most` points. -/
def SettlesAt (most n : Nat) : Prop :=
  (moved Q x (groups Q x a n)).card ≤ most ∧ ∀ m < n, most < (moved Q x (groups Q x a m)).card

theorem members_groups {m n : Nat} (le : m ≤ n) {j : κ}
    (inhabited : (members (groups Q x a n) j).Nonempty) :
    (members (groups Q x a m) j).Nonempty := by
  induction n, le using Nat.le_induction with
  | base => exact inhabited
  | succ n _ ih =>
      rw [groups_succ] at inhabited
      exact ih (members_of_regroup Q x _ inhabited)

/-- A pass that moves nothing is the last that changes anything. -/
theorem groups_settled {m n : Nat} (le : m ≤ n)
    (settled : moved Q x (groups Q x a m) = ∅) : groups Q x a n = groups Q x a m := by
  induction n, le using Nat.le_induction with
  | base => rfl
  | succ n _ ih =>
      rw [groups_succ, ih]
      exact (moved_eq_empty Q x _).mp settled

variable [IsStrictOrderedRing K] {Q}

/-- No assignment comes back, so that the passes settle before each one has been met. -/
theorem exists_settlesAt (pos : Q.PosDef) (most : Nat) :
    ∃ n < Fintype.card κ ^ Fintype.card ι, SettlesAt Q x a most n := by
  classical
  have stop : ∃ n < Fintype.card κ ^ Fintype.card ι, (moved Q x (groups Q x a n)).card ≤ most := by
    by_contra never
    push Not at never
    have moves : ∀ n < Fintype.card κ ^ Fintype.card ι,
        regroup Q x (groups Q x a n) ≠ groups Q x a n := by
      intro n lt settled
      have more := never n lt
      rw [(moved_eq_empty Q x _).mpr settled, Finset.card_empty] at more
      exact absurd more (Nat.not_lt_zero _)
    have falls : ∀ m n, m < n → n ≤ Fintype.card κ ^ Fintype.card ι →
        toLex (spread Q x (groups Q x a n), groups Q x a n) <
          toLex (spread Q x (groups Q x a m), groups Q x a m) := by
      intro m n lt
      induction n, lt using Nat.le_induction with
      | base =>
          intro within
          rw [groups_succ]
          exact descends x _ pos (moves m within)
      | succ n _ ih =>
          intro within
          rw [groups_succ]
          exact (descends x _ pos (moves n within)).trans (ih (Nat.le_of_succ_le within))
    have apart : Function.Injective fun m : Fin (Fintype.card κ ^ Fintype.card ι + 1) =>
        groups Q x a m := by
      intro m n same
      rcases lt_trichotomy m.val n.val with before | equal | after
      · have less := falls m n before (Nat.lt_succ_iff.mp n.isLt)
        simp only at same
        rw [same] at less
        exact absurd less (lt_irrefl _)
      · exact Fin.ext equal
      · have less := falls n m after (Nat.lt_succ_iff.mp m.isLt)
        simp only at same
        rw [same] at less
        exact absurd less (lt_irrefl _)
    have many := Fintype.card_le_of_injective _ apart
    rw [Fintype.card_fin, Fintype.card_fun] at many
    exact absurd many (Nat.not_succ_le_self _)
  obtain ⟨low, few⟩ := Nat.find_spec stop
  refine ⟨Nat.find stop, low, few, ?_⟩
  intro m lt
  by_contra enough
  exact Nat.find_min stop lt ⟨lt.trans low, not_lt.mp enough⟩

end Run

/-! ## Where no center is lost -/

section Agree

variable (Q : QuadraticForm K E) (x : ι → E) (empty : E → E)

/-- If all clusters have points, the pass is the one that keeps the centers. -/
theorem regroup_eq_assign {a : ι → κ} (inhabited : ∀ j, (members a j).Nonempty) (c : κ → E) :
    regroup Q x a = assign Q x (recenter K x empty a c) := by
  funext i
  have kept : means K x a = fun j => some (recenter K x empty a c j) := by
    funext j
    rw [means, recenter, if_pos (inhabited j), if_pos (inhabited j)]
  rw [regroup, kept]
  exact firstLeast_gap Q _ (x i)

theorem groups_eq_indexes (c : κ → E) {n : Nat}
    (inhabited : ∀ m < n, ∀ j, (members (indexes Q x empty c m) j).Nonempty) :
    groups Q x (indexes Q x empty c 0) n = indexes Q x empty c n := by
  induction n with
  | zero => rfl
  | succ n ih =>
      have before := ih fun m lt => inhabited m (Nat.lt_succ_of_lt lt)
      rw [groups_succ, before, regroup_eq_assign Q x empty (inhabited n (Nat.lt_succ_self n))
        (centers Q x empty c n), ← centers_succ]
      rfl

variable [IsStrictOrderedRing K] {Q} in
/-- If no cluster is ever empty until the loop that keeps the centers stops, the passes settle
    on its clusters and centers. -/
theorem settled_eq_stopped (pos : Q.PosDef) {c : κ → E} {m n : Nat} (stops : StopsAt Q x id c m)
    (inhabited : ∀ l < m + 1, ∀ j, (members (indexes Q x id c l) j).Nonempty)
    (settles : SettlesAt Q x (assign Q x c) 0 n) :
    groups Q x (assign Q x c) (n + 1) = indexes Q x id c m ∧
      means K x (groups Q x (assign Q x c) n) = fun j => some (centers Q x id c (m + 1) j) := by
  have same : ∀ l ≤ m + 1, groups Q x (assign Q x c) l = indexes Q x id c l := fun l le =>
    groups_eq_indexes Q x id c fun i lt => inhabited i (Nat.lt_of_lt_of_le lt le)
  have stable := keep_stable x c pos stops.1
  have unmoved : moved Q x (groups Q x (assign Q x c) m) = ∅ := by
    rw [moved_eq_empty, ← groups_succ, same (m + 1) le_rfl, same m (Nat.le_succ m), indexes, stable,
      ← indexes]
  have none_moved : moved Q x (groups Q x (assign Q x c) n) = ∅ :=
    Finset.card_eq_zero.mp (Nat.le_zero.mp settles.1)
  have le : n ≤ m := by
    by_contra later
    have more := settles.2 m (not_le.mp later)
    rw [unmoved, Finset.card_empty] at more
    exact absurd more (Nat.not_lt_zero _)
  have last : groups Q x (assign Q x c) n = indexes Q x id c m := by
    rw [← same m (Nat.le_succ m), groups_settled Q x _ le none_moved]
  constructor
  · rw [groups_settled Q x _ (Nat.le_succ n) none_moved, last]
  · funext j
    rw [last, means, if_pos (inhabited m m.lt_succ_self j), centers_succ, recenter,
      if_pos (inhabited m m.lt_succ_self j)]

end Agree

end Lloyd
