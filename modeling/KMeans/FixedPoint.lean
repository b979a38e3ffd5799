import KMeans.Convergence

/-! # The results of the Lloyd loops as fixed points

The loops stop on two equal costs. The equality case of the descent then says that
no nonempty cluster moved its center. In the multithreaded loop the other clusters
keep theirs as well, so nothing changes any more. The single-threaded loop gives an
empty cluster the zero vector as its center, and that center competes in the next
pass; its result is a fixed point when no point is drawn to it by a tie, and need
not be one otherwise.
-/

namespace KMeans

open Loops Arrays Lloyd

variable {N : Nat}

/-- Mean of a list of points. -/
def meanOf (points : List (CPoint N)) : CPoint N := points.sum / (points.length : ℚ)

/-- The points that `indexes` puts into cluster `cl`, in input order. -/
def assignedTo (vpnts : List (CPoint N)) (indexes : List Nat) (cl : Nat) : List (CPoint N) :=
  ((vpnts.zip indexes).filter fun e => e.2 = cl).map Prod.fst

section Groups

variable {n k : Nat} (x : Fin n → CPoint N) (a : Fin n → Fin k) (j : Fin k)

theorem groupOf_eq_nil : groupOf x a j = [] ↔ ¬ (members a j).Nonempty := by
  simp [groupOf, members, Finset.filter_nonempty_iff, List.filter_eq_nil_iff]

theorem mem_groupOf {p : CPoint N} : p ∈ groupOf x a j ↔ ∃ i, a i = j ∧ x i = p := by
  simp [groupOf]

theorem meanOf_groupOf : meanOf (groupOf x a j) = LeastSquares.mean ℚ (members a j) x := by
  have distinct : ((List.finRange n).filter fun i => a i = j).Nodup :=
    (List.nodup_finRange n).filter _
  have same : ((List.finRange n).filter fun i => a i = j).toFinset = members a j := by
    ext i
    simp
  rw [meanOf, groupOf, CPoint.div_eq_smul, List.length_map, LeastSquares.mean, ← same,
    List.sum_toFinset x distinct, List.toFinset_card_of_nodup distinct]

theorem zip_listing (rest : List Nat) :
    (List.ofFn x).zip (listing a rest) = (List.finRange n).map fun i => (x i, (a i).val) := by
  apply List.ext_getElem
  · simp [listing]
  · intro i inside _
    have point : i < n := by simp [listing] at inside; omega
    simp [listing, List.getElem_append_left, point]

theorem assignedTo_listing (rest : List Nat) :
    assignedTo (List.ofFn x) (listing a rest) j = groupOf x a j := by
  rw [assignedTo, zip_listing, List.filter_map, List.map_map, groupOf]
  simp [Function.comp_def, Fin.ext_iff]

theorem exists_of_assignedTo_ne_nil {rest : List Nat} {cl : Nat}
    (inhabited : assignedTo (List.ofFn x) (listing a rest) cl ≠ []) : ∃ j : Fin k, j.val = cl := by
  obtain ⟨p, member⟩ := List.exists_mem_of_ne_nil _ inhabited
  simp only [assignedTo, zip_listing, List.mem_map, List.mem_filter, decide_eq_true_eq] at member
  obtain ⟨_, ⟨⟨i, -, rfl⟩, same⟩, -⟩ := member
  exact ⟨a i, same⟩

end Groups

/-- When the multithreaded loop returns, every index is that of the nearest of the
    returned centers, the center of every nonempty cluster is the mean of its points,
    and one more iteration would change neither. -/
theorem multiThread.kmeans_fixed_point (m_vpnts cent : List (CPoint N)) (old : List Nat)
    (some_center : cent ≠ []) (fuel : Nat) (s : multiThread.LoopState N)
    (returned : multiThread.kmeansLoop (multiThread.inOrder m_vpnts) fuel m_vpnts cent old = some s) :
    (∀ (i : Nat) pnt, m_vpnts[i]? = some pnt → ∃ ind dist2, s.m_indexes[i]? = some ind ∧
      multiThread.findNearest pnt s.m_centers = some (ind, dist2)) ∧
    (∀ cl, assignedTo m_vpnts s.m_indexes cl ≠ [] →
      s.m_centers[cl]? = some (meanOf (assignedTo m_vpnts s.m_indexes cl))) ∧
    ∃ s', multiThread.iteration (multiThread.inOrder m_vpnts) m_vpnts s = some s' ∧
      s'.m_indexes = s.m_indexes ∧ s'.m_centers = s.m_centers := by
  obtain ⟨n, x, rfl⟩ := exists_ofFn m_vpnts
  obtain ⟨k, _, c, rfl⟩ := exists_ofFn_neZero some_center
  have sequential := multiThread.sequential_inOrder x k
  obtain ⟨m, -, ⟨stop, -⟩, rfl⟩ :=
    (multiThread.kmeansLoop_eq_some x c old sequential fuel s).mp returned
  have settled := keep_stable x c CPoint.normSq_posDef stop
  have again : indexes CPoint.normSq x id c (m + 1) = indexes CPoint.normSq x id c m := by
    rw [indexes, indexes, settled]
  refine ⟨?_, ?_, _, multiThread.iteration_eq x c old sequential (m + 1), ?_, ?_⟩
  · intro i pnt read
    obtain ⟨ind, dist2, found, stored⟩ := findNearest_listing x
      (centers CPoint.normSq x id c (m + 1)) (old.drop n) read
    refine ⟨ind, dist2, ?_, found⟩
    rw [multiThread.trace, storedIndexes, ← again]
    exact stored
  · intro cl inhabited
    obtain ⟨j, rfl⟩ := exists_of_assignedTo_ne_nil x _ inhabited
    have shown := assignedTo_listing x (indexes CPoint.normSq x id c m) j (old.drop n)
    simp only [multiThread.trace, storedIndexes, shown] at inhabited ⊢
    have some_point := not_not.mp (mt (groupOf_eq_nil x _ j).mpr inhabited)
    rw [read_ofFn, meanOf_groupOf, centers_succ, recenter, if_pos some_point]
  · simp [multiThread.trace, storedIndexes, again]
  · simp [multiThread.trace, centers_settled _ x id c settled]

theorem multiThread.kmeans_fixed_point_on_two_points : ∃ s : multiThread.LoopState 1,
    multiThread.kmeansLoop (multiThread.inOrder [⟨![0]⟩, ⟨![2]⟩]) 3 [⟨![0]⟩, ⟨![2]⟩] [⟨![0]⟩] [] =
      some s ∧
    (∀ cl, assignedTo [⟨![0]⟩, ⟨![2]⟩] s.m_indexes cl ≠ [] →
      s.m_centers[cl]? = some (meanOf (assignedTo [⟨![0]⟩, ⟨![2]⟩] s.m_indexes cl))) ∧
    ∃ s', multiThread.iteration (multiThread.inOrder [⟨![0]⟩, ⟨![2]⟩]) [⟨![0]⟩, ⟨![2]⟩] s = some s' ∧
      s'.m_indexes = s.m_indexes ∧ s'.m_centers = s.m_centers := by
  have returned : (multiThread.kmeansLoop (multiThread.inOrder [⟨![0]⟩, ⟨![2]⟩]) 3
      [⟨![0]⟩, (⟨![2]⟩ : CPoint 1)] [⟨![0]⟩] []).isSome := by decide +kernel
  obtain ⟨s, run⟩ := Option.isSome_iff_exists.mp returned
  exact ⟨s, run, (multiThread.kmeans_fixed_point _ _ _ (by simp) 3 s run).2⟩

/-! ## The single-threaded result -/

/-- Every point is in the group of a returned center that no other returned center is
    nearer than, and the center of every nonempty group is the mean of the group. -/
structure Stable (vpnts : List (CPoint N)) (result : List (CPoint N × List (CPoint N))) : Prop where
  grouped : ∀ pnt ∈ vpnts, ∃ e ∈ result, pnt ∈ e.2
  nearest : ∀ e ∈ result, ∀ pnt ∈ e.2, ∀ e' ∈ result,
    (e.1 - pnt) * (e.1 - pnt) ≤ ((e'.1 - pnt) * (e'.1 - pnt) : ℚ)
  mean : ∀ e ∈ result, e.2 ≠ [] → e.1 = meanOf e.2

namespace singleThread

/-- Some point has `centers[cl]` as its nearest center. -/
def Drawn (vpnts centers : List (CPoint N)) (cl : Nat) : Prop :=
  ∃ pnt ∈ vpnts, ∃ dist2, findNearest pnt centers = some (cl, dist2)

instance (vpnts centers : List (CPoint N)) (cl : Nat) : Decidable (Drawn vpnts centers cl) :=
  decidable_of_iff (∃ pnt ∈ vpnts, (findNearest pnt centers).map Prod.fst = some cl)
    (by simp [Drawn])

/-- No point is as near to the zero vector as to its nearest center while an earlier
    cluster has no points. Such a cluster is about to get the zero vector as its center,
    and would win the tie for the point in the next pass. -/
def ZeroDrawsNone (vpnts centers : List (CPoint N)) : Prop :=
  ∀ pnt ∈ vpnts, ∀ cl dist2, findNearest pnt centers = some (cl, dist2) → pnt * pnt = dist2 →
    ∀ e < cl, Drawn vpnts centers e

instance (vpnts centers : List (CPoint N)) : Decidable (ZeroDrawsNone vpnts centers) :=
  decidable_of_iff (∀ pnt ∈ vpnts, ∀ near ∈ findNearest pnt centers, pnt * pnt = near.2 →
    ∀ e < near.1, Drawn vpnts centers e) (by simp [ZeroDrawsNone])

/-- `ZeroDrawsNone` holds before the last iteration but one, if there is one. -/
def LastButOneDrawsNone (vpnts cent : List (CPoint N)) : Prop :=
  ∀ s s' s'', Tested looping (iteration vpnts) (start cent []) s → looping s = true →
    iteration vpnts s = some s' → looping s' = true →
    iteration vpnts s' = some s'' → looping s'' = false → ZeroDrawsNone vpnts s.centOld

section Trace

variable {n k : Nat} [NeZero k] (x : Fin n → CPoint N) (c : Fin k → CPoint N)

theorem looping_trace {m : Nat} (before : ∀ l < m, value CPoint.normSq x emptied c l ≠
    previous CPoint.normSq x emptied c l) (l : Nat) (le : l ≤ m) :
    looping (trace x c [] l) = true := by
  cases l with
  | zero => exact looping_trace_zero x c []
  | succ l =>
      rw [← Bool.not_eq_false, looping_trace_succ]
      exact before l le

theorem drawn_ofFn (j : Fin k) : Drawn (List.ofFn x) (List.ofFn c) j ↔
    (members (assign CPoint.normSq x c) j).Nonempty := by
  constructor
  · rintro ⟨pnt, member, dist2, found⟩
    obtain ⟨i, rfl⟩ := (List.mem_ofFn' x pnt).mp member
    rw [singleThread.findNearest, findNearest_ofFn, Option.some.injEq, Prod.mk.injEq] at found
    exact ⟨i, mem_members.mpr (Fin.ext found.1)⟩
  · rintro ⟨i, member⟩
    have found := findNearest_ofFn c (x i)
    have own : Lloyd.nearest CPoint.normSq c (x i) = j :=
      mem_members (a := assign CPoint.normSq x c) |>.mp member
    rw [own] at found
    exact ⟨x i, (List.mem_ofFn' x _).mpr ⟨i, rfl⟩, _, found⟩

/-- A pass that repeats the cost repeats the assignment, unless a point ties between its
    center and the zero vector that an earlier cluster has just been given. -/
theorem indexes_succ_eq {m : Nat} (same : value CPoint.normSq x emptied c (m + 1) =
      value CPoint.normSq x emptied c m)
    (none : ZeroDrawsNone (List.ofFn x) (List.ofFn (centers CPoint.normSq x emptied c m))) :
    indexes CPoint.normSq x emptied c (m + 1) = indexes CPoint.normSq x emptied c m := by
  funext i
  have kept : ∀ j, (members (indexes CPoint.normSq x emptied c m) j).Nonempty →
      centers CPoint.normSq x emptied c (m + 1) j = centers CPoint.normSq x emptied c m j :=
    fun j => centers_succ_eq_of_value_eq x emptied c CPoint.normSq_posDef same
  have old := kept _ (members_nonempty (indexes CPoint.normSq x emptied c m) i)
  have least := nearest_ties_of_value_eq x emptied c CPoint.normSq_posDef same i
  refine nearest_eq CPoint.normSq least fun l earlier => ?_
  by_cases inhabited : (members (indexes CPoint.normSq x emptied c m) l).Nonempty
  · rw [old, kept l inhabited]
    exact nearest_lt CPoint.normSq earlier
  · refine lt_of_le_of_ne (least l) fun tie => inhabited ?_
    have zero : centers CPoint.normSq x emptied c (m + 1) l = 0 := by
      rw [centers_succ, recenter, if_neg inhabited, emptied]
    rw [old, zero, zero_sub, QuadraticMap.map_neg, CPoint.normSq_apply] at tie
    exact (drawn_ofFn x _ l).mp (none (x i) ((List.mem_ofFn' x _).mpr ⟨i, rfl⟩) _ _
      (findNearest_ofFn _ _) tie.symm l earlier)

theorem centers_succ_eq_of_indexes_eq {m : Nat} (same : indexes CPoint.normSq x emptied c (m + 1) =
    indexes CPoint.normSq x emptied c m) :
    centers CPoint.normSq x emptied c (m + 1 + 1) = centers CPoint.normSq x emptied c (m + 1) := by
  rw [centers_succ, centers_succ, same]
  funext j
  simp only [recenter, emptied]

theorem last_assignment_nearest {m : Nat} (stop : StopsAt CPoint.normSq x emptied c m)
    (none : ∀ l, l + 1 = m →
      ZeroDrawsNone (List.ofFn x) (List.ofFn (centers CPoint.normSq x emptied c l)))
    (i : Fin n) (j : Fin k) :
    CPoint.normSq (centers CPoint.normSq x emptied c (m + 1)
      (indexes CPoint.normSq x emptied c m i) - x i) ≤
      CPoint.normSq (centers CPoint.normSq x emptied c (m + 1) j - x i) := by
  cases m with
  | zero =>
      -- A cost of zero: every point sits at its center, which did not move.
      have zero : cost CPoint.normSq x c (indexes CPoint.normSq x emptied c 0) = 0 := stop.1
      have at_center := (Finset.sum_eq_zero_iff_of_nonneg
        fun i _ => CPoint.normSq_posDef.nonneg _).mp zero i (Finset.mem_univ i)
      rw [centers_succ_eq_of_value_zero x emptied c CPoint.normSq_posDef stop.1
        (members_nonempty _ i), QuadraticMap.map_sub]
      exact at_center.le.trans (CPoint.normSq_posDef.nonneg _)
  | succ m =>
      have same := indexes_succ_eq x c stop.1 (none m rfl)
      rw [centers_succ_eq_of_indexes_eq x c same]
      exact nearest_le CPoint.normSq _ (x i) j

end Trace

/-- What `Run` returns is a fixed point if no tie with the zero vector decides the last
    iteration. -/
theorem Run_stable (RAND_MAX : Nat) (rand : Nat → Nat) (m_vpnts : List (CPoint N))
    (some_point : m_vpnts ≠ []) (m_k : Nat) (some_cluster : 1 ≤ m_k)
    (none : ∀ cent, kmeansPP RAND_MAX rand m_vpnts m_k [] = some cent →
      LastButOneDrawsNone m_vpnts cent)
    (fuel : Nat) (r : List (CPoint N × List (CPoint N)))
    (returned : Run fuel RAND_MAX rand m_vpnts m_k = some r) : Stable m_vpnts r := by
  obtain ⟨n, _, x, c, rfl, seeds⟩ := kmeansPP_seeds RAND_MAX rand some_point some_cluster
  obtain ⟨m, -, stop, rfl⟩ := (Run_eq_some seeds fuel r).mp returned
  have undrawn : ∀ l, l + 1 = m →
      ZeroDrawsNone (List.ofFn x) (List.ofFn (centers CPoint.normSq x emptied c l)) := by
    rintro l rfl
    have tested : Tested looping (iteration (List.ofFn x)) (trace x c [] 0) (trace x c [] l) :=
      (tested_iff (iteration_eq x c [])).mpr ⟨l, rfl, fun i lt =>
        looping_trace x c stop.2 i (by omega)⟩
    rw [← start_eq] at tested
    exact none _ seeds _ _ _ tested (looping_trace x c stop.2 l (by omega))
      (iteration_eq x c [] l) (looping_trace x c stop.2 (l + 1) le_rfl) (iteration_eq x c [] (l + 1))
      ((looping_trace_succ x c [] (l + 1)).mpr stop.1)
  refine ⟨fun pnt member => ?_, ?_, ?_⟩
  · obtain ⟨i, rfl⟩ := (List.mem_ofFn' x pnt).mp member
    exact ⟨_, (List.mem_ofFn' _ _).mpr ⟨indexes CPoint.normSq x emptied c m i, rfl⟩,
      (mem_groupOf x _ _).mpr ⟨i, rfl, rfl⟩⟩
  · intro e inside pnt member e' inside'
    obtain ⟨j, rfl⟩ := (List.mem_ofFn' _ _).mp inside
    obtain ⟨j', rfl⟩ := (List.mem_ofFn' _ _).mp inside'
    obtain ⟨i, rfl, rfl⟩ := (mem_groupOf x _ _).mp member
    exact last_assignment_nearest x c stop undrawn i j'
  · intro e inside inhabited
    obtain ⟨j, rfl⟩ := (List.mem_ofFn' _ _).mp inside
    have some_member := not_not.mp (mt (groupOf_eq_nil x _ j).mpr inhabited)
    simp only [meanOf_groupOf, centers_succ, recenter, if_pos some_member]

/-- The seeds are 0 and 12. In each of the three iterations both clusters have two points. -/
theorem Run_stable_on_four_points : Stable [⟨![0]⟩, ⟨![2]⟩, ⟨![10]⟩, (⟨![12]⟩ : CPoint 1)]
    [(⟨![1]⟩, [⟨![0]⟩, ⟨![2]⟩]), (⟨![11]⟩, [⟨![10]⟩, ⟨![12]⟩])] := by
  refine Run_stable 32767 (fun n => if n = 0 then 0 else 32766) _ (by simp) 2 (by decide)
    (fun cent seeds => ?_) 3 _ (by decide +kernel)
  have drawn : kmeansPP 32767 (fun n => if n = 0 then 0 else 32766)
      [⟨![0]⟩, ⟨![2]⟩, ⟨![10]⟩, (⟨![12]⟩ : CPoint 1)] 2 [] = some [⟨![0]⟩, ⟨![12]⟩] := by
    decide +kernel
  obtain rfl : [⟨![0]⟩, ⟨![12]⟩] = cent := Option.some.inj (drawn.symm.trans seeds)
  intro s _ _ tested _ _ _ _ _
  refine tested.of_everyTest (P := fun s => ZeroDrawsNone _ s.centOld) 3 ?_
  decide +kernel

/-- The seeds are 100, 100 and 20. The second cluster is empty and gets the zero vector,
    which draws the point 10 from the center 20 by a tie. The cost is 542 twice, and the
    point 11 is left with the center 70 / 3 although 10 is now one as well. -/
theorem Run_not_stable : ¬ ∀ (N RAND_MAX : Nat) (rand : Nat → Nat) (m_vpnts : List (CPoint N))
    (m_k fuel : Nat) (r : List (CPoint N × List (CPoint N))), m_vpnts ≠ [] →
    m_vpnts.length < 2 ^ 32 → 1 ≤ m_k → (∀ n, rand n ≤ RAND_MAX) →
    Run fuel RAND_MAX rand m_vpnts m_k = some r → Stable m_vpnts r := by
  intro claim
  have stable := claim 1 2147483647 (fun n => if n = 2 then 429496729 else 0)
    [⟨![100]⟩, ⟨![10]⟩, ⟨![11]⟩, ⟨![20]⟩, ⟨![39]⟩] 3 5
    [(⟨![100]⟩, [⟨![100]⟩]), (⟨![10]⟩, [⟨![10]⟩]), (⟨![70 / 3]⟩, [⟨![11]⟩, ⟨![20]⟩, ⟨![39]⟩])]
    (by simp) (by simp) (by simp) (fun n => by split <;> omega) (by decide +kernel)
  have nearer := stable.nearest (⟨![70 / 3]⟩, [⟨![11]⟩, ⟨![20]⟩, ⟨![39]⟩]) (by simp) ⟨![11]⟩ (by simp)
    (⟨![10]⟩, [⟨![10]⟩]) (by simp)
  revert nearer
  decide +kernel

end singleThread

end KMeans
