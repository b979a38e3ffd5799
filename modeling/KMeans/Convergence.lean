import KMeans.MultiThread.KmeansMultiThread
import KMeans.SingleThread.KmeansSingleThread

/-! # Descent and termination of the Lloyd loops

Both loops refine the abstract algorithm and differ only in what they do with the
center of an empty cluster, which neither the descent of the cost nor the
finiteness of its values depends on.
-/

namespace KMeans

open Loops Arrays Lloyd

variable {N : Nat}

/-- Cluster `cl` holds one of the first `size` points. -/
def HasPoint (size : Nat) (indexes : List Nat) (cl : Nat) : Prop :=
  ∃ i < size, indexes[i]? = some cl

theorem hasPoint_listing {n k : Nat} (a : Fin n → Fin k) (rest : List Nat) (cl : Nat) :
    HasPoint n (listing a rest) cl ↔ ∃ j : Fin k, j.val = cl ∧ (members a j).Nonempty := by
  constructor
  · rintro ⟨i, inside, read⟩
    have same := read_listing a rest ⟨i, inside⟩
    rw [show (listing a rest)[i]? = some cl from read, Option.some.injEq] at same
    exact ⟨a ⟨i, inside⟩, same.symm, members_nonempty a ⟨i, inside⟩⟩
  · rintro ⟨j, rfl, i, member⟩
    refine ⟨i, i.isLt, ?_⟩
    rw [read_listing, mem_members.mp member]

section Abstract

variable {n k : Nat} [NeZero k] (x : Fin n → CPoint N) (empty : CPoint N → CPoint N)
  (c : Fin k → CPoint N)

/-- Both ways to treat an empty cluster stay within finitely many centers. -/
theorem bounded_emptied (F : Set (CPoint N)) (finite : F.Finite) :
    ∃ G, F ⊆ G ∧ G.Finite ∧ Set.MapsTo singleThread.emptied G G :=
  ⟨insert 0 F, Set.subset_insert 0 F, finite.insert 0, fun _ _ => Set.mem_insert 0 F⟩

theorem bounded_id (F : Set (CPoint N)) (finite : F.Finite) :
    ∃ G, F ⊆ G ∧ G.Finite ∧ Set.MapsTo (id : CPoint N → CPoint N) G G :=
  ⟨F, le_rfl, finite, fun _ inside => inside⟩

theorem centers_stay {m : Nat} (rest : List Nat)
    (same : value CPoint.normSq x empty c (m + 1) = value CPoint.normSq x empty c m) {cl : Nat}
    (inhabited : HasPoint n (listing (indexes CPoint.normSq x empty c m) rest) cl) :
    (List.ofFn (centers CPoint.normSq x empty c (m + 1)))[cl]? =
      (List.ofFn (centers CPoint.normSq x empty c m))[cl]? := by
  obtain ⟨j, rfl, some_point⟩ := (hasPoint_listing _ rest cl).mp inhabited
  rw [read_ofFn, read_ofFn,
    centers_succ_eq_of_value_eq x empty c CPoint.normSq_posDef same some_point]

end Abstract

theorem singleThread.kmeansLoop_returns (vpnts : List (CPoint N)) {cent : List (CPoint N)}
    (some_center : cent ≠ []) (old : List Nat) :
    ∃ s bound, ∀ fuel ≥ bound, kmeansLoop fuel vpnts cent old = some s := by
  obtain ⟨n, x, rfl⟩ := exists_ofFn vpnts
  obtain ⟨k, _, c, rfl⟩ := exists_ofFn_neZero some_center
  obtain ⟨m, stop⟩ := exists_stopsAt x _ c CPoint.normSq_posDef bounded_emptied
  refine ⟨trace x c old (m + 1), m + 1, fun fuel enough => ?_⟩
  exact (kmeansLoop_eq_some x c old fuel _).mpr ⟨m, enough, stop, rfl⟩

theorem multiThread.kmeansLoop_returns (vpnts : List (CPoint N)) {cent : List (CPoint N)}
    (some_center : cent ≠ []) (old : List Nat) :
    ∃ s bound, ∀ fuel ≥ bound, kmeansLoop (inOrder vpnts) fuel vpnts cent old = some s := by
  obtain ⟨n, x, rfl⟩ := exists_ofFn vpnts
  obtain ⟨k, _, c, rfl⟩ := exists_ofFn_neZero some_center
  obtain ⟨m, stop⟩ := exists_stopsAt x _ c CPoint.normSq_posDef bounded_id
  refine ⟨trace x c old (m + 1), m + 1, fun fuel enough => ?_⟩
  exact (kmeansLoop_eq_some x c old (sequential_inOrder x k) fuel _).mpr ⟨m, enough, stop, rfl⟩

theorem singleThread.Run_returns (RAND_MAX : Nat) (rand : Nat → Nat) {vpnts : List (CPoint N)}
    (some_point : vpnts ≠ []) {k : Nat} (some_cluster : 1 ≤ k) :
    ∃ bound, ∀ fuel ≥ bound, (Run fuel RAND_MAX rand vpnts k).isSome := by
  obtain ⟨n, _, x, c, rfl, seeds⟩ := kmeansPP_seeds RAND_MAX rand some_point some_cluster
  obtain ⟨m, stop⟩ := exists_stopsAt x _ c CPoint.normSq_posDef bounded_emptied
  refine ⟨m + 1, fun fuel enough => ?_⟩
  rw [(Run_eq_some seeds fuel _).mpr ⟨m, enough, stop, rfl⟩]
  rfl

theorem multiThread.Run_returns (RAND_MAX : Nat) (rand : Nat → Nat) {vpnts : List (CPoint N)}
    (some_point : vpnts ≠ []) {k : Nat} (some_cluster : 1 ≤ k) (members : Members N) :
    ∃ bound, ∀ fuel ≥ bound, (Run (inOrder vpnts) fuel RAND_MAX rand vpnts k members).isSome := by
  obtain ⟨n, l, _, x, c, rfl, seeds⟩ := exists_seeds RAND_MAX rand some_point some_cluster members
  obtain ⟨m, stop⟩ := exists_stopsAt x _ c CPoint.normSq_posDef bounded_id
  refine ⟨m + 1, fun fuel enough => ?_⟩
  rw [(Run_eq_some (sequential_inOrder x l) members seeds fuel _ _).mpr ⟨m, enough, stop, rfl, rfl⟩]
  rfl

/-- The cost of an iteration is at most that of the iteration before, and equal only if
    every cluster with points kept its center. Here `s₀`, `s₁`, `s₂` are the states
    after `j`, `j + 1` and `j + 2` iterations; the tasks may run in any order. -/
theorem cost_descends (vpnts cent : List (CPoint N)) (old : List Nat) (some_center : cent ≠ [])
    (small : vpnts.length < 2 ^ 32) (order : Nat → List multiThread.CKMTask)
    (perm : ∀ j, (order j).Perm (multiThread.makeTasks vpnts.length)) (j : Nat) :
    (∃ s₀ s₁ s₂, turns (singleThread.iteration vpnts) j (singleThread.start cent old) = some s₀ ∧
      singleThread.iteration vpnts s₀ = some s₁ ∧ singleThread.iteration vpnts s₁ = some s₂ ∧
      s₂.V ≤ s₁.V ∧ (s₂.V = s₁.V → ∀ cl, HasPoint vpnts.length s₁.indexes cl →
        s₁.centOld[cl]? = s₀.centOld[cl]?)) ∧
    ∃ s₀ s₁ s₂, turns (multiThread.iteration (multiThread.byTasks vpnts order) vpnts) j
        (multiThread.start cent old) = some s₀ ∧
      multiThread.iteration (multiThread.byTasks vpnts order) vpnts s₀ = some s₁ ∧
      multiThread.iteration (multiThread.byTasks vpnts order) vpnts s₁ = some s₂ ∧
      s₂.V ≤ s₁.V ∧ (s₂.V = s₁.V → ∀ cl, HasPoint vpnts.length s₁.m_indexes cl →
        s₁.m_centers[cl]? = s₀.m_centers[cl]?) := by
  obtain ⟨n, x, rfl⟩ := exists_ofFn vpnts
  obtain ⟨k, _, c, rfl⟩ := exists_ofFn_neZero some_center
  rw [List.length_ofFn] at small perm ⊢
  have sequential := multiThread.sequential_byTasks x k small perm
  rw [singleThread.start_eq, multiThread.start_eq]
  constructor
  · refine ⟨_, _, _, turns_eq (singleThread.iteration_eq x c old) j,
      singleThread.iteration_eq x c old j, singleThread.iteration_eq x c old (j + 1), ?_, ?_⟩
    · exact value_succ_le x _ c CPoint.normSq_posDef j
    · exact fun same cl => centers_stay x _ c _ same
  · refine ⟨_, _, _, turns_eq (multiThread.iteration_eq x c old sequential) j,
      multiThread.iteration_eq x c old sequential j,
      multiThread.iteration_eq x c old sequential (j + 1), ?_, ?_⟩
    · exact value_succ_le x _ c CPoint.normSq_posDef j
    · exact fun same cl => centers_stay x _ c _ same

theorem cost_descends_on_two_points : ∃ s₀ s₁ s₂ : multiThread.LoopState 1,
    turns (multiThread.iteration (multiThread.byTasks [⟨![0]⟩, ⟨![2]⟩] fun _ =>
      multiThread.makeTasks 2) [⟨![0]⟩, ⟨![2]⟩]) 0 (multiThread.start [⟨![0]⟩] []) = some s₀ ∧
    multiThread.iteration (multiThread.byTasks [⟨![0]⟩, ⟨![2]⟩] fun _ =>
      multiThread.makeTasks 2) [⟨![0]⟩, ⟨![2]⟩] s₀ = some s₁ ∧
    multiThread.iteration (multiThread.byTasks [⟨![0]⟩, ⟨![2]⟩] fun _ =>
      multiThread.makeTasks 2) [⟨![0]⟩, ⟨![2]⟩] s₁ = some s₂ ∧
    s₂.V ≤ s₁.V ∧ (s₂.V = s₁.V → ∀ cl, HasPoint 2 s₁.m_indexes cl →
      s₁.m_centers[cl]? = s₀.m_centers[cl]?) :=
  (cost_descends [⟨![0]⟩, ⟨![2]⟩] [⟨![0]⟩] [] (by simp) (by simp)
    (fun _ => multiThread.makeTasks 2) (fun _ => List.Perm.refl _) 0).2

/-- Both loops end: with enough fuel they return, and more fuel changes nothing. -/
theorem loops_terminate (vpnts cent : List (CPoint N)) (old : List Nat) (some_center : cent ≠ []) :
    (∃ s bound, ∀ fuel ≥ bound, singleThread.kmeansLoop fuel vpnts cent old = some s) ∧
    ∃ s bound, ∀ fuel ≥ bound,
      multiThread.kmeansLoop (multiThread.inOrder vpnts) fuel vpnts cent old = some s := by
  constructor
  · exact singleThread.kmeansLoop_returns vpnts some_center old
  · exact multiThread.kmeansLoop_returns vpnts some_center old

theorem loops_terminate_on_two_points :
    (∃ (s : singleThread.LoopState 1) (bound : Nat), ∀ fuel ≥ bound,
      singleThread.kmeansLoop fuel [⟨![0]⟩, ⟨![2]⟩] [⟨![0]⟩] [] = some s) ∧
    ∃ (s : multiThread.LoopState 1) (bound : Nat), ∀ fuel ≥ bound, multiThread.kmeansLoop
      (multiThread.inOrder [⟨![0]⟩, ⟨![2]⟩]) fuel [⟨![0]⟩, ⟨![2]⟩] [⟨![0]⟩] [] = some s :=
  loops_terminate [⟨![0]⟩, ⟨![2]⟩] [⟨![0]⟩] [] (by simp)

end KMeans
