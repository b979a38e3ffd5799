import KMeans.Scaling

/-! # Independence of the origin

A shift of the points and of the initial centers shifts every mean, and the center that an
empty cluster keeps was shifted before. The accumulators start from zero vectors in both
runs: the shift comes into a sum once for each point of the cluster, and the division by
their number leaves it once.
-/

namespace KMeans

open Loops Arrays Lloyd

variable {N : Nat}

/-- Every point shifted by `t`. -/
def shiftPoints (t : CPoint N) (vpnts : List (CPoint N)) : List (CPoint N) :=
  vpnts.map fun p => p + t

namespace multiThread

/-- What the loop over the shifted points leaves behind: the centers shifted, and everything
    else as it is. -/
def LoopState.shift (t : CPoint N) (s : LoopState N) : LoopState N :=
  { s with m_centers := shiftPoints t s.m_centers }

section Shifted

variable (t : CPoint N)

theorem shiftPoints_ofFn {n : Nat} (x : Fin n → CPoint N) : shiftPoints t (List.ofFn x) =
    List.ofFn ((Symmetry.shifting CPoint.normSq t).map ∘ x) := List.map_ofFn

variable {n k : Nat} [NeZero k] (x : Fin n → CPoint N) (c : Fin k → CPoint N) (unused : List Nat)

theorem id_shift (e : CPoint N) : id ((Symmetry.shifting CPoint.normSq t).map e) =
    (Symmetry.shifting CPoint.normSq t).map (id e) := rfl

theorem previous_shift (m : Nat) :
    previous CPoint.normSq ((Symmetry.shifting CPoint.normSq t).map ∘ x) id
      ((Symmetry.shifting CPoint.normSq t).map ∘ c) m = previous CPoint.normSq x id c m := by
  have carried := previous_carried (Symmetry.shifting CPoint.normSq t) (Equiv.refl (Fin n)) x c
    (id_shift t) m
  rw [Equiv.coe_refl, Function.comp_id] at carried
  exact carried.trans (one_mul _)

theorem olderCost_shift (m : Nat) :
    olderCost ((Symmetry.shifting CPoint.normSq t).map ∘ x) id
      ((Symmetry.shifting CPoint.normSq t).map ∘ c) m = olderCost x id c m := by
  cases m with
  | zero => rfl
  | succ m => exact previous_shift t x c m

theorem trace_shift (m : Nat) : trace ((Symmetry.shifting CPoint.normSq t).map ∘ x)
      ((Symmetry.shifting CPoint.normSq t).map ∘ c) unused m = (trace x c unused m).shift t := by
  have carried := centers_listed (Symmetry.shifting CPoint.normSq t) x c (id_shift t) m
  have stored := storedIndexes_carried (Symmetry.shifting CPoint.normSq t) x c unused (id_shift t) m
  simp only [trace, LoopState.shift, carried, stored, previous_shift, olderCost_shift]
  rfl

end Shifted

/-- On the points and centers shifted by `t` the loop goes through the same costs and indexes,
    ends after the same number of iterations and leaves the centers shifted by `t`; and it
    ends. -/
theorem kmeans_shift (vpnts : List (CPoint N)) {cent : List (CPoint N)} (some_center : cent ≠ [])
    (m_indexes : List Nat) (t : CPoint N) :
    (∀ j, ∃ s, turns (iteration (inOrder vpnts) vpnts) j (start cent m_indexes) = some s ∧
      turns (iteration (inOrder (shiftPoints t vpnts)) (shiftPoints t vpnts)) j
        (start (shiftPoints t cent) m_indexes) = some (s.shift t)) ∧
    (∀ fuel, kmeansLoop (inOrder (shiftPoints t vpnts)) fuel (shiftPoints t vpnts)
        (shiftPoints t cent) m_indexes =
      (kmeansLoop (inOrder vpnts) fuel vpnts cent m_indexes).map (.shift t)) ∧
    ∃ s bound, ∀ fuel ≥ bound,
      kmeansLoop (inOrder vpnts) fuel vpnts cent m_indexes = some s := by
  refine ⟨?_, ?_, kmeansLoop_returns vpnts some_center m_indexes⟩
  all_goals
    obtain ⟨n, x, rfl⟩ := exists_ofFn vpnts
    obtain ⟨k, _, c, rfl⟩ := exists_ofFn_neZero some_center
    simp only [shiftPoints_ofFn]
  · intro j
    refine ⟨trace x c m_indexes j, ?_, ?_⟩
    · rw [start_eq]
      exact turns_eq (iteration_eq x c m_indexes (sequential_inOrder x k)) j
    · rw [start_eq, ← trace_shift]
      exact turns_eq (iteration_eq _ _ m_indexes (sequential_inOrder _ k)) j
  · intro fuel
    apply returns_map (kmeansLoop_eq_some x c m_indexes (sequential_inOrder x k) fuel)
      (kmeansLoop_eq_some _ _ m_indexes (sequential_inOrder _ k) fuel)
    · intro m
      have together := stopsAt_carried (Symmetry.shifting CPoint.normSq t) (Equiv.refl (Fin n)) x c
        (id_shift t) m
      rwa [Equiv.coe_refl, Function.comp_id] at together
    · intro m
      exact trace_shift t x c m_indexes (m + 1)

theorem kmeans_shift_on_two_points : ∃ (fuel : Nat) (s : LoopState 1),
    kmeansLoop (inOrder [⟨![0]⟩, ⟨![2]⟩]) fuel [⟨![0]⟩, ⟨![2]⟩] [⟨![0]⟩] [] = some s ∧
    kmeansLoop (inOrder (shiftPoints ⟨![5]⟩ [⟨![0]⟩, ⟨![2]⟩])) fuel
      (shiftPoints ⟨![5]⟩ [⟨![0]⟩, ⟨![2]⟩]) (shiftPoints ⟨![5]⟩ [⟨![0]⟩]) [] =
      some (s.shift ⟨![5]⟩) := by
  obtain ⟨_, shifted, s, bound, returns⟩ := kmeans_shift [⟨![0]⟩, (⟨![2]⟩ : CPoint 1)]
    (by simp : [(⟨![0]⟩ : CPoint 1)] ≠ []) [] ⟨![5]⟩
  have run := shifted bound
  rw [returns bound le_rfl] at run
  exact ⟨bound, s, returns bound le_rfl, run⟩

end multiThread

end KMeans
