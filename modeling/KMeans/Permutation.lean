import KMeans.Convergence
import KMeans.General.LloydSymmetry

/-! # The order of the points

A permutation of the points only reorders the sums that an iteration accumulates for each
cluster, and renumbers the indexes that it computes. So two loops that start from the same
centers go through the same centers, whatever the order of the points.
-/

namespace KMeans

open Loops Arrays Lloyd

variable {N : Nat}

/-- The points in another order: point number `i` was point number `σ i`. -/
def permuted (vpnts : List (CPoint N)) (σ : Equiv.Perm (Fin vpnts.length)) : List (CPoint N) :=
  List.ofFn (vpnts.get ∘ σ)

/-- The states of two loops agree, up to the order of the first `n` indexes. -/
structure singleThread.Agree {n : Nat} (σ : Equiv.Perm (Fin n)) (s t : singleThread.LoopState N) :
    Prop where
  centers : t.centOld = s.centOld
  cost : t.V = s.V
  iterations : t.numIterations = s.numIterations
  indexes : ∀ i : Fin n, t.indexes[i.val]? = s.indexes[(σ i).val]?

structure multiThread.Agree {n : Nat} (σ : Equiv.Perm (Fin n)) (s t : multiThread.LoopState N) :
    Prop where
  centers : t.m_centers = s.m_centers
  cost : t.V = s.V
  iterations : t.numIterations = s.numIterations
  indexes : ∀ i : Fin n, t.m_indexes[i.val]? = s.m_indexes[(σ i).val]?

theorem storedIndexes_permuted {n k : Nat} [NeZero k] (x : Fin n → CPoint N)
    (σ : Equiv.Perm (Fin n)) (empty : CPoint N → CPoint N) (c : Fin k → CPoint N)
    (old old' : List Nat) (m : Nat) (i : Fin n) :
    (storedIndexes (x ∘ σ) empty c old' (m + 1))[i.val]? =
      (storedIndexes x empty c old (m + 1))[(σ i).val]? := by
  rw [storedIndexes, storedIndexes, read_listing, read_listing, indexes_renumbered]
  rfl

/-! ## Single-threaded -/

namespace singleThread

section Permuted

variable {n k : Nat} [NeZero k] (x : Fin n → CPoint N) (σ : Equiv.Perm (Fin n))
  (c : Fin k → CPoint N) (old old' : List Nat)

theorem agree_trace (m : Nat) : Agree σ (trace x c old (m + 1)) (trace (x ∘ σ) c old' (m + 1)) where
  centers := congrArg List.ofFn (centers_renumbered _ σ x c emptied (m + 1))
  cost := value_renumbered _ σ x c emptied m
  iterations := rfl
  indexes := storedIndexes_permuted x σ emptied c old old' m

theorem agree_turns (j : Nat) : ∃ s t,
    turns (iteration (List.ofFn x)) (j + 1) (start (List.ofFn c) old) = some s ∧
    turns (iteration (List.ofFn (x ∘ σ))) (j + 1) (start (List.ofFn c) old') = some t ∧
    Agree σ s t := by
  rw [start_eq, start_eq]
  exact ⟨_, _, turns_eq (iteration_eq x c old) (j + 1),
    turns_eq (iteration_eq (x ∘ σ) c old') (j + 1), agree_trace x σ c old old' j⟩

theorem agree_kmeansLoop {fuel : Nat} {s : LoopState N}
    (run : kmeansLoop fuel (List.ofFn x) (List.ofFn c) old = some s) :
    ∃ t, kmeansLoop fuel (List.ofFn (x ∘ σ)) (List.ofFn c) old' = some t ∧ Agree σ s t := by
  obtain ⟨m, lt, stop, rfl⟩ := (kmeansLoop_eq_some x c old fuel s).mp run
  refine ⟨_, (kmeansLoop_eq_some (x ∘ σ) c old' fuel _).mpr ⟨m, lt, ?_, rfl⟩, ?_⟩
  · exact (stopsAt_renumbered _ σ x c emptied m).mpr stop
  · exact agree_trace x σ c old old' m

end Permuted

end singleThread

/-! ## Multithreaded -/

namespace multiThread

section Permuted

variable {n k : Nat} [NeZero k] (x : Fin n → CPoint N) (σ : Equiv.Perm (Fin n))
  (c : Fin k → CPoint N) (old old' : List Nat)

theorem agree_trace (m : Nat) : Agree σ (trace x c old (m + 1)) (trace (x ∘ σ) c old' (m + 1)) where
  centers := congrArg List.ofFn (centers_renumbered _ σ x c id (m + 1))
  cost := value_renumbered _ σ x c id m
  iterations := rfl
  indexes := storedIndexes_permuted x σ id c old old' m

theorem agree_turns (j : Nat) : ∃ s t,
    turns (iteration (inOrder (List.ofFn x)) (List.ofFn x)) (j + 1) (start (List.ofFn c) old) =
      some s ∧
    turns (iteration (inOrder (List.ofFn (x ∘ σ))) (List.ofFn (x ∘ σ))) (j + 1)
      (start (List.ofFn c) old') = some t ∧ Agree σ s t := by
  rw [start_eq, start_eq]
  exact ⟨_, _, turns_eq (iteration_eq x c old (sequential_inOrder x k)) (j + 1),
    turns_eq (iteration_eq (x ∘ σ) c old' (sequential_inOrder (x ∘ σ) k)) (j + 1),
    agree_trace x σ c old old' j⟩

theorem agree_kmeansLoop {fuel : Nat} {s : LoopState N}
    (run : kmeansLoop (inOrder (List.ofFn x)) fuel (List.ofFn x) (List.ofFn c) old = some s) :
    ∃ t, kmeansLoop (inOrder (List.ofFn (x ∘ σ))) fuel (List.ofFn (x ∘ σ)) (List.ofFn c) old' =
      some t ∧ Agree σ s t := by
  obtain ⟨m, lt, stop, rfl⟩ :=
    (kmeansLoop_eq_some x c old (sequential_inOrder x k) fuel s).mp run
  refine ⟨_, (kmeansLoop_eq_some (x ∘ σ) c old' (sequential_inOrder (x ∘ σ) k) fuel _).mpr
    ⟨m, lt, ?_, rfl⟩, ?_⟩
  · exact (stopsAt_renumbered _ σ x c id m).mpr stop
  · exact agree_trace x σ c old old' m

end Permuted

end multiThread

/-! ## Both -/

/-- From the same centers the loops make the same iterations over the permuted points as over
    the points themselves: after any number of them the cost and the centers are the same and
    the indexes are permuted, and they stop after the same number. What the index arrays hold
    at the start does not matter. -/
theorem kmeansLoop_permuted (vpnts cent : List (CPoint N)) (some_center : cent ≠ [])
    (σ : Equiv.Perm (Fin vpnts.length)) (old old' : List Nat) :
    ((∀ j, ∃ s t,
        turns (singleThread.iteration vpnts) (j + 1) (singleThread.start cent old) = some s ∧
        turns (singleThread.iteration (permuted vpnts σ)) (j + 1)
          (singleThread.start cent old') = some t ∧ singleThread.Agree σ s t) ∧
      ∃ bound, ∀ fuel ≥ bound, ∃ s t, singleThread.kmeansLoop fuel vpnts cent old = some s ∧
        singleThread.kmeansLoop fuel (permuted vpnts σ) cent old' = some t ∧
        singleThread.Agree σ s t) ∧
    (∀ j, ∃ s t,
        turns (multiThread.iteration (multiThread.inOrder vpnts) vpnts) (j + 1)
          (multiThread.start cent old) = some s ∧
        turns (multiThread.iteration (multiThread.inOrder (permuted vpnts σ)) (permuted vpnts σ))
          (j + 1) (multiThread.start cent old') = some t ∧ multiThread.Agree σ s t) ∧
      ∃ bound, ∀ fuel ≥ bound, ∃ s t,
        multiThread.kmeansLoop (multiThread.inOrder vpnts) fuel vpnts cent old = some s ∧
        multiThread.kmeansLoop (multiThread.inOrder (permuted vpnts σ)) fuel (permuted vpnts σ) cent
          old' = some t ∧ multiThread.Agree σ s t := by
  obtain ⟨k, _, c, rfl⟩ := exists_ofFn_neZero some_center
  have listed : List.ofFn vpnts.get = vpnts := List.ofFn_get vpnts
  unfold permuted
  refine ⟨⟨?_, ?_⟩, ?_, ?_⟩
  · intro j
    have agree := singleThread.agree_turns vpnts.get σ c old old' j
    rw [listed] at agree
    exact agree
  · obtain ⟨s, bound, returns⟩ := singleThread.kmeansLoop_returns vpnts some_center old
    refine ⟨bound, fun fuel enough => ?_⟩
    have run := returns fuel enough
    rw [← listed] at run
    obtain ⟨t, run', agree⟩ := singleThread.agree_kmeansLoop vpnts.get σ c old old' run
    exact ⟨s, t, returns fuel enough, run', agree⟩
  · intro j
    have agree := multiThread.agree_turns vpnts.get σ c old old' j
    rw [listed] at agree
    exact agree
  · obtain ⟨s, bound, returns⟩ := multiThread.kmeansLoop_returns vpnts some_center old
    refine ⟨bound, fun fuel enough => ?_⟩
    have run := returns fuel enough
    rw [← listed] at run
    obtain ⟨t, run', agree⟩ := multiThread.agree_kmeansLoop vpnts.get σ c old old' run
    exact ⟨s, t, returns fuel enough, run', agree⟩

theorem kmeansLoop_permuted_on_two_points : ∃ (fuel : Nat) (s t : singleThread.LoopState 1)
    (s' t' : multiThread.LoopState 1),
    singleThread.kmeansLoop fuel [⟨![0]⟩, ⟨![2]⟩] [⟨![5]⟩, ⟨![1]⟩] [] = some s ∧
    singleThread.kmeansLoop fuel [⟨![2]⟩, ⟨![0]⟩] [⟨![5]⟩, ⟨![1]⟩] [] = some t ∧
    singleThread.Agree (Equiv.swap (0 : Fin 2) 1) s t ∧
    multiThread.kmeansLoop (multiThread.inOrder [⟨![0]⟩, ⟨![2]⟩]) fuel [⟨![0]⟩, ⟨![2]⟩]
      [⟨![5]⟩, ⟨![1]⟩] [] = some s' ∧
    multiThread.kmeansLoop (multiThread.inOrder [⟨![2]⟩, ⟨![0]⟩]) fuel [⟨![2]⟩, ⟨![0]⟩]
      [⟨![5]⟩, ⟨![1]⟩] [] = some t' ∧
    multiThread.Agree (Equiv.swap (0 : Fin 2) 1) s' t' := by
  obtain ⟨⟨_, bound, single⟩, _, bound', multi⟩ := kmeansLoop_permuted
    [⟨![0]⟩, (⟨![2]⟩ : CPoint 1)] [⟨![5]⟩, ⟨![1]⟩] (by simp) (Equiv.swap (0 : Fin 2) 1) [] []
  have swapped : permuted [⟨![0]⟩, (⟨![2]⟩ : CPoint 1)] (Equiv.swap (0 : Fin 2) 1) =
      [⟨![2]⟩, ⟨![0]⟩] := by
    decide +kernel
  rw [swapped] at single multi
  obtain ⟨s, t, run, run', agree⟩ := single (max bound bound') (le_max_left bound bound')
  obtain ⟨s', t', run'', run''', agree'⟩ := multi (max bound bound') (le_max_right bound bound')
  exact ⟨max bound bound', s, t, s', t', run, run', agree, run'', run''', agree'⟩

end KMeans
