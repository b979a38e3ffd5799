import KMeans.MultiThread.OneWorker

/-! # Schedule independence

Whatever the interleaving, `Run` returns what the sequential program returns.
-/

namespace KMeans.multiThread

open Loops Arrays Lloyd Transition

variable {N : Nat} {ω : Type} [DecidableEq ω]

/-- In every interleaving, each pass assigns every point its nearest center, and `Run`
    returns what the sequential loop returns. -/
theorem schedule_independence {m_vpnts : List (CPoint N)} {RAND_MAX : Nat} {rand : Nat → Nat}
    {m_numClusters : Nat} {members : Members N} {s : Machine N ω} (some_point : m_vpnts ≠ [])
    (small : m_vpnts.length < 2 ^ 32) (some_cluster : 1 ≤ m_numClusters)
    (reached : Reachable (schedules m_vpnts RAND_MAX rand m_numClusters members) s) :
    (s.point = .clear → Assigned m_vpnts s.vars) ∧
    ∀ result, s.point = .returned result → ∃ bound, ∀ fuel ≥ bound,
      Run (inOrder m_vpnts) fuel RAND_MAX rand m_vpnts m_numClusters members =
        some (⟨s.vars.m_indexes, s.vars.m_centers⟩, result) := by
  obtain ⟨n, k, _, x, c, rfl, seeds⟩ := exists_seeds RAND_MAX rand some_point some_cluster members
  rw [List.length_ofFn] at small
  obtain ⟨m, here⟩ := at_reachable seeds small reached
  constructor
  · intro at_s
    rw [at_s] at here
    exact here.2.2.1
  · intro result at_s
    rw [at_s] at here
    obtain ⟨-, entered, ⟨stops, same⟩, grouped⟩ := here
    rw [same] at grouped ⊢
    cases m with
    | zero =>
        rw [looping_trace_zero] at stops
        cases stops
    | succ m =>
        have stop := (stopsAt_iff_looping x c members.m_indexes m).mpr ⟨stops, entered⟩
        have sequential := sequential_inOrder x k
        rw [trace, storedIndexes, group_eq, Option.some.injEq] at grouped
        exact ⟨m + 1, fun fuel enough => (Run_eq_some sequential members seeds fuel _ _).mpr
          ⟨m, enough, stop, rfl, grouped.symm⟩⟩

/-- Two workers, and the points 0 and 2 in two clusters. -/
theorem schedule_independence_on_two_points : ∃ (s : Machine 1 (Fin 2))
    (result : List (CPoint 1 × List (CPoint 1))),
    Reachable (schedules [⟨![0]⟩, ⟨![2]⟩] 32767 (fun n => n) 2 .fresh) s ∧
    s.point = .returned result ∧ ∃ bound, ∀ fuel ≥ bound,
      Run (inOrder [⟨![0]⟩, ⟨![2]⟩]) fuel 32767 (fun n => n) [⟨![0]⟩, ⟨![2]⟩] 2 .fresh =
        some (⟨s.vars.m_indexes, s.vars.m_centers⟩, result) := by
  obtain ⟨s, reached, result, at_s⟩ := some_schedule_returns (ω := Fin 2)
    [⟨![0]⟩, (⟨![2]⟩ : CPoint 1)] (by simp) (by simp) 32767 (fun n => n) (by decide : 1 ≤ 2) .fresh
  exact ⟨s, result, reached, at_s,
    (schedule_independence (by simp) (by simp) (by decide) reached).2 result at_s⟩

end KMeans.multiThread
