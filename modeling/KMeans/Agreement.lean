import KMeans.FixedPoint

/-! # The two implementations compared

Both `Run` functions seed alike, assign alike and sum alike. The one difference is
the center of a cluster without points: the multithreaded loop keeps it, the other
one replaces it by the zero vector. So the two loops go through the same centers
exactly as long as this replacement changes nothing.
-/

namespace KMeans

open Loops Arrays Lloyd

variable {N : Nat}

/-- A cluster without points has the zero vector as its center already. -/
def singleThread.KeepsEmpty (vpnts centers : List (CPoint N)) : Prop :=
  ∀ cl < centers.length, ¬ Drawn vpnts centers cl → centers[cl]? = some CPoint.getZero

instance (vpnts centers : List (CPoint N)) : Decidable (singleThread.KeepsEmpty vpnts centers) :=
  inferInstanceAs (Decidable (∀ cl < centers.length, _))

/-- Before every iteration that the single-threaded loop makes from `cent`, the clusters
    without points have the zero vector as their center. -/
def singleThread.NeverDrops (vpnts cent : List (CPoint N)) : Prop :=
  ∀ s, Tested looping (iteration vpnts) (start cent []) s → looping s = true →
    KeepsEmpty vpnts s.centOld

/-- Whenever both loops have made the same number of iterations from `cent`, they have
    the same centers. -/
def SameCenters (pass : multiThread.Assignment N) (vpnts cent : List (CPoint N)) : Prop :=
  ∀ s t, Tested singleThread.looping (singleThread.iteration vpnts) (singleThread.start cent []) s →
    Tested multiThread.looping (multiThread.iteration pass vpnts) (multiThread.start cent []) t →
    s.numIterations = t.numIterations → s.centOld = t.m_centers

section Trace

variable {n k : Nat} [NeZero k] (x : Fin n → CPoint N) (c : Fin k → CPoint N)

theorem keepsEmpty_trace (m : Nat) : singleThread.KeepsEmpty (List.ofFn x)
    (List.ofFn (centers CPoint.normSq x singleThread.emptied c m)) ↔
      Harmless CPoint.normSq x singleThread.emptied c m := by
  constructor
  · intro keeps j absent
    have zero := keeps j (by simp) (mt (singleThread.drawn_ofFn x _ j).mp absent)
    rw [read_ofFn, Option.some.injEq] at zero
    exact zero.symm
  · intro harmless cl inside undrawn
    have fits : cl < k := by simpa using inside
    have same := harmless ⟨cl, fits⟩ (mt (singleThread.drawn_ofFn x _ ⟨cl, fits⟩).mpr undrawn)
    have read := read_ofFn (centers CPoint.normSq x singleThread.emptied c m) ⟨cl, fits⟩
    exact read.trans (congrArg some same.symm)

/-- The single-threaded loop makes at least `m` iterations. -/
def Reaches (m : Nat) : Prop := ∀ l < m, singleThread.looping (singleThread.trace x c [] l) = true

theorem tested_trace (m : Nat) : Tested singleThread.looping (singleThread.iteration (List.ofFn x))
    (singleThread.start (List.ofFn c) []) (singleThread.trace x c [] m) ↔ Reaches x c m := by
  rw [singleThread.start_eq, tested_iff (singleThread.iteration_eq x c [])]
  constructor
  · rintro ⟨l, same, before⟩
    obtain rfl : m = l := congrArg singleThread.LoopState.numIterations same
    exact before
  · exact fun before => ⟨m, rfl, before⟩

theorem reaches_of_stopsAt {m : Nat} (stop : StopsAt CPoint.normSq x singleThread.emptied c m) :
    Reaches x c (m + 1) :=
  fun l lt => singleThread.looping_trace x c stop.2 l (by omega)

theorem neverDrops_iff : singleThread.NeverDrops (List.ofFn x) (List.ofFn c) ↔
    ∀ m, Reaches x c (m + 1) → Harmless CPoint.normSq x singleThread.emptied c m := by
  constructor
  · intro never m reached
    rw [← keepsEmpty_trace]
    exact never _ ((tested_trace x c m).mpr fun l lt => reached l (by omega)) (reached m (by omega))
  · intro harmless s tested goes
    have reached := tested
    rw [singleThread.start_eq, tested_iff (singleThread.iteration_eq x c [])] at reached
    obtain ⟨m, rfl, before⟩ := reached
    refine (keepsEmpty_trace x c m).mpr (harmless m fun l lt => ?_)
    rcases Nat.lt_succ_iff_lt_or_eq.mp lt with earlier | rfl
    · exact before l earlier
    · exact goes

theorem value_eq_of_centers_eq {m : Nat} (same : centers CPoint.normSq x singleThread.emptied c m =
    centers CPoint.normSq x id c m) :
    value CPoint.normSq x singleThread.emptied c m = value CPoint.normSq x id c m := by
  rw [value, value, indexes, indexes, same]

theorem previous_eq_of_centers_eq {m : Nat} (same : ∀ l < m,
    centers CPoint.normSq x singleThread.emptied c l = centers CPoint.normSq x id c l) :
    previous CPoint.normSq x singleThread.emptied c m = previous CPoint.normSq x id c m := by
  cases m with
  | zero => rfl
  | succ m => exact value_eq_of_centers_eq x c (same m (Nat.lt_succ_self m))

/-- Two loops with the same centers so far stop together. -/
theorem looping_trace_eq {m : Nat} (same : ∀ l < m,
    centers CPoint.normSq x singleThread.emptied c l = centers CPoint.normSq x id c l) :
    multiThread.looping (multiThread.trace x c [] m) =
      singleThread.looping (singleThread.trace x c [] m) := by
  cases m with
  | zero => rw [multiThread.looping_trace_zero, singleThread.looping_trace_zero]
  | succ m =>
      rw [Bool.eq_iff_iff, ← not_iff_not, Bool.not_eq_true, Bool.not_eq_true,
        multiThread.looping_trace_succ, singleThread.looping_trace_succ,
        value_eq_of_centers_eq x c (same m (Nat.lt_succ_self m)),
        previous_eq_of_centers_eq x c fun l lt => same l (by omega)]

variable {pass : multiThread.Assignment N} (sequential : multiThread.Sequential pass x k)

include sequential

/-- Agreement pass by pass: as long as the centers agree, both loops go on. -/
theorem centers_eq_of_sameCenters (agree : SameCenters pass (List.ofFn x) (List.ofFn c)) {m : Nat}
    (reached : Reaches x c m) : centers CPoint.normSq x singleThread.emptied c m =
      centers CPoint.normSq x id c m := by
  induction m using Nat.strong_induction_on with
  | _ m ih =>
      have before : ∀ l < m, centers CPoint.normSq x singleThread.emptied c l =
          centers CPoint.normSq x id c l :=
        fun l lt => ih l lt fun i less => reached i (by omega)
      have other : Tested multiThread.looping (multiThread.iteration pass (List.ofFn x))
          (multiThread.start (List.ofFn c) []) (multiThread.trace x c [] m) := by
        rw [multiThread.start_eq]
        refine (tested_iff (multiThread.iteration_eq x c [] sequential)).mpr ⟨m, rfl, fun l lt => ?_⟩
        rw [looping_trace_eq x c fun i less => before i (by omega)]
        exact reached l lt
      exact List.ofFn_injective (agree _ _ ((tested_trace x c m).mpr reached) other rfl)

theorem sameCenters_iff : SameCenters pass (List.ofFn x) (List.ofFn c) ↔
    singleThread.NeverDrops (List.ofFn x) (List.ofFn c) := by
  rw [neverDrops_iff]
  constructor
  · intro agree m reached
    exact harmless_of_centers_eq _ x _ c
      (centers_eq_of_sameCenters x c sequential agree fun l lt => reached l (by omega))
      (centers_eq_of_sameCenters x c sequential agree reached)
  · intro harmless s t tested other together
    rw [singleThread.start_eq, tested_iff (singleThread.iteration_eq x c [])] at tested
    rw [multiThread.start_eq, tested_iff (multiThread.iteration_eq x c [] sequential)] at other
    obtain ⟨m, rfl, reached⟩ := tested
    obtain ⟨l, rfl, -⟩ := other
    obtain rfl : m = l := together
    exact congrArg List.ofFn (centers_eq_keep _ x _ c fun l lt =>
      harmless l fun i less => reached i (by omega))

end Trace

/-- The two loops go through the same centers exactly when the single-threaded one moves
    no center of a cluster without points, and then both `Run` functions return, and
    return the same. The tasks of the assignment passes may run in any order. -/
theorem Run_agree (RAND_MAX : Nat) (rand : Nat → Nat) (vpnts : List (CPoint N))
    (some_point : vpnts ≠ []) (small : vpnts.length < 2 ^ 32) (k : Nat) (some_cluster : 1 ≤ k)
    (order : Nat → List multiThread.CKMTask)
    (perm : ∀ j, (order j).Perm (multiThread.makeTasks vpnts.length)) :
    ∃ cent, kmeansPP RAND_MAX rand vpnts k [] = some cent ∧
      (SameCenters (multiThread.byTasks vpnts order) vpnts cent ↔
        singleThread.NeverDrops vpnts cent) ∧
      (singleThread.NeverDrops vpnts cent → ∃ r members bound, ∀ fuel ≥ bound,
        singleThread.Run fuel RAND_MAX rand vpnts k = some r ∧
        multiThread.Run (multiThread.byTasks vpnts order) fuel RAND_MAX rand vpnts k .fresh =
          some (members, r)) := by
  obtain ⟨n, _, x, c, rfl, seeds⟩ := kmeansPP_seeds RAND_MAX rand some_point some_cluster
  rw [List.length_ofFn] at small perm
  have sequential := multiThread.sequential_byTasks x k small perm
  refine ⟨_, seeds, sameCenters_iff x c sequential, fun never => ?_⟩
  obtain ⟨m, stop⟩ := exists_stopsAt x _ c CPoint.normSq_posDef bounded_emptied
  have same : ∀ l ≤ m + 1, centers CPoint.normSq x singleThread.emptied c l =
      centers CPoint.normSq x id c l := fun l le =>
    centers_eq_keep _ x _ c fun i lt => (neverDrops_iff x c).mp never i fun e less =>
      reaches_of_stopsAt x c stop e (by omega)
  have stops : ∀ l ≤ m, (value CPoint.normSq x id c l = previous CPoint.normSq x id c l ↔
      value CPoint.normSq x singleThread.emptied c l =
        previous CPoint.normSq x singleThread.emptied c l) := fun l le => by
    rw [value_eq_of_centers_eq x c (same l (by omega)),
      previous_eq_of_centers_eq x c fun i lt => same i (by omega)]
  have stop' : StopsAt CPoint.normSq x id c m :=
    ⟨(stops m le_rfl).mpr stop.1, fun l lt => mt (stops l lt.le).mp (stop.2 l lt)⟩
  refine ⟨_, _, m + 1, fun fuel le => ⟨(singleThread.Run_eq_some seeds fuel _).mpr
    ⟨m, le, stop, rfl⟩, (multiThread.Run_eq_some sequential .fresh seeds fuel _ _).mpr
    ⟨m, le, stop', rfl, ?_⟩⟩⟩
  rw [same (m + 1) le_rfl, indexes, indexes, same m (by omega)]

/-- The seeds are 0 and 12, and no cluster is ever empty. -/
theorem Run_agree_on_four_points : ∃ r members bound, ∀ fuel ≥ bound,
    singleThread.Run fuel 32767 (fun n => if n = 0 then 0 else 32766)
      [⟨![0]⟩, ⟨![2]⟩, ⟨![10]⟩, (⟨![12]⟩ : CPoint 1)] 2 = some r ∧
    multiThread.Run (multiThread.byTasks [⟨![0]⟩, ⟨![2]⟩, ⟨![10]⟩, ⟨![12]⟩] fun _ =>
      multiThread.makeTasks 4) fuel 32767 (fun n => if n = 0 then 0 else 32766)
      [⟨![0]⟩, ⟨![2]⟩, ⟨![10]⟩, ⟨![12]⟩] 2 .fresh = some (members, r) := by
  obtain ⟨cent, seeds, -, agree⟩ := Run_agree 32767 (fun n => if n = 0 then 0 else 32766)
    [⟨![0]⟩, ⟨![2]⟩, ⟨![10]⟩, (⟨![12]⟩ : CPoint 1)] (by simp) (by simp) 2 (by decide)
    (fun _ => multiThread.makeTasks 4) fun _ => List.Perm.refl _
  have drawn : kmeansPP 32767 (fun n => if n = 0 then 0 else 32766)
      [⟨![0]⟩, ⟨![2]⟩, ⟨![10]⟩, (⟨![12]⟩ : CPoint 1)] 2 [] = some [⟨![0]⟩, ⟨![12]⟩] := by
    decide +kernel
  obtain rfl : [⟨![0]⟩, ⟨![12]⟩] = cent := Option.some.inj (drawn.symm.trans seeds)
  apply agree
  intro s tested _
  refine tested.of_everyTest (P := fun s => singleThread.KeepsEmpty _ s.centOld) 3 ?_
  decide +kernel

/-- One point and two clusters: the second cluster is empty, and its center comes back as
    the zero vector from the one loop and as the point from the other. -/
theorem Run_disagree : ¬ ∀ (N RAND_MAX : Nat) (rand : Nat → Nat) (vpnts : List (CPoint N)) (k : Nat)
    (order : Nat → List multiThread.CKMTask) (fuel : Nat) (members : multiThread.Members N)
    (r r' : List (CPoint N × List (CPoint N))), vpnts ≠ [] → vpnts.length < 2 ^ 32 → 1 ≤ k →
    (∀ n, rand n ≤ RAND_MAX) → (∀ j, (order j).Perm (multiThread.makeTasks vpnts.length)) →
    singleThread.Run fuel RAND_MAX rand vpnts k = some r →
    multiThread.Run (multiThread.byTasks vpnts order) fuel RAND_MAX rand vpnts k .fresh =
      some (members, r') → r = r' := by
  intro claim
  have single : singleThread.Run 3 32767 (fun _ => 0) [(⟨![1]⟩ : CPoint 1)] 2 =
      some [(⟨![1]⟩, [⟨![1]⟩]), (⟨![0]⟩, [])] := by decide +kernel
  have multi : (multiThread.Run (multiThread.byTasks [⟨![1]⟩] fun _ => multiThread.makeTasks 1) 3
      32767 (fun _ => 0) [(⟨![1]⟩ : CPoint 1)] 2 .fresh).map Prod.snd =
      some [(⟨![1]⟩, [⟨![1]⟩]), (⟨![1]⟩, [])] := by decide +kernel
  obtain ⟨⟨members, r'⟩, run, returned⟩ := Option.map_eq_some_iff.mp multi
  obtain rfl : r' = [(⟨![1]⟩, [⟨![1]⟩]), (⟨![1]⟩, [])] := returned
  have same := claim 1 32767 (fun _ => 0) [⟨![1]⟩] 2 (fun _ => multiThread.makeTasks 1) 3 members _ _
    (by simp) (by simp) (by simp) (by simp) (fun _ => List.Perm.refl _) single run
  revert same
  decide +kernel

end KMeans
