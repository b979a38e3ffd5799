import KMeans.Convergence
import KMeans.MultiThread.OneWorker

/-! # `Run` returns a stable partition

Each group of the result is the list of the points at certain positions of the input, in
input order, and every position is in exactly one group. In the multithreaded class this
holds for every interleaving, and no access that a thread is about to make is ever out
of range.
-/

namespace KMeans

open Loops Arrays Lloyd Transition

variable {N : Nat}

/-- One entry for each of `numGroups` groups; the groups are those of a partition of the input
    positions, and each is in input order. -/
structure StablePartition (vpnts : List (CPoint N)) (numGroups : Nat)
    (result : List (CPoint N × List (CPoint N))) : Prop where
  entries : result.length = numGroups
  groups : ∃ positions : List (List Nat), positions.flatten.Perm (List.range vpnts.length) ∧
    (∀ ps ∈ positions, ps.Pairwise (· < ·)) ∧
    List.Forall₂ (fun ps e => ps.map (vpnts[·]?) = e.2.map some) positions result

section Groups

variable {n k : Nat} (x : Fin n → CPoint N) (c : Fin k → CPoint N) (a : Fin n → Fin k)

/-- The positions of the members of a cluster, in input order. -/
def positionsOf (j : Fin k) : List Nat := ((List.finRange n).filter fun i => a i = j).map Fin.val

theorem mem_positionsOf {j : Fin k} {p : Nat} : p ∈ positionsOf a j ↔ ∃ i, a i = j ∧ i.val = p := by
  simp [positionsOf]

theorem sorted_positionsOf (j : Fin k) : (positionsOf a j).Pairwise (· < ·) := by
  apply List.Pairwise.map Fin.val (R := (· < ·))
  · intro i l less
    exact less
  · exact (List.pairwise_lt_finRange n).filter _

theorem flatten_positionsOf : (List.ofFn (positionsOf a)).flatten.Perm (List.range n) := by
  apply (List.perm_ext_iff_of_nodup _ List.nodup_range).mpr
  · intro p
    simp only [List.mem_flatten, List.mem_ofFn, List.mem_range]
    constructor
    · intro member
      obtain ⟨_, ⟨j, rfl⟩, inside⟩ := member
      obtain ⟨i, _, rfl⟩ := (mem_positionsOf a).mp inside
      exact i.isLt
    · intro inside
      exact ⟨_, ⟨a ⟨p, inside⟩, rfl⟩, (mem_positionsOf a).mpr ⟨⟨p, inside⟩, rfl, rfl⟩⟩
  · apply List.nodup_flatten.mpr
    constructor
    · intro ps member
      obtain ⟨j, rfl⟩ := List.mem_ofFn.mp member
      exact (sorted_positionsOf a j).imp Nat.ne_of_lt
    · apply List.pairwise_ofFn.mpr
      intro j l less p first second
      obtain ⟨i, here, rfl⟩ := (mem_positionsOf a).mp first
      obtain ⟨i', there, same⟩ := (mem_positionsOf a).mp second
      obtain rfl : i' = i := Fin.ext same
      exact absurd (here.symm.trans there) less.ne

theorem map_positionsOf (j : Fin k) :
    (positionsOf a j).map ((List.ofFn x)[·]?) = (groupOf x a j).map some := by
  rw [positionsOf, groupOf, List.map_map, List.map_map]
  apply List.map_congr_left
  intro i _
  exact read_ofFn x i

theorem stablePartition_groupOf :
    StablePartition (List.ofFn x) k (List.ofFn fun j => (c j, groupOf x a j)) where
  entries := List.length_ofFn
  groups := by
    refine ⟨List.ofFn (positionsOf a), ?_, ?_, ?_⟩
    · rw [List.length_ofFn]
      exact flatten_positionsOf a
    · intro ps member
      obtain ⟨j, rfl⟩ := List.mem_ofFn.mp member
      exact sorted_positionsOf a j
    · apply List.forall₂_iff_get.mpr
      constructor
      · rw [List.length_ofFn, List.length_ofFn]
      · intro j inside _
        have fits : j < k := by simpa using inside
        simp only [List.get_eq_getElem, List.getElem_ofFn]
        exact map_positionsOf x a ⟨j, fits⟩

end Groups

/-! ## Single-threaded -/

theorem singleThread.stablePartition_of_Run {fuel RAND_MAX : Nat} {rand : Nat → Nat}
    {vpnts : List (CPoint N)} (some_point : vpnts ≠ []) {k : Nat} (some_cluster : 1 ≤ k)
    {result : List (CPoint N × List (CPoint N))}
    (run : Run fuel RAND_MAX rand vpnts k = some result) : StablePartition vpnts k result := by
  obtain ⟨n, _, x, c, rfl, seeds⟩ := kmeansPP_seeds RAND_MAX rand some_point some_cluster
  obtain ⟨m, _, _, rfl⟩ := (Run_eq_some seeds fuel result).mp run
  exact stablePartition_groupOf x _ _

/-! ## Multithreaded -/

namespace multiThread

variable {ω : Type}

/-- The access that a thread is about to make is not out of range. -/
structure InRange (m_vpnts : List (CPoint N)) (RAND_MAX : Nat) (rand : Nat → Nat)
    (m_numClusters : Nat) (s : Machine N ω) : Prop where
  seed : s.point = .seed →
    (kmeansPP RAND_MAX rand m_vpnts m_numClusters s.vars.m_centers).isSome
  execute : ∀ w e tsk i, s.pool.worker w = .execute e tsk i → i < toUnsigned tsk.range.m_end →
    (assignTurn m_vpnts s.vars.m_centers i s.vars.m_indexes).isSome
  accumulate : ∀ i, s.point = .accumulate i → i < m_vpnts.length →
    (accumulateTurn m_vpnts s.vars.m_centers s.vars.m_indexes i
      (s.vars.V, s.vars.accumulator, s.vars.numPoints)).isSome
  update : ∀ i, s.point = .update i → i < s.vars.m_centers.length →
    (updateTurn i (s.vars.m_centers, s.vars.numPoints, s.vars.accumulator)).isSome
  group : ∀ i result, s.point = .group i result → i < m_vpnts.length →
    (groupTurn m_vpnts s.vars.m_indexes i result).isSome

section Schedules

/-- The loop does not stop before its first iteration. -/
theorem exists_succ_of_stops {n k : Nat} [NeZero k] {x : Fin n → CPoint N} {c : Fin k → CPoint N}
    {unused : List Nat} {m : Nat} (stops : looping (trace x c unused m) = false) :
    ∃ l, m = l + 1 := by
  cases m with
  | zero =>
      rw [looping_trace_zero] at stops
      cases stops
  | succ l => exact ⟨l, rfl⟩

variable {n k : Nat} [NeZero k] {x : Fin n → CPoint N} {c : Fin k → CPoint N} {members : Members N}
  {m : Nat} {pool : Pool TaskObject ω Unit Nat} {vars : LoopState N} {m_tasks : List TaskObject}

/-- Whoever is in `Execute` is there during a pass, with a range of the points. -/
theorem At.executing {point : Point N} (here : At x c members m pool vars m_tasks point)
    (sound : pool.ledger.Sound) {w : ω} {e i : Nat} {tsk : TaskObject}
    (at_w : pool.worker w = .execute e tsk i) :
    Passing x c members m pool vars m_tasks ∧ tsk.range ∈ makeTasks n := by
  have holds : pool.ledger.hand w = some ⟨e, tsk, .executing⟩ := by
    simp only [Pool.ledger, at_w]
    rfl
  have added : tsk ∈ pool.added :=
    List.mem_of_getElem? (sound.added_of_task (sound.task_of_hand holds))
  cases point with
  | seed | testCost | createTasks | resize | clear | accumulate _ | update _ | group _ _
  | returned _ =>
      have free := here.1.free sound w
      rw [holds] at free
      cases free
  | addTask _ | notifyOne _ =>
      refine ⟨here.1, ?_⟩
      rw [here.2.2] at added
      cases List.mem_append.mp added with
      | inl earlier => exact range_of_mem_history earlier
      | inr last => exact (mem_taskObjects (List.mem_of_mem_take last)).2
  | callWait _ | waitFor _ =>
      refine ⟨here.1, ?_⟩
      rw [here.2.2.1] at added
      exact range_of_mem_history added

theorem At.inRange {s : Machine N ω} {RAND_MAX : Nat} {rand : Nat → Nat} {m_numClusters : Nat}
    (here : At x c members m s.pool s.vars s.m_tasks s.point) (sound : s.pool.ledger.Sound)
    (small : n < 2 ^ 32) (seeds : kmeansPP RAND_MAX rand (List.ofFn x) m_numClusters
      members.m_centers = some (List.ofFn c)) :
    InRange (List.ofFn x) RAND_MAX rand m_numClusters s where
  seed := by
    intro at_s
    rw [at_s] at here
    obtain ⟨_, _, _, kept, _⟩ := here
    rw [kept, seeds]
    rfl
  execute := by
    intro w e tsk i at_w inside
    obtain ⟨passing, created⟩ := here.executing sound at_w
    obtain ⟨lo, hi, _, fits, _, last⟩ := mem_makeTasks small created
    obtain ⟨ys, turn⟩ := passing.assignTurn_defined (i := i) (by omega)
    rw [turn]
    rfl
  accumulate := by
    intro i at_s inside
    rw [at_s] at here
    obtain ⟨_, _, _, rest, _⟩ := here
    obtain ⟨_, run, _⟩ := Option.bind_eq_some_iff.mp rest
    exact turn_of_forLoop inside run
  update := by
    intro i at_s inside
    rw [at_s] at here
    obtain ⟨_, _, _, rest, _⟩ := here
    obtain ⟨_, run, _⟩ := Option.bind_eq_some_iff.mp rest
    exact turn_of_forLoop inside run
  group := by
    intro i result at_s inside
    rw [at_s] at here
    obtain ⟨_, _, ⟨stops, same⟩, _, run⟩ := here
    rw [List.length_ofFn] at inside
    obtain ⟨m, rfl⟩ := exists_succ_of_stops stops
    rw [same, trace, storedIndexes, group_eq] at run
    rw [same, trace, storedIndexes]
    exact turn_of_forLoop inside run

variable [DecidableEq ω]

theorem schedules_stablePartition {m_vpnts : List (CPoint N)} (some_point : m_vpnts ≠ [])
    (small : m_vpnts.length < 2 ^ 32) {m_numClusters : Nat} (some_cluster : 1 ≤ m_numClusters)
    {RAND_MAX : Nat} {rand : Nat → Nat} {s : Machine N ω}
    (reached : Reachable (schedules m_vpnts RAND_MAX rand m_numClusters .fresh) s) :
    InRange m_vpnts RAND_MAX rand m_numClusters s ∧
    ∀ result, s.point = .returned result → StablePartition m_vpnts m_numClusters result := by
  obtain ⟨n, _, x, c, rfl, seeds⟩ := kmeansPP_seeds RAND_MAX rand some_point some_cluster
  rw [List.length_ofFn] at small
  obtain ⟨m, here⟩ : ∃ m, At x c .fresh m s.pool s.vars s.m_tasks s.point :=
    at_reachable seeds small reached
  constructor
  · exact here.inRange (Pool.sound_reachable (pool_reachable reached)) small seeds
  · intro result at_s
    rw [at_s] at here
    obtain ⟨_, _, ⟨stops, same⟩, grouped⟩ := here
    obtain ⟨m, rfl⟩ := exists_succ_of_stops stops
    rw [same, trace, storedIndexes, group_eq, Option.some.injEq] at grouped
    rw [← grouped]
    exact stablePartition_groupOf x _ _

end Schedules

end multiThread

/-! ## Both -/

/-- For every input both classes return a stable partition, without an access out of range: the
    single-threaded one always, the multithreaded one in every interleaving in which it returns. -/
theorem Run_stablePartition {ω : Type} [DecidableEq ω] (vpnts : List (CPoint N))
    (some_point : vpnts ≠ []) (small : vpnts.length < 2 ^ 32) (numGroups : Nat)
    (some_cluster : 1 ≤ numGroups) (RAND_MAX : Nat) (rand : Nat → Nat) :
    ((∃ bound, ∀ fuel ≥ bound, (singleThread.Run fuel RAND_MAX rand vpnts numGroups).isSome) ∧
      ∀ fuel result, singleThread.Run fuel RAND_MAX rand vpnts numGroups = some result →
        StablePartition vpnts numGroups result) ∧
    ∀ s : multiThread.Machine N ω,
      Reachable (multiThread.schedules vpnts RAND_MAX rand numGroups .fresh) s →
      multiThread.InRange vpnts RAND_MAX rand numGroups s ∧
      ∀ result, s.point = .returned result → StablePartition vpnts numGroups result := by
  refine ⟨⟨?_, ?_⟩, ?_⟩
  · exact singleThread.Run_returns RAND_MAX rand some_point some_cluster
  · intro fuel result run
    exact singleThread.stablePartition_of_Run some_point some_cluster run
  · intro s reached
    exact multiThread.schedules_stablePartition some_point small some_cluster reached

theorem Run_stablePartition_on_two_points :
    (∃ (fuel : Nat) (result : List (CPoint 1 × List (CPoint 1))),
      singleThread.Run fuel 32767 (fun _ => 0) [⟨![0]⟩, ⟨![2]⟩] 3 = some result ∧
      StablePartition [⟨![0]⟩, ⟨![2]⟩] 3 result) ∧
    ∃ (s : multiThread.Machine 1 Unit) (result : List (CPoint 1 × List (CPoint 1))),
      Reachable (multiThread.schedules [⟨![0]⟩, ⟨![2]⟩] 32767 (fun _ => 0) 3 .fresh) s ∧
      s.point = .returned result ∧ StablePartition [⟨![0]⟩, ⟨![2]⟩] 3 result := by
  obtain ⟨⟨⟨bound, returns⟩, single⟩, multi⟩ := Run_stablePartition (ω := Unit)
    [⟨![0]⟩, (⟨![2]⟩ : CPoint 1)] (by simp) (by simp) 3 (by decide) 32767 (fun _ => 0)
  constructor
  · obtain ⟨result, run⟩ := Option.isSome_iff_exists.mp (returns bound le_rfl)
    exact ⟨bound, result, run, single bound result run⟩
  · obtain ⟨s, reached, result, at_s⟩ := multiThread.some_schedule_returns (ω := Unit)
      [⟨![0]⟩, (⟨![2]⟩ : CPoint 1)] (by simp) (by simp) 32767 (fun _ => 0)
      (by decide : 1 ≤ 3) .fresh
    exact ⟨s, result, reached, at_s, (multi s reached).2 result at_s⟩

end KMeans
