import KMeans.Convergence
import KMeans.MultiThread.MainThread

/-! # A schedule in which `Run` returns

One worker does each task as soon as the task is added, while the others have not yet
begun. So `Run` can return for every input, and what holds of the interleavings in which
it returns is not said of nothing.
-/

namespace KMeans.multiThread

open Loops Arrays Lloyd Transition

variable {N : Nat} {ω : Type} [DecidableEq ω] {w : ω}

/-- Worker `w` is at `point`, and no other worker has begun. -/
def Only (pool : Pool TaskObject ω Unit Nat) (w : ω) (point : Worker TaskObject Nat) : Prop :=
  pool.worker = Function.update (fun _ => .testRunning) w point

section Only

variable {pool : Pool TaskObject ω Unit Nat} {point : Worker TaskObject Nat}

theorem Only.at_w (only : Only pool w point) : pool.worker w = point := by
  rw [only, Function.update_self]

theorem Only.goto (only : Only pool w point) (next : Worker TaskObject Nat) :
    Only (pool.goto w next) w next := by
  rw [Only, Pool.goto, only, Function.update_idem]

theorem Only.eq_or_testRunning (only : Only pool w point) (v : ω) :
    pool.worker v = point ∨ pool.worker v = .testRunning := by
  rcases eq_or_ne v w with rfl | other
  · exact Or.inl only.at_w
  · rw [only, Function.update_of_ne other]
    exact Or.inr rfl

end Only

/-- Some interleaving comes to a state in which worker `w` and the main thread are at
    these points, the queue is `queue`, and `j` iterations have begun. -/
def Visits (S : System (Machine N ω)) (w : ω) (worker : Worker TaskObject Nat)
    (queue : List TaskObject) (point : Point N) (j : Nat) : Prop :=
  ∃ s, Reachable S s ∧ s.pool.terminated = false ∧ Only s.pool w worker ∧
    s.pool.m_tasks.cells = queue ∧ s.point = point ∧ s.vars.numIterations = j

section OneWorker

variable {n k : Nat} [NeZero k] {x : Fin n → CPoint N} {c : Fin k → CPoint N} {RAND_MAX : Nat}
  {rand : Nat → Nat} {m_numClusters : Nat} {members : Members N} {S : System (Machine N ω)}
  (S_eq : S = schedules (List.ofFn x) RAND_MAX rand m_numClusters members)
  (seeds : kmeansPP RAND_MAX rand (List.ofFn x) m_numClusters members.m_centers =
    some (List.ofFn c)) (small : n < 2 ^ 32)

include S_eq seeds

omit [NeZero k] in
theorem visits_testCost_zero : Visits S w .testEmpty [] .testCost 0 := by
  subst S_eq
  have start : Reachable (schedules (List.ofFn x) RAND_MAX rand m_numClusters members)
      (⟨.fresh, ⟨members.m_centers, members.m_indexes, [], [], 0, 0, 0⟩, [], .seed⟩ :
        Machine N ω) := .init ⟨Pool.idle_fresh, rfl, rfl, rfl, rfl⟩
  have waiting : Only (Pool.fresh : Pool TaskObject ω Unit Nat) w .testRunning :=
    (Function.update_eq_self w _).symm
  have working := start.step ⟨rfl, .work w (.running rfl rfl)⟩
  have seeded := working.step ⟨rfl, .main (.seed rfl seeds)⟩
  exact ⟨_, seeded, rfl, waiting.goto _, rfl, rfl, rfl⟩

include small

theorem visits_addTask_zero {m : Nat} (goes : looping (trace x c members.m_indexes m) = true)
    (visits : Visits S w .testEmpty [] .testCost m) :
    Visits S w .testEmpty [] (.addTask 0) (m + 1) := by
  subst S_eq
  obtain ⟨s, reached, running, only, empty, at_s, turn⟩ := visits
  obtain ⟨l, here⟩ := at_reachable seeds small reached
  rw [at_s] at here
  have same := here.2.2.1
  obtain rfl : l = m := by rwa [same] at turn
  have entered := reached.step ⟨running, .main (.goOn at_s (by rw [same]; exact goes))⟩
  have created := entered.step ⟨running, .main (.createTasks rfl)⟩
  have resized := created.step ⟨running, .main (.resize rfl)⟩
  exact ⟨_, resized, running, only, empty, rfl, congrArg (· + 1) turn⟩

theorem visits_execute {e : Nat} {tsk : TaskObject} {i j : Nat} (created : tsk.range ∈ makeTasks n)
    (visits : Visits S w (.execute e tsk (toUnsigned tsk.range.m_begin)) [] (.addTask i) j) :
    Visits S w (.execute e tsk (toUnsigned tsk.range.m_end)) [] (.addTask i) j := by
  subst S_eq
  obtain ⟨lo, hi, le, fits, first, last⟩ := mem_makeTasks small created
  have turns : ∀ b, lo ≤ b → b ≤ hi → Visits
      (schedules (List.ofFn x) RAND_MAX rand m_numClusters members) w (.execute e tsk b)
      [] (.addTask i) j := by
    intro b low
    induction b, low using Nat.le_induction with
    | base => exact fun _ => first ▸ visits
    | succ b low ih =>
        intro high
        obtain ⟨s, reached, running, only, empty, at_s, turn⟩ := ih (by omega)
        obtain ⟨m, here⟩ := at_reachable seeds small reached
        rw [at_s] at here
        obtain ⟨ys, assigned⟩ := here.1.assignTurn_defined (i := b) (by omega)
        have next := reached.step
          ⟨running, .work w (.execute only.at_w ⟨by omega, ys, assigned, rfl, rfl⟩)⟩
        exact ⟨_, next, running, only.goto _, empty, at_s, turn⟩
  rw [last]
  exact turns hi le le_rfl

/-- The worker does the task that has just been added. -/
theorem visits_done (tsk : TaskObject) {i j : Nat} (created : tsk.range ∈ makeTasks n)
    (visits : Visits S w .testEmpty [tsk] (.addTask i) j) :
    Visits S w .testEmpty [] (.addTask i) j := by
  obtain ⟨s, reached, running, only, stored, at_s, turn⟩ := visits
  obtain ⟨left, popped, empty⟩ := BlockingList.pop_front_of_cons stored
  have started : Visits S w (.execute s.pool.popped.length tsk (toUnsigned tsk.range.m_begin)) []
      (.addTask i) j := by
    subst S_eq
    have testing := reached.step ⟨running, .work w
      (.notEmpty only.at_w (BlockingList.empty_of_singleton stored))⟩
    have popping := testing.step ⟨running, .work w (.pop (Pool.goto_self ..) popped)⟩
    have calling := popping.step ⟨running, .work w (.callExecute (Pool.goto_self ..))⟩
    exact ⟨_, calling, running, ((only.goto _).goto _).goto _, empty, at_s, turn⟩
  have finished := visits_execute S_eq seeds small created started
  subst S_eq
  obtain ⟨t, reached, running, only, empty, at_t, turn⟩ := finished
  have returned := reached.step ⟨running, .work w (.returns only.at_w (Nat.lt_irrefl _))⟩
  -- The promise of a task in hand is not satisfied, so `Notify` does not throw.
  have sound := Pool.sound_reachable (pool_reachable returned)
  obtain ⟨m, here⟩ := at_reachable seeds small returned
  rw [at_t] at here
  have unsatisfied : t.pool.ready tsk = false := by
    refine sound.not_ready here.nodup (w := w) (h := ⟨s.pool.popped.length, tsk, .completed⟩) ?_
    exact congrArg Worker.hand (Pool.goto_self t.pool w _)
  have notified := returned.step ⟨running, .work w
    (.notify (Pool.goto_self ..) (CTask.Notify_eq_some.mpr ⟨unsatisfied, rfl⟩))⟩
  exact ⟨_, notified, running, (only.goto _).goto _, empty, at_t, turn⟩

/-- All tasks of an iteration, each done before the next one is added. -/
theorem visits_addTask {j : Nat} (visits : Visits S w .testEmpty [] (.addTask 0) j) :
    ∀ i ≤ (taskObjects n j).length, Visits S w .testEmpty [] (.addTask i) j := by
  intro i le
  induction i with
  | zero => exact visits
  | succ i ih =>
      obtain ⟨s, reached, running, only, empty, at_s, turn⟩ := ih (by omega)
      refine visits_done S_eq seeds small (taskObjects n j)[i] ?_ ?_
      · exact (mem_taskObjects (List.getElem_mem _)).2
      · subst S_eq
        obtain ⟨m, here⟩ := at_reachable seeds small reached
        rw [at_s] at here
        obtain ⟨passing, outside, -⟩ := here
        have there : s.m_tasks[i]? = some (taskObjects n j)[i] := by
          rw [passing.m_tasks_eq, turn]
          exact List.getElem?_eq_getElem le
        have pushed := reached.step ⟨running, .main (.addTask at_s there
          (.pushBack (taskObjects n j)[i] outside) rfl)⟩
        have notified := pushed.step ⟨running, .main (.notifyOne rfl
          (.notifyNobody rfl fun v => by
            rcases only.eq_or_testRunning v with at_v | at_v <;> simp [at_v]))⟩
        exact ⟨_, notified, running, only, by simp [empty], rfl, turn⟩

theorem visits_callWait {j : Nat}
    (visits : Visits S w .testEmpty [] (.addTask (taskObjects n j).length) j) :
    ∀ i ≤ (taskObjects n j).length, Visits S w .testEmpty [] (.callWait i) j := by
  subst S_eq
  intro i le
  induction i with
  | zero =>
      obtain ⟨s, reached, running, only, empty, at_s, turn⟩ := visits
      obtain ⟨m, here⟩ := at_reachable seeds small reached
      rw [at_s] at here
      have none : s.m_tasks[(taskObjects n j).length]? = none := by
        rw [here.1.m_tasks_eq, turn]
        exact List.getElem?_eq_none le_rfl
      have added := reached.step ⟨running, .main (.addedAll at_s none)⟩
      exact ⟨_, added, running, only, empty, rfl, turn⟩
  | succ i ih =>
      obtain ⟨s, reached, running, only, empty, at_s, turn⟩ := ih (by omega)
      have sound := Pool.sound_reachable (pool_reachable reached)
      obtain ⟨m, here⟩ := at_reachable seeds small reached
      rw [at_s] at here
      obtain ⟨passing, outside, added, -⟩ := here
      have there : s.m_tasks[i]? = some (taskObjects n j)[i] := by
        rw [passing.m_tasks_eq, turn]
        exact List.getElem?_eq_getElem le
      have member : (taskObjects n j)[i] ∈ s.pool.added := by
        rw [added, history, ← passing.numIterations, turn]
        exact List.mem_append_right _ (List.getElem_mem le)
      have free : ∀ v, s.pool.ledger.hand v = none := by
        intro v
        rcases only.eq_or_testRunning v with at_v | at_v <;> exact congrArg Worker.hand at_v
      have waiting := reached.step ⟨running, .main (.callWait at_s there
        (.callWait (taskObjects n j)[i] outside) rfl)⟩
      have waited := waiting.step ⟨running, .main (.waitReturns rfl
        (.waitReturns rfl (sound.ready_of_idle empty free member)))⟩
      exact ⟨_, waited, running, only, empty, rfl, turn⟩

theorem visits_clear {j : Nat}
    (visits : Visits S w .testEmpty [] (.callWait (taskObjects n j).length) j) :
    Visits S w .testEmpty [] .clear j := by
  subst S_eq
  obtain ⟨s, reached, running, only, empty, at_s, turn⟩ := visits
  obtain ⟨m, here⟩ := at_reachable seeds small reached
  rw [at_s] at here
  have none : s.m_tasks[(taskObjects n j).length]? = none := by
    rw [here.1.m_tasks_eq, turn]
    exact List.getElem?_eq_none le_rfl
  have assigned := reached.step ⟨running, .main (.waitedForAll at_s none)⟩
  exact ⟨_, assigned, running, only, empty, rfl, turn⟩

omit [NeZero k] seeds small in
theorem visits_accumulate_zero {j : Nat} (visits : Visits S w .testEmpty [] .clear j) :
    Visits S w .testEmpty [] (.accumulate 0) j := by
  subst S_eq
  obtain ⟨s, reached, running, only, empty, at_s, turn⟩ := visits
  have cleared := reached.step ⟨running, .main (.clear at_s)⟩
  exact ⟨_, cleared, running, only, empty, rfl, turn⟩

/-- No access in `accumulate` is out of range, so its loop ends. -/
theorem visits_accumulate {j : Nat} (visits : Visits S w .testEmpty [] (.accumulate 0) j) :
    ∀ i ≤ n, Visits S w .testEmpty [] (.accumulate i) j := by
  subst S_eq
  intro i le
  induction i with
  | zero => exact visits
  | succ i ih =>
      obtain ⟨s, reached, running, only, empty, at_s, turn⟩ := ih (by omega)
      obtain ⟨m, here⟩ := at_reachable seeds small reached
      rw [at_s] at here
      obtain ⟨-, -, -, rest, -⟩ := here
      have inside : i < (List.ofFn x).length := by rwa [List.length_ofFn]
      rw [accumulated, forLoop_cons inside] at rest
      obtain ⟨_, loop, -⟩ := Option.bind_eq_some_iff.mp rest
      obtain ⟨⟨V, accumulator, numPoints⟩, defined, -⟩ := Option.bind_eq_some_iff.mp loop
      have next := reached.step ⟨running, .main (.accumulate at_s inside defined)⟩
      exact ⟨_, next, running, only, empty, rfl, turn⟩

/-- Nor is one in the loop that recomputes the centers. -/
theorem visits_testCost_of_update {j i : Nat} (left : Nat) {s : Machine N ω}
    (reached : Reachable S s) (running : s.pool.terminated = false)
    (only : Only s.pool w .testEmpty) (empty : s.pool.m_tasks.cells = [])
    (at_s : s.point = .update i) (turn : s.vars.numIterations = j)
    (turns : s.vars.m_centers.length = i + left) : Visits S w .testEmpty [] .testCost j := by
  induction left generalizing s i with
  | zero =>
      subst S_eq
      have done := reached.step ⟨running, .main (.updatedAll at_s (by omega))⟩
      exact ⟨_, done, running, only, empty, rfl, turn⟩
  | succ left ih =>
      subst S_eq
      obtain ⟨m, here⟩ := at_reachable seeds small reached
      rw [at_s] at here
      obtain ⟨-, -, -, rest, -⟩ := here
      have inside : i < s.vars.m_centers.length := by omega
      rw [recentered, forLoop_cons inside] at rest
      obtain ⟨_, loop, -⟩ := Option.bind_eq_some_iff.mp rest
      obtain ⟨⟨m_centers, numPoints, accumulator⟩, defined, -⟩ := Option.bind_eq_some_iff.mp loop
      have next := reached.step ⟨running, .main (.update at_s inside defined)⟩
      refine ih next running only empty rfl turn ?_
      simp only [length_updateTurn defined]
      omega

theorem visits_pass {m : Nat} (goes : looping (trace x c members.m_indexes m) = true)
    (visits : Visits S w .testEmpty [] .testCost m) : Visits S w .testEmpty [] .clear (m + 1) := by
  have added := visits_addTask S_eq seeds small
    (visits_addTask_zero S_eq seeds small goes visits) _ le_rfl
  have waited := visits_callWait S_eq seeds small added _ le_rfl
  exact visits_clear S_eq seeds small waited

theorem visits_testCost_succ {m : Nat} (goes : looping (trace x c members.m_indexes m) = true)
    (visits : Visits S w .testEmpty [] .testCost m) : Visits S w .testEmpty [] .testCost (m + 1) := by
  have cleared := visits_pass S_eq seeds small goes visits
  obtain ⟨s, reached, running, only, empty, at_s, turn⟩ := visits_accumulate S_eq seeds small
    (visits_accumulate_zero S_eq cleared) n le_rfl
  have done : Reachable S { s with point := .update 0 } := by
    subst S_eq
    exact reached.step ⟨running, .main (.accumulatedAll at_s (by simp))⟩
  exact visits_testCost_of_update S_eq seeds small _ done running only empty rfl turn
    (Nat.zero_add _).symm

theorem visits_testCost {m : Nat} (entered : Entered x c members m) :
    Visits S w .testEmpty [] .testCost m := by
  induction m with
  | zero => exact visits_testCost_zero S_eq seeds
  | succ m ih =>
      exact visits_testCost_succ S_eq seeds small (entered m (Nat.lt_succ_self m))
        (ih fun l lt => entered l (Nat.lt_succ_of_lt lt))

theorem visits_group {m : Nat} (stops : looping (trace x c members.m_indexes (m + 1)) = false)
    (visits : Visits S w .testEmpty [] .testCost (m + 1)) :
    ∀ i ≤ n, ∃ result, Visits S w .testEmpty [] (.group i result) (m + 1) := by
  subst S_eq
  intro i le
  induction i with
  | zero =>
      obtain ⟨s, reached, running, only, empty, at_s, turn⟩ := visits
      obtain ⟨l, here⟩ := at_reachable seeds small reached
      rw [at_s] at here
      have same := here.2.2.1
      obtain rfl : l = m + 1 := by rwa [same] at turn
      have left := reached.step ⟨running, .main (.leave at_s (by rw [same]; exact stops))⟩
      exact ⟨_, _, left, running, only, empty, rfl, turn⟩
  | succ i ih =>
      obtain ⟨result, s, reached, running, only, empty, at_s, turn⟩ := ih (by omega)
      obtain ⟨l, here⟩ := at_reachable seeds small reached
      rw [at_s] at here
      obtain ⟨-, -, ⟨-, same⟩, -, rest⟩ := here
      obtain rfl : l = m + 1 := by rwa [same] at turn
      rw [same, trace, storedIndexes, group_eq, forLoop_cons (by omega)] at rest
      obtain ⟨result', defined, -⟩ := Option.bind_eq_some_iff.mp rest
      have next := reached.step ⟨running, .main (.group at_s (by rwa [List.length_ofFn])
        (by rw [same]; exact defined))⟩
      exact ⟨_, _, next, running, only, empty, rfl, turn⟩

end OneWorker

/-- For every input `Run` returns in some interleaving. -/
theorem some_schedule_returns (m_vpnts : List (CPoint N)) (some_point : m_vpnts ≠ [])
    (small : m_vpnts.length < 2 ^ 32) (RAND_MAX : Nat) (rand : Nat → Nat) {m_numClusters : Nat}
    (some_cluster : 1 ≤ m_numClusters) (members : Members N) [Nonempty ω] : ∃ s : Machine N ω,
      Reachable (schedules m_vpnts RAND_MAX rand m_numClusters members) s ∧
      ∃ result, s.point = .returned result := by
  obtain ⟨w⟩ := ‹Nonempty ω›
  obtain ⟨n, k, _, x, c, rfl, seeds⟩ := exists_seeds RAND_MAX rand some_point some_cluster members
  rw [List.length_ofFn] at small
  obtain ⟨m, stop⟩ := exists_stopsAt x _ c CPoint.normSq_posDef bounded_id
  obtain ⟨stops, entered⟩ := (stopsAt_iff_looping x c members.m_indexes m).mp stop
  obtain ⟨result, s, reached, running, -, -, at_s, -⟩ := visits_group rfl seeds small stops
    (visits_testCost (w := w) rfl seeds small entered) n le_rfl
  exact ⟨_, reached.step ⟨running, .main (.returns at_s (by simp))⟩, result, rfl⟩

/-- For every input `m_tasks.clear()` is called in some interleaving. -/
theorem some_schedule_clears (m_vpnts : List (CPoint N)) (some_point : m_vpnts ≠ [])
    (small : m_vpnts.length < 2 ^ 32) (RAND_MAX : Nat) (rand : Nat → Nat) {m_numClusters : Nat}
    (some_cluster : 1 ≤ m_numClusters) (members : Members N) [Nonempty ω] : ∃ s : Machine N ω,
      Reachable (schedules m_vpnts RAND_MAX rand m_numClusters members) s ∧ s.point = .clear := by
  obtain ⟨w⟩ := ‹Nonempty ω›
  obtain ⟨n, k, _, x, c, rfl, seeds⟩ := exists_seeds RAND_MAX rand some_point some_cluster members
  rw [List.length_ofFn] at small
  obtain ⟨s, reached, -, -, -, at_s, -⟩ := visits_pass rfl seeds small
    (looping_trace_zero x c members.m_indexes) (visits_testCost_zero (w := w) rfl seeds)
  exact ⟨s, reached, at_s⟩

end KMeans.multiThread
