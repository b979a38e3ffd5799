import KMeans.MultiThread.OneWorker
import KMeans.MultiThread.TaskLifetime
import KMeans.MultiThread.TaskRanges
import KMeans.Threadsafe.PoolDrains
import KMeans.Threadsafe.Resubmission

/-! # The next action

In every state that the threads of `Run` come to, one of them can act: no access is out of
range, and nobody waits for a lock for ever. The exception is a main thread that waits for a
task while all workers are asleep.
-/

namespace KMeans.multiThread

open Loops Arrays Lloyd Transition

variable {N : Nat} {ω : Type}

/-! ## The actions of the main thread -/

/-- The actions that the main thread still makes before it tests the cost again, and after the
    last test those up to its end. -/
def Point.left (n k : Nat) : Point N → Nat
  | .seed => n + 3
  | .createTasks => 2 * n + k + 57
  | .resize => 2 * n + k + 56
  | .addTask i => 2 * (12 - i) + 2 * n + k + 31
  | .notifyOne i => 2 * (12 - i) + 2 * n + k + 30
  | .callWait i => 2 * (12 - i) + 2 * n + k + 6
  | .waitFor i => 2 * (12 - i) + 2 * n + k + 5
  | .clear => 2 * n + k + 5
  | .accumulate i => n - i + n + k + 4
  | .update i => k - i + n + 3
  | .testCost => n + 2
  | .group i _ => n - i + 1
  | .returned _ => 0

/-- The iterations that have begun. -/
def Machine.turn (s : Machine N ω) : Nat :=
  match s.point with
  | .seed => 0
  | _ => s.vars.numIterations

/-- The actions that the main thread has left, at most, if the loop makes `turns` iterations. -/
def Machine.left (turns n k : Nat) (s : Machine N ω) : Nat :=
  (turns - s.turn) * (n + k + 56) + s.point.left n k

/-- The bounds of the counters of the main thread. -/
structure Bounded (turns k : Nat) (s : Machine N ω) : Prop where
  turn : s.turn ≤ turns
  m_centers : s.point ≠ .seed → s.vars.m_centers.length = k
  notifying : ∀ i, s.point = .notifyOne i → i < 12
  waiting : ∀ i, s.point = .waitFor i → i < 12

section Main

variable [DecidableEq ω] {m_vpnts : List (CPoint N)} {RAND_MAX : Nat} {rand : Nat → Nat}
  {m_numClusters turns k : Nat} {s s' : Machine N ω}

/-- Each action of the main thread brings it nearer to its end. -/
theorem Main.left_lt (main : Main m_vpnts RAND_MAX rand m_numClusters s s')
    (before : Bounded turns k s) (after : Bounded turns k s') (twelve : s.m_tasks.length ≤ 12) :
    s'.left turns m_vpnts.length k < s.left turns m_vpnts.length k := by
  cases main with
  | seed at_s _ => simp [Machine.left, Machine.turn, at_s, Point.left, start]
  | goOn at_s _ =>
      have more : s.vars.numIterations + 1 ≤ turns := after.turn
      have one : turns - s.vars.numIterations = turns - (s.vars.numIterations + 1) + 1 := by omega
      simp only [Machine.left, Machine.turn, at_s, Point.left, one, Nat.add_mul, Nat.one_mul]
      omega
  | addTask at_s there _ _ | callWait at_s there _ _ =>
      have inside := (List.getElem?_eq_some_iff.mp there).1.trans_le twelve
      simp only [Machine.left, Machine.turn, at_s, Point.left]
      omega
  | notifyOne at_s _ =>
      have inside := before.notifying _ at_s
      simp only [Machine.left, Machine.turn, at_s, Point.left]
      omega
  | waitReturns at_s _ =>
      have inside := before.waiting _ at_s
      simp only [Machine.left, Machine.turn, at_s, Point.left]
      omega
  | update at_s inside _ =>
      have length := before.m_centers (by simp [at_s])
      simp only [Machine.left, Machine.turn, at_s, Point.left]
      omega
  | createTasks at_s | resize at_s | addedAll at_s _ | waitedForAll at_s _ | clear at_s
  | accumulate at_s _ _ | accumulatedAll at_s _ | updatedAll at_s _ | leave at_s _
  | group at_s _ _ | returns at_s _ =>
      simp only [Machine.left, Machine.turn, at_s, Point.left]
      omega

end Main

/-! ## What holds in every interleaving -/

section Schedules

variable [DecidableEq ω] {n k : Nat} [NeZero k] {x : Fin n → CPoint N} {c : Fin k → CPoint N}
  {RAND_MAX : Nat} {rand : Nat → Nat} {m_numClusters : Nat} {members : Members N}
  {s s' : Machine N ω}

theorem length_taskObjects (size j : Nat) : (taskObjects size j).length = 12 := by
  rw [taskObjects, List.length_mapIdx, length_makeTasks]

theorem running_reachable {m_vpnts : List (CPoint N)}
    (reached : Reachable (schedules m_vpnts RAND_MAX rand m_numClusters members) s) :
    s.pool.m_isRunning = true := by
  induction reached with
  | init start => exact start.1.m_isRunning
  | step _ move ih =>
      cases move.2 with
      | work w work => exact work.closing.2.trans ih
      | main main =>
          cases main with
          | addTask _ _ call _ | notifyOne _ call | callWait _ _ call _ | waitReturns _ call =>
              exact call.closing.2.trans ih
          | _ => exact ih

theorem Work.vars {m_vpnts : List (CPoint N)} {pool pool' : Pool TaskObject ω Unit Nat}
    {vars vars' : LoopState N} {w : ω} (work : pool.Work (code m_vpnts) w vars pool' vars') :
    ∃ m_indexes, vars' = { vars with m_indexes } := by
  cases work with
  | execute _ act =>
      obtain ⟨_, m_indexes, _, _, rfl⟩ := act
      exact ⟨m_indexes, rfl⟩
  | _ => exact ⟨vars.m_indexes, rfl⟩

variable (seeds : kmeansPP RAND_MAX rand (List.ofFn x) m_numClusters members.m_centers =
  some (List.ofFn c)) (small : n < 2 ^ 32)
include seeds small

/-- The process does not end. -/
theorem alive_reachable
    (reached : Reachable (schedules (List.ofFn x) RAND_MAX rand m_numClusters members) s) :
    s.pool.terminated = false := by
  obtain ⟨m, here⟩ := at_reachable seeds small reached
  exact Pool.not_terminated (pool_reachable reached) here.nodup

omit [NeZero k] seeds small in
theorem m_tasks_le
    (reached : Reachable (schedules (List.ofFn x) RAND_MAX rand m_numClusters members) s) :
    s.m_tasks.length ≤ 12 := by
  obtain ⟨m, place⟩ := place_reachable reached
  rw [List.length_ofFn] at place
  cases at_s : s.point with
  | seed | createTasks | testCost | accumulate _ | update _ | group _ _ | returned _ =>
      rw [at_s] at place
      have none : s.m_tasks = [] := by
        first | exact place.2 | exact place.2.2
      rw [none]
      decide
  | resize | addTask _ | notifyOne _ | callWait _ | waitFor _ =>
      rw [at_s] at place
      have created : s.m_tasks = taskObjects n (m + 1) := by
        first | exact place.1.m_tasks | exact place.2.m_tasks
      rw [created, length_taskObjects]
  | clear =>
      rw [at_s] at place
      rw [place.2.1, length_taskObjects]

theorem bounded_reachable {turns : Nat} (ends : ∀ m, Entered x c members m → m ≤ turns)
    (reached : Reachable (schedules (List.ofFn x) RAND_MAX rand m_numClusters members) s) :
    Bounded turns k s := by
  induction reached with
  | @init s start =>
      obtain ⟨_, _, _, _, at_s⟩ := start
      refine ⟨?_, ?_, ?_, ?_⟩
      · rw [Machine.turn, at_s]
        exact Nat.zero_le turns
      · intro other
        exact absurd at_s other
      · intro i other
        simp [at_s] at other
      · intro i other
        simp [at_s] at other
  | @step s s' before move ih =>
      have twelve := m_tasks_le before
      obtain ⟨m, here⟩ := at_reachable seeds small before
      cases move.2 with
      | work w work =>
          obtain ⟨m_indexes, rfl⟩ := Work.vars work
          exact ⟨ih.turn, ih.m_centers, ih.notifying, ih.waiting⟩
      | main main =>
          cases main with
          | seed at_s seeded =>
              rw [at_s] at here
              rw [here.2.2.2.1, seeds, Option.some.injEq] at seeded
              refine ⟨Nat.zero_le turns, ?_, by simp, by simp⟩
              intro _
              simp [start, ← seeded]
          | goOn at_s goes =>
              rw [at_s] at here
              obtain ⟨_, entered, same, _⟩ := here
              have length := ih.m_centers (by simp [at_s])
              rw [same] at goes
              refine ⟨?_, fun _ => length, by simp, by simp⟩
              have more := ends _ (entered.next goes)
              rw [Machine.turn]
              simp only [same]
              exact more
          | update at_s _ turn =>
              have length := ih.m_centers (by simp [at_s])
              have less := ih.turn
              rw [Machine.turn, at_s] at less
              exact ⟨less, fun _ => (length_updateTurn turn).trans length, by simp, by simp⟩
          | addTask at_s there _ _ =>
              have inside := (List.getElem?_eq_some_iff.mp there).1.trans_le twelve
              have length := ih.m_centers (by simp [at_s])
              have less := ih.turn
              rw [Machine.turn, at_s] at less
              refine ⟨less, fun _ => length, ?_, by simp⟩
              intro j same
              cases same
              exact inside
          | callWait at_s there _ _ =>
              have inside := (List.getElem?_eq_some_iff.mp there).1.trans_le twelve
              have length := ih.m_centers (by simp [at_s])
              have less := ih.turn
              rw [Machine.turn, at_s] at less
              refine ⟨less, fun _ => length, by simp, ?_⟩
              intro j same
              cases same
              exact inside
          | createTasks at_s | resize at_s | notifyOne at_s _ | addedAll at_s _
          | waitReturns at_s _ | waitedForAll at_s _ | clear at_s | accumulate at_s _ _
          | accumulatedAll at_s _ | updatedAll at_s _ | leave at_s _ | group at_s _ _
          | returns at_s _ =>
              have length := ih.m_centers (by simp [at_s])
              have less := ih.turn
              rw [Machine.turn, at_s] at less
              exact ⟨less, fun _ => length, by simp, by simp⟩

/-! ## The next action -/

/-- The main thread waits for a task that no worker will execute: all are asleep. -/
structure Hangs (s : Machine N ω) : Prop where
  waits : ∃ i tsk, s.point = .waitFor i ∧ s.m_tasks[i]? = some tsk ∧ s.pool.ready tsk = false
  stored : s.pool.m_tasks.cells ≠ []
  asleep : ∀ w, s.pool.worker w = .blocked

def Returned (s : Machine N ω) : Prop := ∃ result, s.point = .returned result

omit [DecidableEq ω] seeds in
/-- While the main thread waits for a task, no `Execute` is stuck. -/
theorem executes_of_waiting {m i : Nat}
    (here : At x c members m s.pool s.vars s.m_tasks (.waitFor i)) (sound : s.pool.ledger.Sound) :
    Pool.CanExecute (code (List.ofFn x)) s.pool s.vars := by
  intro executing
  obtain ⟨w, e, tsk, b, at_w⟩ := executing
  refine ⟨w, e, tsk, b, at_w, ?_⟩
  obtain ⟨passing, _, added, _⟩ := here
  have holds : s.pool.ledger.hand w = some ⟨e, tsk, .executing⟩ := by
    simp only [Pool.ledger, at_w]
    rfl
  have member : tsk ∈ s.pool.added :=
    List.mem_of_getElem? (sound.added_of_task (sound.task_of_hand holds))
  rw [added] at member
  obtain ⟨lo, hi, _, fits, _, last⟩ := mem_makeTasks small (range_of_mem_history member)
  by_cases inside : b < toUnsigned tsk.range.m_end
  · obtain ⟨ys, turn⟩ := passing.assignTurn_defined (i := b) (by omega)
    exact Or.inr ⟨b + 1, _, inside, ys, turn, rfl, rfl⟩
  · exact Or.inl inside

omit [DecidableEq ω] seeds small in
/-- A task in `m_tasks` that is not ready is in the queue when all workers are asleep. -/
theorem stored_of_waiting {m i : Nat} {tsk : TaskObject}
    (here : At x c members m s.pool s.vars s.m_tasks (.waitFor i)) (sound : s.pool.ledger.Sound)
    (there : s.m_tasks[i]? = some tsk) (waits : s.pool.ready tsk = false)
    (asleep : ∀ w, s.pool.worker w = .blocked) : s.pool.m_tasks.cells ≠ [] := by
  intro empty
  obtain ⟨passing, _, added, _⟩ := here
  have member : tsk ∈ s.pool.added := by
    rw [added, history, ← passing.m_tasks]
    exact List.mem_append_right _ (List.mem_of_getElem? there)
  have free : ∀ w, s.pool.ledger.hand w = none := by
    intro w
    simp only [Pool.ledger, asleep w]
    rfl
  have ready : s.pool.ready tsk = true := sound.ready_of_idle empty free member
  simp [waits] at ready

/-- Until `Run` returns or hangs, the main thread or a worker that is not asleep can act. -/
theorem exists_action
    (reached : Reachable (schedules (List.ofFn x) RAND_MAX rand m_numClusters members) s)
    (unfinished : ¬ Returned s) (goes : ¬ Hangs s) :
    (∃ s', Main (List.ofFn x) RAND_MAX rand m_numClusters s s') ∨
      ∃ w pool vars, s.pool.worker w ≠ .blocked ∧
        s.pool.Work (code (List.ofFn x)) w s.vars pool vars := by
  have sound := Pool.sound_reachable (pool_reachable reached)
  obtain ⟨m, here⟩ := at_reachable seeds small reached
  cases at_s : s.point with
  | seed =>
      rw [at_s] at here
      rw [← here.2.2.2.1] at seeds
      exact Or.inl ⟨_, .seed at_s seeds⟩
  | testCost =>
      cases test : looping s.vars with
      | true => exact Or.inl ⟨_, .goOn at_s test⟩
      | false => exact Or.inl ⟨_, .leave at_s test⟩
  | createTasks => exact Or.inl ⟨_, .createTasks at_s⟩
  | resize => exact Or.inl ⟨_, .resize at_s⟩
  | addTask i =>
      rw [at_s] at here
      cases there : s.m_tasks[i]? with
      | none => exact Or.inl ⟨_, .addedAll at_s there⟩
      | some tsk =>
          exact Or.inl ⟨_, .addTask at_s there (.pushBack tsk here.2.1) rfl⟩
  | notifyOne i =>
      rw [at_s] at here
      obtain ⟨_, ⟨tsk, inside⟩, _⟩ := here
      by_cases asleep : ∃ w, s.pool.worker w = .blocked
      · obtain ⟨w, at_w⟩ := asleep
        exact Or.inl ⟨_, .notifyOne at_s (.notifyOne w inside at_w)⟩
      · exact Or.inl ⟨_, .notifyOne at_s (.notifyNobody inside (not_exists.mp asleep))⟩
  | callWait i =>
      rw [at_s] at here
      cases there : s.m_tasks[i]? with
      | none => exact Or.inl ⟨_, .waitedForAll at_s there⟩
      | some tsk =>
          exact Or.inl ⟨_, .callWait at_s there (.callWait tsk here.2.1) rfl⟩
  | waitFor i =>
      rw [at_s] at here
      obtain ⟨tsk, there, inside⟩ := here.2.1
      cases ready : s.pool.ready tsk with
      | true => exact Or.inl ⟨_, .waitReturns at_s (.waitReturns inside ready)⟩
      | false =>
          rw [← here.1.m_tasks] at there
          have awake : ∃ w, s.pool.worker w ≠ .blocked := by
            by_contra none
            have asleep : ∀ w, s.pool.worker w = .blocked := fun w => by
              by_contra awake
              exact none ⟨w, awake⟩
            exact goes ⟨⟨i, tsk, at_s, there, ready⟩,
              stored_of_waiting here sound there ready asleep, asleep⟩
          obtain ⟨w, awake⟩ := awake
          have unfinished : s.pool.worker w ≠ .finished := by
            intro finished
            cases Pool.running_of_reachable (pool_reachable reached) finished with
            | inl stopped => simp [running_reachable reached] at stopped
            | inr dead => simp [alive_reachable seeds small reached] at dead
          obtain ⟨v, pool, vars, awake', work⟩ := Pool.exists_work
            (Pool.owned_of_reachable (pool_reachable reached))
            (executes_of_waiting small here sound) awake unfinished
          exact Or.inr ⟨v, pool, vars, awake', work⟩
  | clear => exact Or.inl ⟨_, .clear at_s⟩
  | accumulate i =>
      rw [at_s] at here
      obtain ⟨_, _, _, rest, _⟩ := here
      by_cases inside : i < (List.ofFn x).length
      · rw [accumulated, forLoop_cons inside] at rest
        obtain ⟨_, loop, _⟩ := Option.bind_eq_some_iff.mp rest
        obtain ⟨⟨V, accumulator, numPoints⟩, turn, _⟩ := Option.bind_eq_some_iff.mp loop
        exact Or.inl ⟨_, .accumulate at_s inside turn⟩
      · exact Or.inl ⟨_, .accumulatedAll at_s inside⟩
  | update i =>
      rw [at_s] at here
      obtain ⟨_, _, _, rest, _⟩ := here
      by_cases inside : i < s.vars.m_centers.length
      · rw [recentered, forLoop_cons inside] at rest
        obtain ⟨_, loop, _⟩ := Option.bind_eq_some_iff.mp rest
        obtain ⟨⟨m_centers, numPoints, accumulator⟩, turn, _⟩ := Option.bind_eq_some_iff.mp loop
        exact Or.inl ⟨_, .update at_s inside turn⟩
      · exact Or.inl ⟨_, .updatedAll at_s inside⟩
  | group i result =>
      rw [at_s] at here
      obtain ⟨_, _, ⟨stops, same⟩, _, rest⟩ := here
      by_cases inside : i < (List.ofFn x).length
      · have inside' : i < n := by rwa [List.length_ofFn] at inside
        cases m with
        | zero =>
            rw [looping_trace_zero] at stops
            cases stops
        | succ m =>
            rw [same, trace, storedIndexes, group_eq, forLoop_cons inside'] at rest
            obtain ⟨result', turn, _⟩ := Option.bind_eq_some_iff.mp rest
            have turn' : groupTurn (List.ofFn x) s.vars.m_indexes i result = some result' := by
              rw [same]
              exact turn
            exact Or.inl ⟨_, .group at_s inside turn'⟩
      · exact Or.inl ⟨_, .returns at_s inside⟩
  | returned result => exact absurd ⟨result, at_s⟩ unfinished

end Schedules

/-! ## Without spurious wake-ups -/

section Prompted

variable [DecidableEq ω] (m_vpnts : List (CPoint N)) (RAND_MAX : Nat) (rand : Nat → Nat)
  (m_numClusters : Nat)

/-- One action of the main thread, or of a worker that is not asleep. -/
inductive Prompted : Machine N ω → Machine N ω → Prop
  | main {s s'} : Main m_vpnts RAND_MAX rand m_numClusters s s' → Prompted s s'
  | work {s pool vars} (w : ω) : s.pool.worker w ≠ .blocked →
      s.pool.Work (code m_vpnts) w s.vars pool vars → Prompted s { s with pool, vars }

/-- The interleavings in which no worker wakes up spuriously any more, whatever has happened
    before. -/
def prompted (members : Members N) : System (Machine N ω) where
  init := Reachable (schedules m_vpnts RAND_MAX rand m_numClusters members)
  step s s' := s.pool.terminated = false ∧ Prompted m_vpnts RAND_MAX rand m_numClusters s s'

variable {m_vpnts RAND_MAX rand m_numClusters} {members : Members N} {s s' : Machine N ω}

theorem Prompted.step (step : Prompted m_vpnts RAND_MAX rand m_numClusters s s') :
    Step m_vpnts RAND_MAX rand m_numClusters s s' := by
  cases step with
  | main main => exact .main main
  | work w _ work => exact .work w work

theorem reachable_of_prompted
    (reached : Reachable (prompted m_vpnts RAND_MAX rand m_numClusters members) s) :
    Reachable (schedules m_vpnts RAND_MAX rand m_numClusters members) s := by
  induction reached with
  | init before => exact before
  | step _ move ih => exact ih.step ⟨move.1, move.2.step⟩

theorem path_of_prompted (path : Relation.ReflTransGen
      (prompted (ω := ω) m_vpnts RAND_MAX rand m_numClusters members).step s s') :
    Relation.ReflTransGen (schedules m_vpnts RAND_MAX rand m_numClusters members).step s s' := by
  induction path with
  | refl => exact .refl
  | tail _ move ih => exact ih.tail ⟨move.1, move.2.step⟩

end Prompted

section Schedules

variable [DecidableEq ω] {n k : Nat} [NeZero k] {x : Fin n → CPoint N} {c : Fin k → CPoint N}
  {RAND_MAX : Nat} {rand : Nat → Nat} {m_numClusters : Nat} {members : Members N}
  {s : Machine N ω}

/-- Until `Run` returns or hangs, some action is possible that is no spurious wake-up. -/
theorem exists_prompted
    (seeds : kmeansPP RAND_MAX rand (List.ofFn x) m_numClusters members.m_centers =
      some (List.ofFn c)) (small : n < 2 ^ 32)
    (reached : Reachable (prompted (List.ofFn x) RAND_MAX rand m_numClusters members) s)
    (more : ¬ (Returned s ∨ Hangs s)) :
    ∃ s', (prompted (List.ofFn x) RAND_MAX rand m_numClusters members).step s s' := by
  have before := reachable_of_prompted reached
  have alive := alive_reachable seeds small before
  have unfinished : ¬ Returned s := fun returned => more (Or.inl returned)
  have goes : ¬ Hangs s := fun hangs => more (Or.inr hangs)
  cases exists_action seeds small before unfinished goes with
  | inl main =>
      obtain ⟨s', main⟩ := main
      exact ⟨s', alive, .main main⟩
  | inr work =>
      obtain ⟨w, pool, vars, awake, work⟩ := work
      exact ⟨_, alive, .work w awake work⟩

end Schedules

end KMeans.multiThread
