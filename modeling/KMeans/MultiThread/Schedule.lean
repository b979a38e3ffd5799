import KMeans.MultiThread.KmeansMultiThread
import KMeans.Threadsafe.TaskLedger

/-! # `multiThread::CKmeans` on its pool

`Run` with its threads: the main thread and the workers of `m_pool`. One action of the
main thread is one statement, one turn of a loop, or one of the actions that `AddTask`
and `Wait` consist of; one action of a worker is one of `workThread`, and in `Execute`
the assignment of one point. Only the seeding is a single action, as no task exists yet.
-/

namespace KMeans.multiThread

open Loops Arrays Transition

variable {N : Nat} {ω : Type}

/-- A `CKMTask` object: the iteration that creates it, its place in `m_tasks`, its range. -/
structure TaskObject where
  iteration : Nat
  number : Nat
  range : CKMTask
  deriving DecidableEq

/-- The objects that an iteration puts into `m_tasks`. -/
def taskObjects (size numIterations : Nat) : List TaskObject :=
  (makeTasks size).mapIdx fun i range => ⟨numIterations, i, range⟩

/-- `m_indexes[i]` is `findNearest(m_vpnts[i], m_centers)` for every point. -/
def Assigned (m_vpnts : List (CPoint N)) (s : LoopState N) : Prop :=
  ∀ (i : Nat) (pnt : CPoint N), m_vpnts[i]? = some pnt → ∃ min_i dist2,
    findNearest pnt s.m_centers = some (min_i, dist2) ∧ s.m_indexes[i]? = some min_i

/-- `CKMTask::Execute`, one turn of its loop at a time; its variable is the counter. -/
def code (m_vpnts : List (CPoint N)) : TaskCode TaskObject (LoopState N) Nat where
  start tsk := toUnsigned tsk.range.m_begin
  act tsk i s i' s' := i < toUnsigned tsk.range.m_end ∧ ∃ m_indexes,
    assignTurn m_vpnts s.m_centers i s.m_indexes = some m_indexes ∧
      i' = i + 1 ∧ s' = { s with m_indexes }
  returns tsk i _ := ¬ i < toUnsigned tsk.range.m_end

/-- What the main thread does next. -/
inductive Point (N : Nat)
  /-- `kmeansPP(m_vpnts, m_numClusters, m_centers)` -/
  | seed
  /-- `while (V != oldV)` -/
  | testCost
  /-- The calls of `m_tasks.push_back` -/
  | createTasks
  /-- `m_indexes.resize(m_vpnts.size())` -/
  | resize
  /-- `m_pool.AddTask(m_tasks[i].get())` -/
  | addTask (i : Nat)
  /-- Inside of that call, after `push_back` -/
  | notifyOne (i : Nat)
  /-- `m_tasks[i]->Wait()` -/
  | callWait (i : Nat)
  /-- Inside of that call -/
  | waitFor (i : Nat)
  /-- `m_tasks.clear()`: `makeClusters` has just returned. -/
  | clear
  /-- Turn `i` of the loop in `accumulate` -/
  | accumulate (i : Nat)
  /-- Turn `i` of the loop that recomputes the centers -/
  | update (i : Nat)
  /-- Turn `i` of the grouping loop -/
  | group (i : Nat) (result : List (CPoint N × List (CPoint N)))
  /-- `Run` has returned. -/
  | returned (result : List (CPoint N × List (CPoint N)))

/-- The pool, the variables that the tasks share with the main thread, and the main thread,
    whose place inside of `AddTask` and `Wait` is `pool.caller ()`. -/
structure Machine (N : Nat) (ω : Type) where
  pool : Pool TaskObject ω Unit Nat
  vars : LoopState N
  m_tasks : List TaskObject
  point : Point N

section Steps

variable [DecidableEq ω] (m_vpnts : List (CPoint N)) (RAND_MAX : Nat) (rand : Nat → Nat)
  (m_numClusters : Nat)

/-- The actions of the main thread. -/
inductive Main : Machine N ω → Machine N ω → Prop
  | seed {s m_centers} : s.point = .seed →
      kmeansPP RAND_MAX rand m_vpnts m_numClusters s.vars.m_centers = some m_centers →
      Main s { s with vars := start m_centers s.vars.m_indexes, point := .testCost }
  | goOn {s} : s.point = .testCost → looping s.vars = true →
      Main s { s with
        vars := { s.vars with
          oldV := s.vars.V
          V := 0
          numIterations := s.vars.numIterations + 1 }
        point := .createTasks }
  | createTasks {s} : s.point = .createTasks →
      Main s { s with
        m_tasks := s.m_tasks ++ taskObjects m_vpnts.length s.vars.numIterations
        point := .resize }
  | resize {s} : s.point = .resize →
      Main s { s with
        vars := { s.vars with m_indexes := grow s.vars.m_indexes m_vpnts.length 0 }
        point := .addTask 0 }
  | addTask {s i tsk pool} : s.point = .addTask i → s.m_tasks[i]? = some tsk →
      s.pool.Call () pool → pool.caller () = .notifyOne tsk →
      Main s { s with pool, point := .notifyOne i }
  | notifyOne {s i pool} : s.point = .notifyOne i → s.pool.Call () pool →
      Main s { s with pool, point := .addTask (i + 1) }
  | addedAll {s i} : s.point = .addTask i → s.m_tasks[i]? = none →
      Main s { s with point := .callWait 0 }
  | callWait {s i tsk pool} : s.point = .callWait i → s.m_tasks[i]? = some tsk →
      s.pool.Call () pool → pool.caller () = .waitFor tsk →
      Main s { s with pool, point := .waitFor i }
  | waitReturns {s i pool} : s.point = .waitFor i → s.pool.Call () pool →
      Main s { s with pool, point := .callWait (i + 1) }
  | waitedForAll {s i} : s.point = .callWait i → s.m_tasks[i]? = none →
      Main s { s with point := .clear }
  | clear {s} : s.point = .clear → Main s { s with m_tasks := [], point := .accumulate 0 }
  | accumulate {s i V accumulator numPoints} : s.point = .accumulate i → i < m_vpnts.length →
      accumulateTurn m_vpnts s.vars.m_centers s.vars.m_indexes i
        (s.vars.V, s.vars.accumulator, s.vars.numPoints) = some (V, accumulator, numPoints) →
      Main s { s with vars := { s.vars with V, accumulator, numPoints }, point := .accumulate (i + 1) }
  | accumulatedAll {s i} : s.point = .accumulate i → ¬ i < m_vpnts.length →
      Main s { s with point := .update 0 }
  | update {s i m_centers numPoints accumulator} : s.point = .update i →
      i < s.vars.m_centers.length →
      updateTurn i (s.vars.m_centers, s.vars.numPoints, s.vars.accumulator) =
        some (m_centers, numPoints, accumulator) →
      Main s { s with
        vars := { s.vars with m_centers, numPoints, accumulator }
        point := .update (i + 1) }
  | updatedAll {s i} : s.point = .update i → ¬ i < s.vars.m_centers.length →
      Main s { s with point := .testCost }
  | leave {s} : s.point = .testCost → looping s.vars = false →
      Main s { s with point := .group 0 (s.vars.m_centers.map fun e => (e, [])) }
  | group {s i result result'} : s.point = .group i result → i < m_vpnts.length →
      groupTurn m_vpnts s.vars.m_indexes i result = some result' →
      Main s { s with point := .group (i + 1) result' }
  | returns {s i result} : s.point = .group i result → ¬ i < m_vpnts.length →
      Main s { s with point := .returned result }

/-- One action of the main thread or of a worker. -/
inductive Step : Machine N ω → Machine N ω → Prop
  | main {s s'} : Main m_vpnts RAND_MAX rand m_numClusters s s' → Step s s'
  | work {s pool vars} (w : ω) : s.pool.Work (code m_vpnts) w s.vars pool vars →
      Step s { s with pool, vars }

/-- All interleavings in a call of `Run` on an object with the given `members` and an
    idle pool, until the process terminates. -/
def schedules (members : Members N) : System (Machine N ω) where
  init s := s.pool.Idle ∧ s.vars.m_indexes = members.m_indexes ∧
    s.vars.m_centers = members.m_centers ∧ s.m_tasks = [] ∧ s.point = .seed
  step s s' := s.pool.terminated = false ∧ Step m_vpnts RAND_MAX rand m_numClusters s s'

end Steps

end KMeans.multiThread
