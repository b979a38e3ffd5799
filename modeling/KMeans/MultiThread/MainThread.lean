import KMeans.MultiThread.Barrier

/-! # The main thread

Every interleaving of the workers with the main thread goes through the states of the
sequential loop: between the passes the variables are those of the sequential loop
between its iterations, and what is left of an iteration after a pass is what is left
of the sequential one.
-/

namespace KMeans.multiThread

open Loops Arrays Lloyd Transition

variable {N : Nat} {ω : Type}

section Invariant

variable {n k : Nat} [NeZero k] (x : Fin n → CPoint N) (c : Fin k → CPoint N) (members : Members N)

/-- The sequential loop makes at least `m` iterations. -/
def Entered (m : Nat) : Prop := ∀ l < m, looping (trace x c members.m_indexes l) = true

/-- In the pass of iteration `m + 1`. -/
structure Passing (m : Nat) (pool : Pool TaskObject ω Unit Nat) (vars : LoopState N)
    (m_tasks : List TaskObject) : Prop where
  entered : Entered x c members (m + 1)
  m_tasks : m_tasks = taskObjects n (m + 1)
  ready : ∀ tsk ∈ history n m, pool.ready tsk = true
  assigning : ∃ s, Assigning x c members.m_indexes m pool vars s

/-- What holds at the program points of the main thread when `m` passes have returned. -/
def At (m : Nat) (pool : Pool TaskObject ω Unit Nat) (vars : LoopState N)
    (m_tasks : List TaskObject) : Point N → Prop
  | .seed => Settled n m pool ∧ m = 0 ∧ vars.m_indexes = members.m_indexes ∧
      vars.m_centers = members.m_centers ∧ m_tasks = []
  | .testCost => Settled n m pool ∧ Entered x c members m ∧
      vars = trace x c members.m_indexes m ∧ m_tasks = []
  | .createTasks => Settled n m pool ∧ Entered x c members (m + 1) ∧
      vars = (trace x c members.m_indexes m).begun ∧ m_tasks = []
  | .resize => Settled n m pool ∧ Entered x c members (m + 1) ∧
      vars = (trace x c members.m_indexes m).begun ∧ m_tasks = taskObjects n (m + 1)
  | .addTask i => Passing x c members m pool vars m_tasks ∧ pool.caller () = .outside ∧
      pool.added = history n m ++ (taskObjects n (m + 1)).take i
  | .notifyOne i => Passing x c members m pool vars m_tasks ∧
      (∃ tsk, pool.caller () = .notifyOne tsk) ∧
      pool.added = history n m ++ (taskObjects n (m + 1)).take (i + 1)
  | .callWait i => Passing x c members m pool vars m_tasks ∧ pool.caller () = .outside ∧
      pool.added = history n (m + 1) ∧
      ∀ tsk ∈ (taskObjects n (m + 1)).take i, pool.ready tsk = true
  | .waitFor i => Passing x c members m pool vars m_tasks ∧
      (∃ tsk, (taskObjects n (m + 1))[i]? = some tsk ∧ pool.caller () = .waitFor tsk) ∧
      pool.added = history n (m + 1) ∧
      ∀ tsk ∈ (taskObjects n (m + 1)).take i, pool.ready tsk = true
  | .clear => Settled n m pool ∧ Entered x c members m ∧ Assigned (List.ofFn x) vars ∧
      accumulated (List.ofFn x) vars 0 = some (trace x c members.m_indexes m)
  | .accumulate i => Settled n m pool ∧ Entered x c members m ∧ i ≤ n ∧
      accumulated (List.ofFn x) vars i = some (trace x c members.m_indexes m) ∧ m_tasks = []
  | .update i => Settled n m pool ∧ Entered x c members m ∧ i ≤ vars.m_centers.length ∧
      recentered vars i = some (trace x c members.m_indexes m) ∧ m_tasks = []
  | .group i result => Settled n m pool ∧ Entered x c members m ∧
      (looping (trace x c members.m_indexes m) = false ∧ vars = trace x c members.m_indexes m) ∧
      i ≤ n ∧ forLoop i n result (groupTurn (List.ofFn x) vars.m_indexes) =
        group (List.ofFn x) vars.m_centers vars.m_indexes
  | .returned result => Settled n m pool ∧ Entered x c members m ∧
      (looping (trace x c members.m_indexes m) = false ∧ vars = trace x c members.m_indexes m) ∧
      group (List.ofFn x) vars.m_centers vars.m_indexes = some result

variable {x c members} [DecidableEq ω] {m : Nat} {pool pool' : Pool TaskObject ω Unit Nat}
  {vars vars' : LoopState N} {m_tasks : List TaskObject}

/-! ## The workers -/

theorem Passing.work (passing : Passing x c members m pool vars m_tasks)
    (sound : pool.ledger.Sound) {w : ω}
    (work : pool.Work (code (List.ofFn x)) w vars pool' vars') :
    Passing x c members m pool' vars' m_tasks := by
  obtain ⟨s, assigning⟩ := passing.assigning
  exact ⟨passing.entered, passing.m_tasks, fun tsk member => work.ready (passing.ready tsk member),
    assigning.work sound work⟩

theorem At.work {point : Point N} (here : At x c members m pool vars m_tasks point)
    (sound : pool.ledger.Sound) {w : ω}
    (work : pool.Work (code (List.ofFn x)) w vars pool' vars') :
    At x c members m pool' vars' m_tasks point := by
  cases point with
  | seed | testCost | createTasks | resize | clear | accumulate _ | update _ | group _ _
  | returned _ =>
      obtain ⟨settled, rest⟩ := here
      obtain ⟨settled, rfl⟩ := settled.work sound work
      exact ⟨settled, rest⟩
  | addTask _ => exact ⟨here.1.work sound work, Adding.work work here.2⟩
  | notifyOne _ => exact ⟨here.1.work sound work, Notifying.work work here.2⟩
  | callWait _ => exact ⟨here.1.work sound work, Waiting.work work here.2⟩
  | waitFor _ => exact ⟨here.1.work sound work, InWait.work work here.2⟩

/-! ## The main thread -/

theorem Passing.call (passing : Passing x c members m pool vars m_tasks)
    (call : pool.Call () pool') : Passing x c members m pool' vars m_tasks := by
  obtain ⟨s, assigning⟩ := passing.assigning
  exact ⟨passing.entered, passing.m_tasks,
    fun tsk member => by rw [call.ready, passing.ready tsk member], s, assigning.call call⟩

omit [DecidableEq ω] in
theorem Passing.numIterations (passing : Passing x c members m pool vars m_tasks) :
    vars.numIterations = m + 1 := by
  obtain ⟨s, assigning⟩ := passing.assigning
  obtain ⟨m_indexes, rfl, -⟩ := assigning.vars
  rfl

omit [DecidableEq ω] in
theorem Passing.m_tasks_eq (passing : Passing x c members m pool vars m_tasks) :
    m_tasks = taskObjects n vars.numIterations := by
  rw [passing.m_tasks, passing.numIterations]

omit [DecidableEq ω] in
/-- During a pass no access of a task is out of range. -/
theorem Passing.assignTurn_defined (passing : Passing x c members m pool vars m_tasks) {i : Nat}
    (inside : i < n) : ∃ ys, assignTurn (List.ofFn x) vars.m_centers i vars.m_indexes = some ys := by
  obtain ⟨s, assigning⟩ := passing.assigning
  obtain ⟨m_indexes, rfl, length, -⟩ := assigning.vars
  rw [length_grow] at length
  exact ⟨_, assignTurn_stored x (centers CPoint.normSq x id c m) inside (by simp only; omega)⟩

omit [DecidableEq ω] in
theorem At.nodup {point : Point N} (here : At x c members m pool vars m_tasks point) :
    pool.added.Nodup := by
  cases point with
  | seed | testCost | createTasks | resize | clear | accumulate _ | update _ | group _ _
  | returned _ =>
      rw [here.1.added]
      exact nodup_history n m
  | addTask _ => exact Adding.nodup here.2
  | notifyOne _ => exact Notifying.nodup here.2
  | callWait _ => exact Waiting.nodup here.2
  | waitFor _ => exact InWait.nodup here.2

/-! ### Its actions during a pass -/

theorem At.push {i : Nat} {tsk : TaskObject}
    (here : At x c members m pool vars m_tasks (.addTask i)) (there : m_tasks[i]? = some tsk)
    (call : pool.Call () pool') (after : pool'.caller () = .notifyOne tsk) :
    At x c members m pool' vars m_tasks (.notifyOne i) := by
  obtain ⟨passing, adding⟩ := here
  rw [passing.m_tasks] at there
  exact ⟨passing.call call, Adding.push adding there call after⟩

theorem At.notify {i : Nat} (here : At x c members m pool vars m_tasks (.notifyOne i))
    (call : pool.Call () pool') : At x c members m pool' vars m_tasks (.addTask (i + 1)) :=
  ⟨here.1.call call, Notifying.notify here.2 call⟩

omit [DecidableEq ω] in
theorem At.addedAll {i : Nat} (here : At x c members m pool vars m_tasks (.addTask i))
    (none : m_tasks[i]? = none) : At x c members m pool vars m_tasks (.callWait 0) := by
  obtain ⟨passing, adding⟩ := here
  rw [passing.m_tasks] at none
  exact ⟨passing, Adding.all adding none⟩

theorem At.callWait {i : Nat} {tsk : TaskObject}
    (here : At x c members m pool vars m_tasks (.callWait i)) (there : m_tasks[i]? = some tsk)
    (call : pool.Call () pool') (after : pool'.caller () = .waitFor tsk) :
    At x c members m pool' vars m_tasks (.waitFor i) := by
  obtain ⟨passing, waiting⟩ := here
  rw [passing.m_tasks] at there
  exact ⟨passing.call call, Waiting.call waiting there call after⟩

theorem At.waitReturns {i : Nat} (here : At x c members m pool vars m_tasks (.waitFor i))
    (call : pool.Call () pool') : At x c members m pool' vars m_tasks (.callWait (i + 1)) :=
  ⟨here.1.call call, InWait.returns here.2 call⟩

omit [DecidableEq ω] in
/-- The barrier: when the last `Wait` has returned, the variables are those that the
    sequential pass leaves. -/
theorem At.waitedForAll {i : Nat} (here : At x c members m pool vars m_tasks (.callWait i))
    (none : m_tasks[i]? = none) (sound : pool.ledger.Sound) (small : n < 2 ^ 32) :
    At x c members (m + 1) pool vars m_tasks .clear := by
  obtain ⟨passing, waiting⟩ := here
  rw [passing.m_tasks] at none
  have settled : Settled n (m + 1) pool := Waiting.settled waiting none passing.ready
  obtain ⟨s, assigning⟩ := passing.assigning
  obtain rfl := assigning.tiled sound small fun tsk member =>
    settled.ready tsk (List.mem_append_right _ member)
  refine ⟨settled, passing.entered, ?_⟩
  rw [assigning.eq_listing]
  exact ⟨assigned_trace m, accumulated_trace m⟩

/-! ### All of its actions -/

theorem Entered.next (entered : Entered x c members m)
    (goes : looping (trace x c members.m_indexes m) = true) : Entered x c members (m + 1) := by
  intro l lt
  rcases Nat.lt_succ_iff_lt_or_eq.mp lt with earlier | rfl
  · exact entered l earlier
  · exact goes

theorem Main.at {RAND_MAX : Nat} {rand : Nat → Nat} {m_numClusters : Nat} {s s' : Machine N ω}
    (main : Main (List.ofFn x) RAND_MAX rand m_numClusters s s')
    (seeds : kmeansPP RAND_MAX rand (List.ofFn x) m_numClusters members.m_centers =
      some (List.ofFn c)) (small : n < 2 ^ 32) (sound : s.pool.ledger.Sound)
    (here : At x c members m s.pool s.vars s.m_tasks s.point) :
    ∃ m', At x c members m' s'.pool s'.vars s'.m_tasks s'.point := by
  cases main with
  | seed at_s seeded =>
      rw [at_s] at here
      obtain ⟨settled, rfl, old, kept, none⟩ := here
      rw [kept, seeds, Option.some.injEq] at seeded
      refine ⟨0, settled, fun l lt => absurd lt (Nat.not_lt_zero l), ?_, none⟩
      rw [← seeded, old]
      exact start_eq x c members.m_indexes
  | goOn at_s goes =>
      rw [at_s] at here
      obtain ⟨settled, entered, same, none⟩ := here
      rw [same] at goes
      refine ⟨m, settled, entered.next goes, ?_, none⟩
      rw [← same]
      rfl
  | createTasks at_s =>
      rw [at_s] at here
      obtain ⟨settled, entered, same, none⟩ := here
      refine ⟨m, settled, entered, same, ?_⟩
      rw [none, same, List.length_ofFn]
      rfl
  | resize at_s =>
      rw [at_s] at here
      obtain ⟨settled, entered, same, created⟩ := here
      refine ⟨m, ⟨entered, created, settled.ready, ∅, ?_⟩, settled.adding⟩
      rw [same, List.length_ofFn]
      exact settled.assigning sound
  | addTask at_s there call after =>
      rw [at_s] at here
      exact ⟨m, here.push there call after⟩
  | notifyOne at_s call =>
      rw [at_s] at here
      exact ⟨m, here.notify call⟩
  | addedAll at_s none =>
      rw [at_s] at here
      exact ⟨m, here.addedAll none⟩
  | callWait at_s there call after =>
      rw [at_s] at here
      exact ⟨m, here.callWait there call after⟩
  | waitReturns at_s call =>
      rw [at_s] at here
      exact ⟨m, here.waitReturns call⟩
  | waitedForAll at_s none =>
      rw [at_s] at here
      exact ⟨m + 1, here.waitedForAll none sound small⟩
  | clear at_s =>
      rw [at_s] at here
      obtain ⟨settled, entered, -, rest⟩ := here
      exact ⟨m, settled, entered, Nat.zero_le n, rest, rfl⟩
  | accumulate at_s inside turn =>
      rw [at_s] at here
      obtain ⟨settled, entered, -, rest, none⟩ := here
      have next := (accumulated_turn inside turn).trans rest
      rw [List.length_ofFn] at inside
      exact ⟨m, settled, entered, inside, next, none⟩
  | accumulatedAll at_s done =>
      rw [at_s] at here
      obtain ⟨settled, entered, le, rest, none⟩ := here
      rw [List.length_ofFn] at done
      obtain rfl := le.antisymm (not_lt.mp done)
      have last := accumulated_length (List.ofFn x) s.vars
      rw [List.length_ofFn] at last
      exact ⟨m, settled, entered, Nat.zero_le _, last.symm.trans rest, none⟩
  | update at_s inside turn =>
      rw [at_s] at here
      obtain ⟨settled, entered, -, rest, none⟩ := here
      refine ⟨m, settled, entered, ?_, (recentered_turn inside turn).trans rest, none⟩
      exact (Nat.succ_le_of_lt inside).trans_eq (length_updateTurn turn).symm
  | updatedAll at_s done =>
      rw [at_s] at here
      obtain ⟨settled, entered, le, rest, none⟩ := here
      rw [le.antisymm (not_lt.mp done), recentered_length, Option.some.injEq] at rest
      exact ⟨m, settled, entered, rest, none⟩
  | leave at_s stops =>
      rw [at_s] at here
      obtain ⟨settled, entered, same, -⟩ := here
      rw [same] at stops
      refine ⟨m, settled, entered, ⟨stops, same⟩, Nat.zero_le n, ?_⟩
      rw [KMeans.group, List.length_ofFn]
  | group at_s inside turn =>
      rw [at_s] at here
      obtain ⟨settled, entered, left, -, run⟩ := here
      rw [List.length_ofFn] at inside
      refine ⟨m, settled, entered, left, inside, ?_⟩
      rw [← run, forLoop_cons inside, turn]
      rfl
  | returns at_s done =>
      rw [at_s] at here
      obtain ⟨settled, entered, left, le, run⟩ := here
      rw [List.length_ofFn] at done
      obtain rfl := le.antisymm (not_lt.mp done)
      rw [forLoop_empty] at run
      exact ⟨m, settled, entered, left, run.symm⟩

end Invariant

/-! ## All interleavings -/

section Schedules

variable [DecidableEq ω] {m_vpnts : List (CPoint N)} {RAND_MAX : Nat} {rand : Nat → Nat}
  {m_numClusters : Nat} {members : Members N} {s s' : Machine N ω}

theorem Main.pool_step (main : Main m_vpnts RAND_MAX rand m_numClusters s s') :
    Pool.Step (code m_vpnts) (s.pool, s.vars) (s'.pool, s'.vars) := by
  cases main with
  | addTask _ _ call _ | notifyOne _ call | callWait _ _ call _ | waitReturns _ call =>
      exact .call call
  | _ => exact .outside

/-- The pool of `Run` is a pool, whose books are therefore sound. -/
theorem pool_reachable (reached :
    Reachable (schedules m_vpnts RAND_MAX rand m_numClusters members) s) :
    Reachable (Pool.system (code m_vpnts)) (s.pool, s.vars) := by
  refine reached.image (A := Pool.system (code m_vpnts)) (fun s => (s.pool, s.vars)) ?_ ?_
  · exact fun s start => start.1
  · rintro s s' ⟨running, step⟩
    cases step with
    | main main => exact Or.inr ⟨running, main.pool_step⟩
    | work w work => exact Or.inr ⟨running, .work work⟩

theorem at_reachable {n k : Nat} [NeZero k] {x : Fin n → CPoint N} {c : Fin k → CPoint N}
    (seeds : kmeansPP RAND_MAX rand (List.ofFn x) m_numClusters members.m_centers =
      some (List.ofFn c)) (small : n < 2 ^ 32)
    (reached : Reachable (schedules (List.ofFn x) RAND_MAX rand m_numClusters members) s) :
    ∃ m, At x c members m s.pool s.vars s.m_tasks s.point := by
  induction reached with
  | @init s start =>
      obtain ⟨idle, old, kept, none, at_s⟩ := start
      rw [at_s]
      refine ⟨0, ⟨idle.added, fun tsk member => ?_, idle.caller ()⟩, rfl, old, kept, none⟩
      exact absurd member List.not_mem_nil
  | step before move ih =>
      have sound := Pool.sound_reachable (pool_reachable before)
      obtain ⟨m, here⟩ := ih
      cases move.2 with
      | main main => exact main.at seeds small sound here
      | work w work => exact ⟨m, here.work sound work⟩

end Schedules

end KMeans.multiThread
