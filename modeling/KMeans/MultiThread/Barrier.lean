import KMeans.General.Transition
import KMeans.MultiThread.Schedule

/-! # The assignment passes on the pool

Outside of a pass all tasks are done, so the workers have nothing in hand and the main
thread is alone with the variables. During a pass the tasks overwrite `m_indexes` with
the nearest centers, and the last `Wait` returns when no cell is left.
-/

namespace KMeans.multiThread

open Loops Arrays Lloyd Transition

variable {N : Nat} {ω : Type}

/-! ## The tasks of the iterations -/

theorem mem_taskObjects {size j : Nat} {tsk : TaskObject} (member : tsk ∈ taskObjects size j) :
    tsk.iteration = j ∧ tsk.range ∈ makeTasks size := by
  obtain ⟨i, inside, rfl⟩ := List.mem_mapIdx.mp member
  exact ⟨rfl, List.getElem_mem inside⟩

theorem exists_taskObject {size : Nat} (j : Nat) {task : CKMTask} (member : task ∈ makeTasks size) :
    ∃ tsk ∈ taskObjects size j, tsk.range = task := by
  obtain ⟨i, inside, rfl⟩ := List.getElem_of_mem member
  exact ⟨_, List.mem_mapIdx.mpr ⟨i, inside, rfl⟩, rfl⟩

theorem nodup_taskObjects (size j : Nat) : (taskObjects size j).Nodup := by
  have numbers : (taskObjects size j).map TaskObject.number =
      List.range (makeTasks size).length := by
    apply List.ext_getElem <;> simp [taskObjects]
  exact List.Nodup.of_map TaskObject.number (numbers ▸ List.nodup_range)

/-- The tasks of the first `m` iterations. -/
def history (size : Nat) : Nat → List TaskObject
  | 0 => []
  | m + 1 => history size m ++ taskObjects size (m + 1)

theorem iteration_le_of_mem_history {size m : Nat} {tsk : TaskObject}
    (member : tsk ∈ history size m) : tsk.iteration ≤ m := by
  induction m with
  | zero => exact absurd member List.not_mem_nil
  | succ m ih =>
      rcases List.mem_append.mp member with earlier | last
      · exact (ih earlier).trans (Nat.le_succ m)
      · exact (mem_taskObjects last).1.le

theorem range_of_mem_history {size m : Nat} {tsk : TaskObject} (member : tsk ∈ history size m) :
    tsk.range ∈ makeTasks size := by
  induction m with
  | zero => exact absurd member List.not_mem_nil
  | succ m ih =>
      cases List.mem_append.mp member with
      | inl earlier => exact ih earlier
      | inr last => exact (mem_taskObjects last).2

theorem nodup_history (size m : Nat) : (history size m).Nodup := by
  induction m with
  | zero => exact List.nodup_nil
  | succ m ih =>
      refine ih.append (nodup_taskObjects size (m + 1)) fun tsk earlier last => ?_
      have le := iteration_le_of_mem_history earlier
      rw [(mem_taskObjects last).1] at le
      omega

/-! ## What is left of an iteration -/

/-- The loop that recomputes the centers, from turn `i` on. -/
def recentered (s : LoopState N) (i : Nat) : Option (LoopState N) := do
  let (m_centers, numPoints, accumulator) ← forLoop i s.m_centers.length
    (s.m_centers, s.numPoints, s.accumulator) updateTurn
  some { s with m_centers, numPoints, accumulator }

/-- The loop in `accumulate` from turn `i` on, and the loop that recomputes the centers. -/
def accumulated (m_vpnts : List (CPoint N)) (s : LoopState N) (i : Nat) : Option (LoopState N) := do
  let (V, accumulator, numPoints) ← forLoop i m_vpnts.length (s.V, s.accumulator, s.numPoints)
    (accumulateTurn m_vpnts s.m_centers s.m_indexes)
  recentered { s with V, accumulator, numPoints } 0

/-- The variables when an iteration has begun. -/
def LoopState.begun (s : LoopState N) : LoopState N :=
  { s with oldV := s.V, V := 0, numIterations := s.numIterations + 1 }

theorem iteration_eq_bind (pass : Assignment N) (m_vpnts : List (CPoint N)) (s : LoopState N) :
    iteration pass m_vpnts s = (pass s.numIterations s.m_centers s.m_indexes).bind fun m_indexes =>
      accumulated m_vpnts { s.begun with m_indexes } 0 := by
  rfl

theorem length_updateTurn {i : Nat} {m_centers m_centers' accumulator accumulator' : List (CPoint N)}
    {numPoints numPoints' : List Nat}
    (turn : updateTurn i (m_centers, numPoints, accumulator) =
      some (m_centers', numPoints', accumulator')) : m_centers'.length = m_centers.length := by
  obtain ⟨n, -, rest⟩ := Option.bind_eq_some_iff.mp turn
  split at rest
  · obtain ⟨sum, -, rest⟩ := Option.bind_eq_some_iff.mp rest
    obtain ⟨cs, written, rest⟩ := Option.bind_eq_some_iff.mp rest
    obtain ⟨_, -, rest⟩ := Option.bind_eq_some_iff.mp rest
    obtain ⟨_, -, rest⟩ := Option.bind_eq_some_iff.mp rest
    obtain ⟨rfl, -⟩ := Prod.mk.inj (Option.some.inj rest)
    exact length_of_write written
  · obtain ⟨cs, same, rest⟩ := Option.bind_eq_some_iff.mp rest
    obtain ⟨_, -, rest⟩ := Option.bind_eq_some_iff.mp rest
    obtain ⟨_, -, rest⟩ := Option.bind_eq_some_iff.mp rest
    obtain ⟨rfl, -⟩ := Prod.mk.inj (Option.some.inj rest)
    rw [Option.some.inj same]

theorem accumulated_turn {m_vpnts : List (CPoint N)} {s : LoopState N} {i : Nat} {V : ℚ}
    {accumulator : List (CPoint N)} {numPoints : List Nat} (inside : i < m_vpnts.length)
    (turn : accumulateTurn m_vpnts s.m_centers s.m_indexes i (s.V, s.accumulator, s.numPoints) =
      some (V, accumulator, numPoints)) :
    accumulated m_vpnts { s with V, accumulator, numPoints } (i + 1) = accumulated m_vpnts s i := by
  rw [accumulated, accumulated, forLoop_cons inside, turn]
  rfl

theorem accumulated_length (m_vpnts : List (CPoint N)) (s : LoopState N) :
    accumulated m_vpnts s m_vpnts.length = recentered s 0 := by
  rw [accumulated, forLoop_empty]
  rfl

theorem recentered_turn {s : LoopState N} {i : Nat} {m_centers accumulator : List (CPoint N)}
    {numPoints : List Nat} (inside : i < s.m_centers.length)
    (turn : updateTurn i (s.m_centers, s.numPoints, s.accumulator) =
      some (m_centers, numPoints, accumulator)) :
    recentered { s with m_centers, numPoints, accumulator } (i + 1) = recentered s i := by
  rw [recentered, recentered, forLoop_cons inside, turn, length_updateTurn turn]
  rfl

theorem recentered_length (s : LoopState N) : recentered s s.m_centers.length = some s := by
  rw [recentered, forLoop_empty]
  rfl

/-! ## Outside of a pass -/

/-- The tasks of the first `m` iterations have been added, and they are done. -/
structure Settled (size m : Nat) (pool : Pool TaskObject ω Unit Nat) : Prop where
  added : pool.added = history size m
  ready : ∀ tsk ∈ history size m, pool.ready tsk = true
  outside : pool.caller () = .outside

theorem Settled.free {size m : Nat} {pool : Pool TaskObject ω Unit Nat}
    (settled : Settled size m pool) (sound : pool.ledger.Sound) (w : ω) :
    pool.ledger.hand w = none := by
  have added : pool.ledger.added = history size m := settled.added
  refine (sound.settled ?_ ?_).2 w
  · rw [added]
    exact nodup_history size m
  · rw [added]
    exact settled.ready

theorem Settled.work [DecidableEq ω] {size m : Nat} {pool pool' : Pool TaskObject ω Unit Nat}
    {m_vpnts : List (CPoint N)} {vars vars' : LoopState N} {w : ω} (settled : Settled size m pool)
    (sound : pool.ledger.Sound) (work : pool.Work (code m_vpnts) w vars pool' vars') :
    Settled size m pool' ∧ vars' = vars := by
  refine ⟨⟨?_, ?_, ?_⟩, work.still (settled.free sound w)⟩
  · rw [work.added, settled.added]
  · exact fun tsk member => work.ready (settled.ready tsk member)
  · rw [work.caller, settled.outside]

/-! ## The calls of a pass -/

section Calls

variable (size m i : Nat) (pool : Pool TaskObject ω Unit Nat)

/-- Of iteration `m + 1` the first `i` tasks have been added. -/
def Adding : Prop := pool.caller () = .outside ∧
  pool.added = history size m ++ (taskObjects size (m + 1)).take i

/-- `AddTask` of task `i` is about to notify. -/
def Notifying : Prop := (∃ tsk, pool.caller () = .notifyOne tsk) ∧
  pool.added = history size m ++ (taskObjects size (m + 1)).take (i + 1)

/-- All tasks of iteration `m + 1` have been added, and the first `i` of them are done. -/
def Waiting : Prop := pool.caller () = .outside ∧ pool.added = history size (m + 1) ∧
  ∀ tsk ∈ (taskObjects size (m + 1)).take i, pool.ready tsk = true

/-- The main thread is inside of `Wait` of task `i`. -/
def InWait : Prop :=
  (∃ tsk, (taskObjects size (m + 1))[i]? = some tsk ∧ pool.caller () = .waitFor tsk) ∧
  pool.added = history size (m + 1) ∧
  ∀ tsk ∈ (taskObjects size (m + 1)).take i, pool.ready tsk = true

variable {size m i pool} {pool' : Pool TaskObject ω Unit Nat} {tsk : TaskObject}

theorem Settled.adding (settled : Settled size m pool) : Adding size m 0 pool := by
  refine ⟨settled.outside, ?_⟩
  rw [settled.added, List.take_zero, List.append_nil]

theorem Adding.all (adding : Adding size m i pool) (none : (taskObjects size (m + 1))[i]? = none) :
    Waiting size m 0 pool := by
  obtain ⟨outside, added⟩ := adding
  rw [List.take_of_length_le (List.getElem?_eq_none_iff.mp none)] at added
  exact ⟨outside, added, fun tsk member => absurd member List.not_mem_nil⟩

theorem Waiting.settled (waiting : Waiting size m i pool)
    (none : (taskObjects size (m + 1))[i]? = none)
    (before : ∀ tsk ∈ history size m, pool.ready tsk = true) : Settled size (m + 1) pool := by
  obtain ⟨outside, added, ready⟩ := waiting
  rw [List.take_of_length_le (List.getElem?_eq_none_iff.mp none)] at ready
  refine ⟨added, fun tsk member => ?_, outside⟩
  cases List.mem_append.mp member with
  | inl earlier => exact before tsk earlier
  | inr last => exact ready tsk last

theorem Adding.nodup (adding : Adding size m i pool) : pool.added.Nodup := by
  rw [adding.2]
  exact (nodup_history size (m + 1)).sublist ((List.take_sublist ..).append_left _)

theorem Notifying.nodup (notifying : Notifying size m i pool) : pool.added.Nodup := by
  rw [notifying.2]
  exact (nodup_history size (m + 1)).sublist ((List.take_sublist ..).append_left _)

theorem Waiting.nodup (waiting : Waiting size m i pool) : pool.added.Nodup := by
  rw [waiting.2.1]
  exact nodup_history size (m + 1)

theorem InWait.nodup (waiting : InWait size m i pool) : pool.added.Nodup := by
  rw [waiting.2.1]
  exact nodup_history size (m + 1)

variable [DecidableEq ω]

theorem Adding.push (adding : Adding size m i pool) (there : (taskObjects size (m + 1))[i]? = some tsk)
    (call : pool.Call () pool') (after : pool'.caller () = .notifyOne tsk) :
    Notifying size m i pool' := by
  refine ⟨⟨_, after⟩, ?_⟩
  rw [call.pushed adding.1 after, adding.2, List.take_add_one, there, List.append_assoc]
  rfl

theorem Notifying.notify (notifying : Notifying size m i pool) (call : pool.Call () pool') :
    Adding size m (i + 1) pool' := by
  obtain ⟨⟨tsk, inside⟩, added⟩ := notifying
  obtain ⟨outside, same⟩ := call.notified inside
  exact ⟨outside, same.trans added⟩

theorem Waiting.call (waiting : Waiting size m i pool)
    (there : (taskObjects size (m + 1))[i]? = some tsk) (call : pool.Call () pool')
    (after : pool'.caller () = .waitFor tsk) : InWait size m i pool' := by
  obtain ⟨outside, added, ready⟩ := waiting
  exact ⟨⟨_, there, after⟩, (call.waits after).trans added,
    fun tsk member => by rw [call.ready, ready tsk member]⟩

theorem InWait.returns (waiting : InWait size m i pool) (call : pool.Call () pool') :
    Waiting size m (i + 1) pool' := by
  obtain ⟨⟨tsk, there, inside⟩, added, ready⟩ := waiting
  obtain ⟨outside, same, satisfied⟩ := call.waited inside
  refine ⟨outside, same.trans added, fun other member => ?_⟩
  rw [List.take_add_one, there] at member
  cases List.mem_append.mp member with
  | inl earlier => rw [call.ready, ready other earlier]
  | inr last => rw [call.ready, List.mem_singleton.mp last, satisfied]

section Work

variable {m_vpnts : List (CPoint N)} {vars vars' : LoopState N} {w : ω}
  (worked : pool.Work (code m_vpnts) w vars pool' vars')
include worked

theorem Adding.work (adding : Adding size m i pool) : Adding size m i pool' := by
  unfold Adding
  rw [worked.caller, worked.added]
  exact adding

theorem Notifying.work (notifying : Notifying size m i pool) : Notifying size m i pool' := by
  unfold Notifying
  rw [worked.caller, worked.added]
  exact notifying

theorem Waiting.work (waiting : Waiting size m i pool) : Waiting size m i pool' := by
  obtain ⟨outside, added, ready⟩ := waiting
  unfold Waiting
  rw [worked.caller, worked.added]
  exact ⟨outside, added, fun tsk member => worked.ready (ready tsk member)⟩

theorem InWait.work (waiting : InWait size m i pool) : InWait size m i pool' := by
  obtain ⟨inside, added, ready⟩ := waiting
  unfold InWait
  rw [worked.caller, worked.added]
  exact ⟨inside, added, fun tsk member => worked.ready (ready tsk member)⟩

end Work

end Calls

/-! ## During a pass -/

/-- The points that a task has assigned when its counter is at `i`. -/
def TaskObject.upTo (tsk : TaskObject) (i : Nat) : Set Nat :=
  Set.Ico (toUnsigned tsk.range.m_begin) i

section Pass

variable {n k : Nat} [NeZero k] (x : Fin n → CPoint N) (c : Fin k → CPoint N) (unused : List Nat)

/-- In iteration `m + 1` the points in `s` are assigned, among them those that a task has
    passed. -/
structure Assigning (m : Nat) (pool : Pool TaskObject ω Unit Nat) (vars : LoopState N)
    (s : Set Nat) : Prop where
  vars : ∃ m_indexes, vars = { (trace x c unused m).begun with m_indexes } ∧
    Overwritten (stored x (centers CPoint.normSq x id c m)) s
      (grow (trace x c unused m).m_indexes n 0) m_indexes
  inside : ∀ i ∈ s, i < n
  executing : ∀ w e tsk i, pool.worker w = .execute e tsk i → tsk.upTo i ⊆ s
  completed : ∀ e ∈ pool.completed, ∀ tsk, pool.ledger.task e = some tsk →
    tsk.iteration = m + 1 → tsk.upTo (toUnsigned tsk.range.m_end) ⊆ s

variable {x c unused} {m : Nat} {pool pool' : Pool TaskObject ω Unit Nat}
  {vars vars' : LoopState N} {s : Set Nat}

theorem Settled.assigning (settled : Settled n m pool) (sound : pool.ledger.Sound) :
    Assigning x c unused m pool
      { (trace x c unused m).begun with m_indexes := grow (trace x c unused m).m_indexes n 0 } ∅ := by
  refine ⟨⟨_, rfl, .none ..⟩, fun i none => none.elim, ?_, ?_⟩
  · intro w e tsk i at_w
    have free : (pool.worker w).hand = none := settled.free sound w
    rw [at_w] at free
    cases free
  · intro e _ tsk name current
    have member : tsk ∈ pool.added := List.mem_of_getElem? (sound.added_of_task name)
    rw [settled.added] at member
    have le := iteration_le_of_mem_history member
    omega

/-- When all tasks of the iteration are done, every point is assigned. -/
theorem Assigning.tiled (assigning : Assigning x c unused m pool vars s)
    (sound : pool.ledger.Sound) (small : n < 2 ^ 32)
    (all : ∀ tsk ∈ taskObjects n (m + 1), pool.ready tsk = true) : s = Set.Ico 0 n := by
  refine Set.Subset.antisymm (fun i member => ⟨Nat.zero_le i, assigning.inside i member⟩) ?_
  rintro i ⟨-, inside⟩
  obtain ⟨task, created, low, high⟩ := (makeTasks_cover small i).mpr inside
  obtain ⟨tsk, member, rfl⟩ := exists_taskObject (m + 1) created
  obtain ⟨e, notified, name⟩ := (sound.promise tsk).mp (all tsk member)
  exact assigning.completed e (sound.finished e notified).2 tsk name (mem_taskObjects member).1
    ⟨low, high⟩

theorem Assigning.eq_listing (assigning : Assigning x c unused m pool vars (Set.Ico 0 n)) :
    vars = { (trace x c unused m).begun with
      m_indexes := listing (indexes CPoint.normSq x id c m) (unused.drop n) } := by
  obtain ⟨m_indexes, rfl, left⟩ := assigning.vars
  obtain ⟨zs, run, right⟩ := inOrder_overwrites x (centers CPoint.normSq x id c m)
    (trace x c unused m).m_indexes
  rw [makeClusters_eq, trace, drop_storedIndexes, Option.some.injEq] at run
  rw [left.unique right, ← run]
  rfl

/-- At the end of the pass the rest of the iteration comes out as in the sequential loop. -/
theorem accumulated_trace (m : Nat) : accumulated (List.ofFn x) { (trace x c unused m).begun with
    m_indexes := listing (indexes CPoint.normSq x id c m) (unused.drop n) } 0 =
      some (trace x c unused (m + 1)) := by
  have turn := iteration_eq x c unused (sequential_inOrder x k) m
  rw [iteration_eq_bind, inOrder, trace, makeClusters_eq, drop_storedIndexes, Option.bind_some]
    at turn
  exact turn

theorem assigned_trace (m : Nat) : Assigned (List.ofFn x) { (trace x c unused m).begun with
    m_indexes := listing (indexes CPoint.normSq x id c m) (unused.drop n) } :=
  fun _ _ read => findNearest_listing x _ _ read

/-! ### The workers during a pass -/

variable [DecidableEq ω]

theorem executing_goto {pool : Pool TaskObject ω Unit Nat} {s t : Set Nat} (le : s ⊆ t) {w : ω}
    {point : Worker TaskObject Nat}
    (before : ∀ v e tsk i, pool.worker v = .execute e tsk i → tsk.upTo i ⊆ s)
    (here : ∀ e tsk i, point = .execute e tsk i → tsk.upTo i ⊆ t) (v : ω) (e : Nat)
    (tsk : TaskObject) (i : Nat) (at_v : (pool.goto w point).worker v = .execute e tsk i) :
    tsk.upTo i ⊆ t := by
  rcases eq_or_ne v w with rfl | other
  · rw [Pool.goto_self] at at_v
    exact here e tsk i at_v
  · rw [pool.goto_other other] at at_v
    exact (before v e tsk i at_v).trans le

/-- A worker that goes on without doing anything in `Execute`. -/
theorem Assigning.goto (assigning : Assigning x c unused m pool vars s) {w : ω}
    {point : Worker TaskObject Nat} (moved : pool'.worker = (pool.goto w point).worker)
    (completed : pool'.completed = pool.completed)
    (named : ∀ e ∈ pool.completed, pool'.ledger.task e = pool.ledger.task e)
    (here : ∀ e tsk i, point = .execute e tsk i → tsk.upTo i = ∅) :
    Assigning x c unused m pool' vars s := by
  refine ⟨assigning.vars, assigning.inside, ?_, ?_⟩
  · rw [moved]
    refine executing_goto subset_rfl assigning.executing fun e tsk i same => ?_
    rw [here e tsk i same]
    exact Set.empty_subset s
  · intro e member tsk name
    rw [completed] at member
    rw [named e member] at name
    exact assigning.completed e member tsk name

theorem lt_of_assignTurn {m_vpnts m_centers : List (CPoint N)} {i : Nat} {m_indexes ys : List Nat}
    (turn : assignTurn m_vpnts m_centers i m_indexes = some ys) : i < m_vpnts.length := by
  obtain ⟨pnt, read, -⟩ := Option.bind_eq_some_iff.mp turn
  exact (List.getElem?_eq_some_iff.mp read).1

theorem Assigning.execute (assigning : Assigning x c unused m pool vars s) {w : ω} {e : Nat}
    {tsk : TaskObject} {i : Nat} (at_w : pool.worker w = .execute e tsk i) {m_indexes : List Nat}
    (turn : assignTurn (List.ofFn x) vars.m_centers i vars.m_indexes = some m_indexes) :
    Assigning x c unused m (pool.goto w (.execute e tsk (i + 1))) { vars with m_indexes }
      (insert i s) := by
  obtain ⟨⟨before, rfl, done⟩, inside, executing, completed⟩ := assigning
  have low : i < n := by simpa using lt_of_assignTurn turn
  have room : i < (grow (trace x c unused m).m_indexes n 0).length := by
    rw [length_grow]
    omega
  have stores := assignTurn_stored x (centers CPoint.normSq x id c m) low
    (room.trans_eq done.1.symm)
  rw [← Option.some.inj (stores.symm.trans turn)]
  refine ⟨⟨_, rfl, done.set room⟩, ?_, ?_, ?_⟩
  · rintro j (rfl | earlier)
    · exact low
    · exact inside j earlier
  · refine executing_goto (Set.subset_insert i s) executing fun e' tsk' j same => ?_
    obtain ⟨rfl, rfl, rfl⟩ := Worker.execute.inj same
    intro j passed
    rcases Nat.lt_succ_iff_lt_or_eq.mp passed.2 with earlier | rfl
    · exact Or.inr (executing w e tsk i at_w ⟨passed.1, earlier⟩)
    · exact Or.inl rfl
  · exact fun e' member tsk' name current =>
      (completed e' member tsk' name current).trans (Set.subset_insert i s)

theorem Assigning.returns (assigning : Assigning x c unused m pool vars s)
    (sound : pool.ledger.Sound) {w : ω} {e : Nat} {tsk : TaskObject} {i : Nat}
    (at_w : pool.worker w = .execute e tsk i) (last : ¬ i < toUnsigned tsk.range.m_end) :
    Assigning x c unused m
      { pool.goto w (.notify e tsk) with completed := pool.completed ++ [e] } vars s := by
  refine ⟨assigning.vars, assigning.inside, ?_, ?_⟩
  · exact executing_goto subset_rfl assigning.executing fun _ _ _ other => by cases other
  · intro f member tsk' name current
    rcases List.mem_append.mp member with earlier | new
    · exact assigning.completed f earlier tsk' name current
    · obtain rfl := List.mem_singleton.mp new
      have held : pool.ledger.hand w = some ⟨f, tsk, .executing⟩ := by
        simp only [Pool.ledger, at_w]
        rfl
      obtain rfl : tsk' = tsk := Option.some.inj (name.symm.trans (sound.task_of_hand held))
      exact (Set.Ico_subset_Ico_right (by omega)).trans (assigning.executing w f tsk' i at_w)

theorem Assigning.work (assigning : Assigning x c unused m pool vars s)
    (sound : pool.ledger.Sound) {w : ω}
    (work : pool.Work (code (List.ofFn x)) w vars pool' vars') :
    ∃ t, Assigning x c unused m pool' vars' t := by
  cases work with
  | execute at_w act =>
      obtain ⟨-, m_indexes, turn, rfl, rfl⟩ := act
      exact ⟨_, assigning.execute at_w turn⟩
  | returns at_w last => exact ⟨s, assigning.returns sound at_w last⟩
  | @pop tsk rest at_w popped =>
      refine ⟨s, assigning.goto (w := w) rfl rfl (fun e member => ?_) fun _ _ _ other => by cases other⟩
      have numbered : e < pool.popped.length := sound.numbered e (Or.inr (Or.inl member))
      change (pool.popped ++ [(w, tsk)])[e]?.map Prod.snd = pool.popped[e]?.map Prod.snd
      rw [List.getElem?_append_left numbered]
  | callExecute at_w =>
      refine ⟨s, assigning.goto (w := w) rfl rfl (fun _ _ => rfl) fun e tsk i same => ?_⟩
      obtain ⟨-, rfl, rfl⟩ := Worker.execute.inj same
      exact Set.Ico_self _
  | _ =>
      exact ⟨s, assigning.goto (w := w) rfl rfl (fun _ _ => rfl) fun _ _ _ other => by cases other⟩

theorem Assigning.call (assigning : Assigning x c unused m pool vars s)
    (call : pool.Call () pool') : Assigning x c unused m pool' vars s := by
  cases call with
  | notifyOne w _ _ =>
      exact assigning.goto (w := w) rfl rfl (fun _ _ => rfl) fun _ _ _ other => by cases other
  | _ => exact ⟨assigning.vars, assigning.inside, assigning.executing, assigning.completed⟩

end Pass

end KMeans.multiThread
