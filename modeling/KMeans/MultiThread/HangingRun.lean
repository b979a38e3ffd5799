import KMeans.MultiThread.MainProgress

/-! # When `Run` hangs

What can go wrong in a run is one thing: the last worker goes to sleep after all tasks of a
pass were added and before it has seen them. This can happen for every input and with any
number of workers, in the first pass already.
-/

namespace KMeans.multiThread

open Loops Arrays Lloyd Transition

variable {N : Nat} {ω : Type}

/-! ## Why a run hangs -/

/-- All tasks of the pass have been added. -/
def AllAdded (s : Machine N ω) : Prop := ∀ tsk ∈ s.m_tasks, tsk ∈ s.pool.added

/-- After all tasks of a pass were added, the last worker goes to sleep on a queue that is not
    empty. -/
def LosesWakeup [DecidableEq ω] (s s' : Machine N ω) : Prop :=
  AllAdded s ∧ s.pool.LastToSleep s'.pool

/-- If all tasks of a pass are added and not all are taken, some worker is awake. -/
def Attended (s : Machine N ω) : Prop := AllAdded s → s.pool.SomeoneAwake

section Hanging

variable [DecidableEq ω] [Nonempty ω] {n k : Nat} [NeZero k] {x : Fin n → CPoint N}
  {c : Fin k → CPoint N} {RAND_MAX : Nat} {rand : Nat → Nat} {m_numClusters m : Nat}
  {members : Members N} {s s' : Machine N ω}

omit [DecidableEq ω] [Nonempty ω] in
theorem Settled.empty {pool : Pool TaskObject ω Unit Nat} (settled : Settled n m pool)
    (sound : pool.ledger.Sound) : pool.m_tasks.cells = [] := by
  have added : pool.ledger.added = history n m := settled.added
  apply (sound.settled _ _).1
  · rw [added]
    exact nodup_history n m
  · rw [added]
    exact settled.ready

omit [DecidableEq ω] [Nonempty ω] in
theorem awake_of_empty {pool : Pool TaskObject ω Unit Nat} (empty : pool.m_tasks.cells = []) :
    pool.SomeoneAwake :=
  fun _ _ stored => absurd empty stored

omit [DecidableEq ω] [Nonempty ω] in
theorem At.allAdded_of_waiting {i : Nat}
    (here : At x c members m s.pool s.vars s.m_tasks (.waitFor i)) : AllAdded s := by
  obtain ⟨passing, _, added, _⟩ := here
  intro tsk member
  rw [added, history, ← passing.m_tasks]
  exact List.mem_append_right _ member

omit [DecidableEq ω] [Nonempty ω] in
/-- While the pass has a task to add, not all tasks are added. -/
theorem At.not_allAdded {i : Nat} {tsk : TaskObject}
    (here : At x c members m s.pool s.vars s.m_tasks (.addTask i)) (there : s.m_tasks[i]? = some tsk) :
    ¬ AllAdded s := by
  intro all
  obtain ⟨passing, _, added⟩ := here
  have member := all tsk (List.mem_of_getElem? there)
  rw [passing.m_tasks] at there
  have distinct := nodup_history n (m + 1)
  rw [history, ← List.take_append_drop i (taskObjects n (m + 1)), ← List.append_assoc] at distinct
  rw [added] at member
  apply (List.nodup_append.mp distinct).2.2 tsk member tsk _ rfl
  apply List.mem_of_getElem? (i := 0)
  rw [List.getElem?_drop, Nat.add_zero]
  exact there

/-- Only a lost wake-up leaves the tasks unattended. -/
theorem Prompted.attended
    (step : Prompted (List.ofFn x) RAND_MAX rand m_numClusters s s')
    (here : At x c members m s.pool s.vars s.m_tasks s.point) (sound : s.pool.ledger.Sound)
    (keeps : ¬ LosesWakeup s s') (before : Attended s) : Attended s' := by
  intro all
  cases step with
  | work w _ work =>
      have earlier : AllAdded s := by
        intro tsk member
        rw [← work.added]
        exact all tsk member
      exact work.awake fun last => keeps ⟨earlier, last⟩
  | main main =>
      cases main with
      | addTask _ _ _ after => exact fun _ settled _ => absurd after (settled () _)
      | notifyOne at_s call =>
          rw [at_s] at here
          obtain ⟨_, ⟨tsk, inside⟩, _⟩ := here
          exact call.awake fun _ settled _ => absurd inside (settled () tsk)
      | callWait _ _ call after =>
          apply call.awake
          apply before
          intro tsk member
          rw [← call.waits after]
          exact all tsk member
      | waitReturns at_s call =>
          rw [at_s] at here
          obtain ⟨_, ⟨tsk, _, inside⟩, _⟩ := here
          apply call.awake
          apply before
          intro tsk member
          rw [← (call.waited inside).2.1]
          exact all tsk member
      | createTasks at_s | clear at_s =>
          rw [at_s] at here
          exact awake_of_empty (here.1.empty sound)
      | seed _ _ | goOn _ _ | resize _ | addedAll _ _ | waitedForAll _ _ | accumulate _ _ _
      | accumulatedAll _ _ | update _ _ _ | updatedAll _ _ | leave _ _ | group _ _ _
      | returns _ _ => exact before all

omit [Nonempty ω] in
/-- Once the tasks are unattended, they remain so. -/
theorem Prompted.unattended
    (step : Prompted (List.ofFn x) RAND_MAX rand m_numClusters s s')
    (here : At x c members m s.pool s.vars s.m_tasks s.point) (sound : s.pool.ledger.Sound)
    (before : ¬ Attended s) : ¬ Attended s' := by
  obtain ⟨all, asleep⟩ := not_forall.mp before
  have stored : s.pool.m_tasks.cells ≠ [] := fun empty => asleep (awake_of_empty empty)
  cases step with
  | work w awake work => exact absurd (fun _ _ _ => ⟨w, awake⟩) asleep
  | main main =>
      cases main with
      | addTask at_s there _ _ =>
          rw [at_s] at here
          exact absurd all (here.not_allAdded there)
      | notifyOne at_s call =>
          rw [at_s] at here
          obtain ⟨_, ⟨tsk, inside⟩, _⟩ := here
          exact absurd (fun _ settled _ => absurd inside (settled () tsk)) asleep
      | callWait _ _ call after =>
          intro attended
          apply call.asleep (call.waits after) asleep
          apply attended
          intro tsk member
          rw [call.waits after]
          exact all tsk member
      | waitReturns at_s call =>
          rw [at_s] at here
          obtain ⟨_, ⟨tsk, _, inside⟩, _⟩ := here
          intro attended
          apply call.asleep (call.waited inside).2.1 asleep
          apply attended
          intro tsk member
          rw [(call.waited inside).2.1]
          exact all tsk member
      | addedAll _ _ => exact fun attended => asleep (attended all)
      | waitedForAll at_s none =>
          rw [at_s] at here
          obtain ⟨passing, waiting⟩ := here
          rw [passing.m_tasks] at none
          exact absurd ((Waiting.settled waiting none passing.ready).empty sound) stored
      | seed at_s _ | goOn at_s _ | createTasks at_s | resize at_s | clear at_s
      | accumulate at_s _ _ | accumulatedAll at_s _ | update at_s _ _ | updatedAll at_s _
      | leave at_s _ | group at_s _ _ | returns at_s _ =>
          rw [at_s] at here
          exact absurd (here.1.empty sound) stored

omit [Nonempty ω] in
theorem Main.blocked {m_vpnts : List (CPoint N)}
    (main : Main m_vpnts RAND_MAX rand m_numClusters s s') {w : ω}
    (asleep : s'.pool.worker w = .blocked) : s.pool.worker w = .blocked := by
  cases main with
  | addTask _ _ call _ | notifyOne _ call | callWait _ _ call _ | waitReturns _ call =>
      exact call.blocked asleep
  | _ => exact asleep

omit [Nonempty ω] in
theorem LosesWakeup.unattended {m_vpnts : List (CPoint N)} (lost : LosesWakeup s s')
    (step : Prompted m_vpnts RAND_MAX rand m_numClusters s s') : ¬ Attended s' := by
  obtain ⟨all, last⟩ := lost
  cases step with
  | main main =>
      obtain ⟨_, _, _, w, at_w, asleep, _⟩ := last
      have before := main.blocked asleep
      simp [at_w] at before
  | work w _ work =>
      have asleep := Pool.Step.asleep (.work work) last
      intro attended
      apply asleep
      apply attended
      intro tsk member
      rw [work.added]
      exact all tsk member

end Hanging

/-! ## A run that hangs -/

section Missing

variable [DecidableEq ω] [Fintype ω] {n k : Nat} [NeZero k] {x : Fin n → CPoint N}
  {c : Fin k → CPoint N} {RAND_MAX : Nat} {rand : Nat → Nat} {m_numClusters : Nat}
  {members : Members N} {s s' : Machine N ω}

/-- What each worker can do by itself, all of them can do one after the other. -/
theorem path_all {S : System (Machine N ω)} (here there : Worker TaskObject Nat)
    (all : ∀ w, s.pool.worker w = here)
    (move : ∀ (p : Pool TaskObject ω Unit Nat) w, p = { s.pool with worker := p.worker } →
      p.worker w = here →
      Relation.ReflTransGen S.step { s with pool := p } { s with pool := p.goto w there }) :
    Relation.ReflTransGen S.step s
      { s with pool := { s.pool with worker := fun _ => there } } := by
  have some_workers : ∀ F : Finset ω, Relation.ReflTransGen S.step s
      { s with pool := { s.pool with worker := fun w => if w ∈ F then there else here } } := by
    intro F
    induction F using Finset.induction_on with
    | empty =>
        have same : (fun w : ω => if w ∈ (∅ : Finset ω) then there else here) = s.pool.worker := by
          funext w
          simp [all w]
        rw [same]
    | insert w F outside ih =>
        have next := move { s.pool with worker := fun w => if w ∈ F then there else here } w rfl
          (if_neg outside)
        have same : (fun v => if v ∈ insert w F then there else here) =
            Function.update (fun v => if v ∈ F then there else here) w there := by
          funext v
          by_cases here : v = w <;> simp [here]
        rw [same]
        exact ih.trans next
  have last := some_workers Finset.univ
  simp only [Finset.mem_univ, if_true] at last
  exact last

/-- From the start a run has come to a state in which all workers are at `place`. They have not
    woken up spuriously, and they have done nothing. -/
structure Misses (RAND_MAX : Nat) (rand : Nat → Nat) (m_vpnts : List (CPoint N))
    (m_numClusters : Nat) (members : Members N) (place : Worker TaskObject Nat) (point : Point N)
    (s : Machine N ω) : Prop where
  path : ∃ start, (schedules m_vpnts RAND_MAX rand m_numClusters members).init start ∧
    Relation.ReflTransGen (prompted m_vpnts RAND_MAX rand m_numClusters members).step start s
  terminated : s.pool.terminated = false
  worker : ∀ w, s.pool.worker w = place
  m_waiting_mutex : s.pool.m_waiting_mutex = none
  notified : s.pool.notified = []
  point : s.point = point

omit [Fintype ω] in
theorem Misses.reachable {m_vpnts : List (CPoint N)} {place : Worker TaskObject Nat}
    {point : Point N} (misses : Misses RAND_MAX rand m_vpnts m_numClusters members place point s) :
    Reachable (schedules m_vpnts RAND_MAX rand m_numClusters members) s := by
  obtain ⟨start, initial, path⟩ := misses.path
  exact (Reachable.init initial).later (path_of_prompted path)

/-- The workers find the queue empty before the first pass. -/
theorem exists_misses_seed (RAND_MAX : Nat) (rand : Nat → Nat) (m_vpnts : List (CPoint N))
    (m_numClusters : Nat) (members : Members N) : ∃ s : Machine N ω,
      Misses RAND_MAX rand m_vpnts m_numClusters members .lockWaiting .seed s := by
  let start : Machine N ω :=
    ⟨.fresh, ⟨members.m_centers, members.m_indexes, [], [], 0, 0, 0⟩, [], .seed⟩
  have initial : (schedules m_vpnts RAND_MAX rand m_numClusters members).init start :=
    ⟨Pool.idle_fresh, rfl, rfl, rfl, rfl⟩
  have path := path_all (s := start) .testRunning .lockWaiting
    (S := prompted m_vpnts RAND_MAX rand m_numClusters members) (fun _ => rfl) (by
      intro p w same at_w
      have alive : p.terminated = false := by rw [same]; rfl
      have running : p.m_isRunning = true := by rw [same]; rfl
      have empty : p.m_tasks.empty = true := by rw [same]; rfl
      have tests : (prompted m_vpnts RAND_MAX rand m_numClusters members).step
          { start with pool := p } { start with pool := p.goto w .testEmpty } :=
        ⟨alive, .work w (by simp [at_w]) (.running at_w running)⟩
      have finds : (prompted m_vpnts RAND_MAX rand m_numClusters members).step
          { start with pool := p.goto w .testEmpty }
          { start with pool := (p.goto w .testEmpty).goto w .lockWaiting } :=
        ⟨alive, .work w (by simp) (.empty (Pool.goto_self ..) empty)⟩
      rw [Pool.goto_goto] at finds
      exact .tail (.single tests) finds)
  exact ⟨_, ⟨start, initial, path⟩, rfl, fun _ => rfl, rfl, rfl, rfl⟩

omit [Fintype ω] in
theorem Misses.main {m_vpnts : List (CPoint N)} {place : Worker TaskObject Nat}
    {point : Point N} (misses : Misses RAND_MAX rand m_vpnts m_numClusters members place point s)
    (main : Main m_vpnts RAND_MAX rand m_numClusters s s') : ∃ start,
      (schedules m_vpnts RAND_MAX rand m_numClusters members).init start ∧
      Relation.ReflTransGen (prompted m_vpnts RAND_MAX rand m_numClusters members).step start s' := by
  obtain ⟨start, initial, path⟩ := misses.path
  exact ⟨start, initial, path.tail ⟨misses.terminated, .main main⟩⟩

variable (seeds : kmeansPP RAND_MAX rand (List.ofFn x) m_numClusters members.m_centers =
  some (List.ofFn c)) (small : n < 2 ^ 32)
include seeds small

theorem exists_misses_addTask_zero : ∃ s : Machine N ω,
    Misses RAND_MAX rand (List.ofFn x) m_numClusters members .lockWaiting (.addTask 0) s := by
  obtain ⟨s, misses⟩ := exists_misses_seed (ω := ω) RAND_MAX rand (List.ofFn x) m_numClusters members
  obtain ⟨m, here⟩ := at_reachable seeds small misses.reachable
  rw [misses.point] at here
  have seeded : kmeansPP RAND_MAX rand (List.ofFn x) m_numClusters s.vars.m_centers =
      some (List.ofFn c) := by
    rw [here.2.2.2.1]
    exact seeds
  have goes : looping (start (List.ofFn c) s.vars.m_indexes) = true := by
    simp [looping, start]
  obtain ⟨first, initial, path⟩ := misses.main (.seed misses.point seeded)
  have entered := path.tail ⟨misses.terminated, .main (.goOn rfl goes)⟩
  have created := entered.tail ⟨misses.terminated, .main (.createTasks rfl)⟩
  have resized := created.tail ⟨misses.terminated, .main (.resize rfl)⟩
  exact ⟨_, ⟨first, initial, resized⟩, misses.terminated, misses.worker, misses.m_waiting_mutex,
    misses.notified, rfl⟩

/-- No worker is asleep, so every notification is lost. -/
theorem exists_misses_addTask : ∀ i ≤ 12, ∃ s : Machine N ω,
    Misses RAND_MAX rand (List.ofFn x) m_numClusters members .lockWaiting (.addTask i) s := by
  intro i le
  induction i with
  | zero => exact exists_misses_addTask_zero seeds small
  | succ i ih =>
      obtain ⟨s, misses⟩ := ih (by omega)
      obtain ⟨m, here⟩ := at_reachable seeds small misses.reachable
      rw [misses.point] at here
      have inside : i < s.m_tasks.length := by
        rw [here.1.m_tasks, length_taskObjects]
        exact le
      obtain ⟨first, initial, path⟩ := misses.main (.addTask misses.point
        (List.getElem?_eq_getElem inside) (.pushBack _ here.2.1) rfl)
      have notified := path.tail ⟨misses.terminated, .main (.notifyOne rfl
        (.notifyNobody rfl fun w => by simp [misses.worker w]))⟩
      exact ⟨_, ⟨first, initial, notified⟩, misses.terminated, misses.worker,
        misses.m_waiting_mutex, misses.notified, rfl⟩

theorem exists_misses_waitFor : ∃ s : Machine N ω,
    Misses RAND_MAX rand (List.ofFn x) m_numClusters members .lockWaiting (.waitFor 0) s := by
  obtain ⟨s, misses⟩ := exists_misses_addTask (ω := ω) seeds small 12 (Nat.le_refl 12)
  obtain ⟨m, here⟩ := at_reachable seeds small misses.reachable
  rw [misses.point] at here
  have length : s.m_tasks.length = 12 := by rw [here.1.m_tasks, length_taskObjects]
  have none : s.m_tasks[12]? = none := List.getElem?_eq_none length.le
  obtain ⟨first, initial, path⟩ := misses.main (.addedAll misses.point none)
  have called := path.tail ⟨misses.terminated, .main (.callWait rfl
    (List.getElem?_eq_getElem (by omega : 0 < s.m_tasks.length)) (.callWait _ here.2.1) rfl)⟩
  exact ⟨_, ⟨first, initial, called⟩, misses.terminated, misses.worker, misses.m_waiting_mutex,
    misses.notified, rfl⟩

/-- Now all workers go to sleep. -/
theorem exists_hanging : ∃ start s : Machine N ω,
    (schedules (List.ofFn x) RAND_MAX rand m_numClusters members).init start ∧
    Relation.ReflTransGen (prompted (List.ofFn x) RAND_MAX rand m_numClusters members).step start s ∧
    Hangs s := by
  obtain ⟨s, misses⟩ := exists_misses_waitFor (ω := ω) seeds small
  obtain ⟨start, initial, path⟩ := misses.path
  have asleep := path_all (s := s) .lockWaiting .blocked
    (S := prompted (List.ofFn x) RAND_MAX rand m_numClusters members) misses.worker (by
      intro p w same at_w
      have alive : p.terminated = false := by
        rw [same]
        exact misses.terminated
      have free : p.m_waiting_mutex = none := by
        rw [same]
        exact misses.m_waiting_mutex
      have locks : (prompted (List.ofFn x) RAND_MAX rand m_numClusters members).step
          { s with pool := p }
          { s with pool := { p.goto w .wait with m_waiting_mutex := some w } } :=
        ⟨alive, .work w (by simp [at_w]) (.lockWaiting at_w free)⟩
      have waits : (prompted (List.ofFn x) RAND_MAX rand m_numClusters members).step
          { s with pool := { p.goto w .wait with m_waiting_mutex := some w } }
          { s with pool := { ({ p.goto w .wait with m_waiting_mutex := some w } :
            Pool TaskObject ω Unit Nat).goto w .blocked with m_waiting_mutex := none } } :=
        ⟨alive, .work w (by simp) (.wait (Pool.goto_self ..))⟩
      have slept : ({ ({ p.goto w .wait with m_waiting_mutex := some w } :
          Pool TaskObject ω Unit Nat).goto w .blocked with m_waiting_mutex := none } :
          Pool TaskObject ω Unit Nat) = p.goto w .blocked := by
        simp only [Pool.goto, Function.update_idem, free]
      rw [slept] at waits
      exact .tail (.single locks) waits)
  have whole := path.trans asleep
  have reached := (Reachable.init initial).later (path_of_prompted whole)
  have sound := Pool.sound_reachable (pool_reachable reached)
  obtain ⟨m, here⟩ := at_reachable seeds small reached
  simp only [misses.point] at here
  obtain ⟨tsk, there, _⟩ := here.2.1
  rw [← here.1.m_tasks] at there
  have waits : s.pool.ready tsk = false := by
    by_contra ready
    obtain ⟨e, notified, _⟩ := (sound.promise tsk).mp (Bool.of_not_eq_false ready)
    have none : e ∈ s.pool.notified := notified
    simp [misses.notified] at none
  exact ⟨start, _, initial, whole, ⟨0, tsk, misses.point, there, waits⟩,
    stored_of_waiting here sound there waits fun _ => rfl, fun _ => rfl⟩

end Missing

/-! ## The results -/

section Results

variable [DecidableEq ω] {m_vpnts : List (CPoint N)} {RAND_MAX : Nat} {rand : Nat → Nat}
  {m_numClusters : Nat} {members : Members N}

/-- Only a spurious wake-up gets a run on that hangs. -/
theorem Hangs.stuck {s t : Machine N ω} (hangs : Hangs s)
    (reached : Reachable (schedules m_vpnts RAND_MAX rand m_numClusters members) s) :
    ¬ (prompted m_vpnts RAND_MAX rand m_numClusters members).step s t := by
  intro move
  obtain ⟨_, step⟩ := move
  obtain ⟨i, tsk, at_s, there, waits⟩ := hangs.waits
  cases step with
  | work w awake _ => exact awake (hangs.asleep w)
  | main main =>
      obtain ⟨m, place⟩ := place_reachable reached
      rw [at_s] at place
      obtain ⟨created, ⟨tsk', there', inside⟩, _⟩ := place
      rw [← created.m_tasks, there, Option.some.injEq] at there'
      cases main with
      | waitReturns _ call =>
          have ready := (call.waited inside).2.2
          rw [← there', waits] at ready
          cases ready
      | seed at_t _ | goOn at_t _ | createTasks at_t | resize at_t | addTask at_t _ _ _
      | notifyOne at_t _ | addedAll at_t _ | callWait at_t _ _ _ | waitedForAll at_t _ | clear at_t
      | accumulate at_t _ _ | accumulatedAll at_t _ | update at_t _ _ | updatedAll at_t _
      | leave at_t _ | group at_t _ _ | returns at_t _ => simp [at_s] at at_t

/-- A run that cannot go on hangs exactly if one of its steps has lost the wake-up of a pass. -/
theorem Run_hangs_iff [Nonempty ω] (some_point : m_vpnts ≠ []) (small : m_vpnts.length < 2 ^ 32)
    (some_cluster : 1 ≤ m_numClusters) {n : Nat} {run : Nat → Machine N ω}
    (isRun : IsRun (prompted m_vpnts RAND_MAX rand m_numClusters members) n run)
    (start : (schedules m_vpnts RAND_MAX rand m_numClusters members).init (run 0))
    (stuck : ∀ s, ¬ (prompted m_vpnts RAND_MAX rand m_numClusters members).step (run n) s) :
    Hangs (run n) ↔ ∃ i < n, LosesWakeup (run i) (run (i + 1)) := by
  obtain ⟨size, k, _, x, c, rfl, seeds⟩ :=
    exists_seeds RAND_MAX rand some_point some_cluster members
  rw [List.length_ofFn] at small
  have at_run : ∀ i ≤ n, (run i).pool.ledger.Sound ∧ ∃ m,
      At x c members m (run i).pool (run i).vars (run i).m_tasks (run i).point := by
    intro i le
    have reached := reachable_of_prompted (isRun.reachable i le)
    exact ⟨Pool.sound_reachable (pool_reachable reached), at_reachable seeds small reached⟩
  constructor
  · intro hangs
    by_contra never
    have attended : Attended (run n) := by
      apply isRun.carry Attended (Nat.zero_le n) (Nat.le_refl n)
      · obtain ⟨idle, _⟩ := start
        exact fun _ => awake_of_empty idle.m_tasks
      · intro i _ lt move before
        obtain ⟨sound, m, here⟩ := at_run i lt.le
        exact move.2.attended here sound (fun loses => never ⟨i, lt, loses⟩) before
    obtain ⟨i, tsk, at_n, _⟩ := hangs.waits
    obtain ⟨_, m, here⟩ := at_run n (Nat.le_refl n)
    rw [at_n] at here
    obtain ⟨_, _, inside⟩ := here.2.1
    have settled : ∀ d tsk, (run n).pool.caller d ≠ .notifyOne tsk := by
      intro d tsk other
      simp [inside] at other
    have running := running_reachable (reachable_of_prompted (isRun.reachable n (Nat.le_refl n)))
    obtain ⟨w, awake⟩ := attended here.allAdded_of_waiting running settled hangs.stored
    exact awake (hangs.asleep w)
  · intro lost
    obtain ⟨i, lt, all, last⟩ := lost
    have next := isRun.next i lt
    have unattended : ¬ Attended (run n) := by
      apply isRun.carry (fun s => ¬ Attended s) lt (Nat.le_refl n)
      · exact LosesWakeup.unattended ⟨all, last⟩ next.2
      · intro j low high move before
        obtain ⟨sound, m, here⟩ := at_run j high.le
        exact move.2.unattended here sound before
    by_contra goes
    have reached := isRun.reachable n (Nat.le_refl n)
    have unfinished : ¬ Returned (run n) := by
      intro returned
      obtain ⟨result, at_n⟩ := returned
      obtain ⟨sound, m, here⟩ := at_run n (Nat.le_refl n)
      rw [at_n] at here
      exact unattended fun _ => awake_of_empty (here.1.empty sound)
    obtain ⟨s, move⟩ := exists_prompted seeds small reached (not_or.mpr ⟨unfinished, goes⟩)
    exact stuck s move

/-- On two points with one worker there is a run that hangs. -/
theorem Run_hangs_iff_two_points : ∃ (n : Nat) (run : Nat → Machine 1 Unit),
    IsRun (prompted [⟨![0]⟩, ⟨![2]⟩] 32767 (fun _ => 0) 1 .fresh) n run ∧ Hangs (run n) ∧
    ∃ i < n, LosesWakeup (run i) (run (i + 1)) := by
  have some_point : [⟨![0]⟩, (⟨![2]⟩ : CPoint 1)] ≠ [] := by simp
  have small : [⟨![0]⟩, (⟨![2]⟩ : CPoint 1)].length < 2 ^ 32 := by decide
  obtain ⟨size, k, _, x, c, same, seeds⟩ :=
    exists_seeds 32767 (fun _ => 0) some_point (Nat.le_refl 1) .fresh
  rw [same] at seeds small
  rw [List.length_ofFn] at small
  obtain ⟨start, s, initial, path, hangs⟩ := exists_hanging (ω := Unit) seeds small
  rw [← same] at initial path
  obtain ⟨n, run, isRun, first, last⟩ := exists_isRun (Reachable.init initial) path
  have hanging : Hangs (run n) := last ▸ hangs
  have reached := reachable_of_prompted (isRun.reachable n (Nat.le_refl n))
  have lost := (Run_hangs_iff some_point (by decide) (Nat.le_refl 1) isRun (first ▸ initial)
    fun _ => hanging.stuck reached).mp hanging
  exact ⟨n, run, isRun, hanging, lost⟩

/-- For every input and any number of workers some run hangs, without a spurious wake-up. -/
theorem Run_can_hang [Fintype ω] (some_point : m_vpnts ≠ []) (small : m_vpnts.length < 2 ^ 32)
    (some_cluster : 1 ≤ m_numClusters) : ∃ start s : Machine N ω,
      (schedules m_vpnts RAND_MAX rand m_numClusters members).init start ∧
      Relation.ReflTransGen (prompted m_vpnts RAND_MAX rand m_numClusters members).step start s ∧
      Hangs s := by
  obtain ⟨n, k, _, x, c, rfl, seeds⟩ := exists_seeds RAND_MAX rand some_point some_cluster members
  rw [List.length_ofFn] at small
  exact exists_hanging seeds small

theorem Run_can_hang_two_points : ∃ start s : Machine 1 (Fin 8),
    (schedules [⟨![0]⟩, ⟨![2]⟩] 32767 (fun _ => 0) 1 .fresh).init start ∧
    Relation.ReflTransGen (prompted [⟨![0]⟩, ⟨![2]⟩] 32767 (fun _ => 0) 1 .fresh).step start s ∧
    Hangs s :=
  Run_can_hang (by simp) (by decide) (Nat.le_refl 1)

end Results

end KMeans.multiThread
