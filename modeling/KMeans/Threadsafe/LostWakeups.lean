import KMeans.Threadsafe.PoolDrains

/-! # Notifications that nobody hears

A notification that finds no worker in `wait` is lost. That does no harm while some worker has
yet to look at the queue, or another caller has yet to notify. Otherwise all workers are on
their way to sleep with a task in the queue, and nothing keeps them from getting there.
-/

namespace KMeans.Pool

open Transition

variable {τ ω κ σ β : Type}

/-- In the step from `p` to `p'` a `notify_one` finds no worker blocked, while the pool is running
    and holds a task at which no worker has yet to look, and no other call of `AddTask` is about
    to notify. -/
def Unheard (p p' : Pool τ ω κ β) : Prop :=
  p.m_isRunning = true ∧ (∀ w, p.worker w ≠ .blocked) ∧ ¬ p.InSight ∧
    ∃ c tsk, p.caller c = .notifyOne tsk ∧ p'.caller c = .outside ∧
      ∀ d tsk, d ≠ c → p.caller d ≠ .notifyOne tsk

/-- The queue is in sight, or a call of `AddTask` is about to notify. -/
def Heard (p : Pool τ ω κ β) : Prop := p.InSight ∨ ∃ c tsk, p.caller c = .notifyOne tsk

variable [DecidableEq τ] [DecidableEq ω] [DecidableEq κ] {code : TaskCode τ σ β}
  {p p' : Pool τ ω κ β} {s s' : Pool τ ω κ β × σ}

/-! ## While every notification is heard -/

omit [DecidableEq τ] [DecidableEq ω] [DecidableEq κ] in
theorem Heard.awake (heard : p.Heard) : p.SomeoneAwake := by
  intro _ settled stored
  cases heard with
  | inr notifies =>
      obtain ⟨c, tsk, at_c⟩ := notifies
      exact absurd at_c (settled c tsk)
  | inl inSight =>
      cases inSight with
      | inl empty => exact absurd empty stored
      | inr looks =>
          obtain ⟨w, looks⟩ := looks
          refine ⟨w, ?_⟩
          intro asleep
          rw [asleep] at looks
          exact looks

omit [DecidableEq τ] [DecidableEq ω] in
/-- Another caller is still about to notify. -/
theorem notifies_of_update {c : κ} {point : Caller τ}
    (notifies : ∃ d tsk, d ≠ c ∧ p.caller d = .notifyOne tsk) :
    ∃ d tsk, Function.update p.caller c point d = .notifyOne tsk := by
  obtain ⟨d, tsk, other, at_d⟩ := notifies
  refine ⟨d, tsk, ?_⟩
  rw [Function.update_of_ne other]
  exact at_d

omit [DecidableEq τ] in
theorem Call.heard {c : κ} (call : Call c p p') (running : p.m_isRunning = true)
    (keeps : ¬ Unheard p p') (before : p.Heard) : p'.Heard := by
  cases call with
  | pushBack tsk _ => exact Or.inr ⟨c, tsk, Function.update_self ..⟩
  | notifyOne w _ _ =>
      refine Or.inl (Or.inr ⟨w, ?_⟩)
      simp [Worker.looks]
  | @notifyNobody tsk at_c awake =>
      by_contra unheard
      apply keeps
      refine ⟨running, awake, ?_, c, tsk, at_c, Function.update_self .., ?_⟩
      · intro inSight
        exact unheard (Or.inl inSight)
      · intro d tsk other at_d
        exact unheard (Or.inr (notifies_of_update ⟨d, tsk, other, at_d⟩))
  | callWait _ at_c | waitReturns at_c _ =>
      cases before with
      | inl inSight => exact Or.inl inSight
      | inr notifies =>
          obtain ⟨d, tsk, at_d⟩ := notifies
          refine Or.inr (notifies_of_update ⟨d, tsk, ?_, at_d⟩)
          intro same
          rw [same, at_c] at at_d
          cases at_d

omit [DecidableEq τ] [DecidableEq ω] [DecidableEq κ] in
theorem looks_wake {point : Worker τ β} (looks : point.looks) : (wake point).looks := by
  cases point <;> first | exact looks | exact trivial

theorem Step.heard (step : Step code s s') (running : s'.1.m_isRunning = true)
    (small : s.1.m_tasks.cells.length < 2 ^ 32) (alive : s'.1.terminated = false)
    (keeps : ¬ Unheard s.1 s'.1) (before : s.1.m_isRunning = true → s.1.Heard) : s'.1.Heard := by
  cases step with
  | work work =>
      have running := work.closing.2 ▸ running
      cases before running with
      | inl inSight => exact Or.inl (work.inSight running small alive inSight)
      | inr notifies =>
          right
          dsimp only
          rw [work.caller]
          exact notifies
  | call call =>
      have running := call.closing.2 ▸ running
      exact call.heard running keeps (before running)
  | close close =>
      cases close with
      | stop _ => cases running
      | join _ _ => exact before running
      | notifyAll _ =>
          cases before running with
          | inr notifies => exact Or.inr notifies
          | inl inSight =>
              cases inSight with
              | inl empty => exact Or.inl (Or.inl empty)
              | inr looks =>
                  obtain ⟨w, looks⟩ := looks
                  exact Or.inl (Or.inr ⟨w, looks_wake looks⟩)
  | outside => exact before running

/-- The exception that ends the process leaves its worker at the end of `workThread`. -/
theorem Step.finished (step : Step code s s') (alive : s.1.terminated = false)
    (dead : s'.1.terminated = true) : ∃ w, s'.1.worker w = .finished := by
  cases step with
  | @work w _ _ _ _ work =>
      cases work with
      | notifyThrows _ _ => exact ⟨w, goto_self ..⟩
      | _ => exact absurd (alive.symm.trans dead) (by simp)
  | call call =>
      cases call <;> exact absurd (alive.symm.trans dead) (by simp)
  | close close =>
      cases close <;> exact absurd (alive.symm.trans dead) (by simp)
  | outside => exact absurd (alive.symm.trans dead) (by simp)

/-! ## After a notification that was not heard -/

omit [DecidableEq κ] in
/-- A worker that has turned away from the queue leaves everything as it is and gets nearer to
    its sleep. -/
theorem Work.away [Fintype ω] {w : ω} {x x' : σ} (work : Work code w p x p' x')
    (awake : p.worker w ≠ .blocked) (away : ¬ (p.worker w).looks) :
    p'.caller = p.caller ∧ p'.m_tasks = p.m_tasks ∧ p'.terminated = p.terminated ∧
      p'.rank (fun _ _ => 0) 0 < p.rank (fun _ _ => 0) 0 := by
  cases work with
  | lockWaiting at_w _ | wait at_w =>
      refine ⟨rfl, rfl, rfl, rank_goto (w := w) rfl rfl ?_⟩
      rw [at_w]
      simp [Worker.rank]
  | wakeUp at_w => exact absurd at_w awake
  | running at_w _ | notRunning at_w _ | notEmpty at_w _ | empty at_w _ | popFails at_w _
  | pop at_w _ | callExecute at_w | execute at_w _ | returns at_w _ | notify at_w _
  | notifyThrows at_w _ | relockWaiting at_w _ | unlockWaiting at_w =>
      rw [at_w] at away
      exact absurd trivial away

/-- The pool is running and holds a task that no worker has yet to look at, and nobody is about
    to notify. -/
structure Unseen (p : Pool τ ω κ β) : Prop where
  running : p.m_isRunning = true
  alive : p.terminated = false
  settled : ∀ c tsk, p.caller c ≠ .notifyOne tsk
  away : ¬ p.InSight

omit [DecidableEq κ] in
theorem Unseen.work [Fintype ω] {w : ω} {x x' : σ} (unseen : p.Unseen)
    (work : Work code w p x p' x') (awake : p.worker w ≠ .blocked) : p'.Unseen := by
  have away : ¬ (p.worker w).looks := fun looks => unseen.away (Or.inr ⟨w, looks⟩)
  obtain ⟨caller, _, terminated, _⟩ := work.away awake away
  refine ⟨work.closing.2.trans unseen.running, terminated.trans unseen.alive, ?_,
    work.not_inSight awake unseen.away⟩
  rw [caller]
  exact unseen.settled

/-- Left alone, the workers all go to sleep, with the task in the queue. -/
theorem Unseen.sleep [Fintype ω] (reached : Reachable (system code) s) (unseen : s.1.Unseen) :
    ∃ t, Relation.ReflTransGen (system code).step s t ∧ ¬ t.1.SomeoneAwake := by
  have later : ∀ t, Reachable (alone code s) t → t.1.Unseen := by
    intro t later
    induction later with
    | init same =>
        subst same
        exact unseen
    | step _ move ih =>
        obtain ⟨_, w, awake, work⟩ := move
        exact ih.work work awake
  have falls : ∀ t t', Reachable (alone code s) t → (alone code s).step t t' →
      t'.1.rank (fun _ _ => 0) 0 < t.1.rank (fun _ _ => 0) 0 := by
    intro t t' reached step
    obtain ⟨_, w, awake, work⟩ := step
    have away : ¬ (t.1.worker w).looks := fun looks => (later t reached).away (Or.inr ⟨w, looks⟩)
    exact (work.away awake away).2.2.2
  have last : ∀ t, Reachable (alone code s) t → ¬ (∀ w, t.1.worker w = .blocked) →
      ∃ t', (alone code s).step t t' := by
    intro t reached' more
    by_contra stuck
    have unseen := later t reached'
    apply more
    apply asleep_of_stuck (reachable_of_alone reached reached') unseen.running _ unseen.alive
      fun t' step => stuck ⟨t', step⟩
    intro executing
    obtain ⟨w, e, tsk, b, at_w⟩ := executing
    refine absurd (Or.inr ⟨w, ?_⟩) unseen.away
    rw [at_w]
    trivial
  obtain ⟨t, path, asleep⟩ := exists_done falls last (.init rfl)
  refine ⟨t, ?_, ?_⟩
  · refine Relation.ReflTransGen.mono ?_ _ _ path
    intro a b step
    obtain ⟨alive, w, _, work⟩ := step
    exact ⟨alive, .work work⟩
  · intro someone
    have unseen := later t (Reachable.later (.init rfl) path)
    obtain ⟨w, awake⟩ := someone unseen.running unseen.settled fun empty => unseen.away (Or.inl empty)
    exact awake (asleep w)

omit [DecidableEq τ] in
theorem Call.caller_of_ne {c d : κ} (call : Call c p p') (other : d ≠ c) :
    p'.caller d = p.caller d := by
  cases call <;> exact Function.update_of_ne other ..

theorem Unheard.unseen (unheard : Unheard s.1 s'.1) (alive : s.1.terminated = false)
    (step : Step code s s') : s'.1.Unseen := by
  obtain ⟨running, awake, away, c, tsk, at_c, left, others⟩ := unheard
  have moved : s'.1.caller c ≠ s.1.caller c := by simp [at_c, left]
  cases step with
  | work work => exact absurd (congrFun work.caller c) moved
  | close close => cases close <;> exact absurd rfl moved
  | outside => exact absurd rfl moved
  | @call d _ _ _ call =>
      obtain rfl : c = d := by
        by_contra other
        exact moved (call.caller_of_ne other)
      cases call with
      | pushBack _ at_d | callWait _ at_d | waitReturns at_d _ => cases at_c.symm.trans at_d
      | notifyOne w _ asleep => exact absurd asleep (awake w)
      | notifyNobody _ _ =>
          refine ⟨running, alive, ?_, away⟩
          intro e tsk' at_e
          by_cases same : e = c
          · subst same
            simp at at_e
          · simp only [Function.update_of_ne same] at at_e
            exact others e tsk' same at_e

/-- While the queue is shorter than its counter can say, a nonempty queue of a running pool always
    has a worker that is not asleep, if every notification is heard. From a notification that is
    not heard, the workers can all go to sleep. -/
theorem no_lost_wakeup [Fintype ω] {n : Nat} {run : Nat → Pool τ ω κ β × σ}
    (isRun : IsRun (system code) n run)
    (small : ∀ i ≤ n, (run i).1.m_tasks.cells.length < 2 ^ 32) :
    ((∀ i < n, ¬ Unheard (run i).1 (run (i + 1)).1) → ∀ i ≤ n, (run i).1.SomeoneAwake) ∧
    ∀ i < n, Unheard (run i).1 (run (i + 1)).1 →
      ∃ t, Relation.ReflTransGen (system code).step (run (i + 1)) t ∧ ¬ t.1.SomeoneAwake := by
  constructor
  · intro heard i le
    have kept : (run i).1.SomeoneAwake ∧ ((run i).1.terminated = false →
        (run i).1.m_isRunning = true → (run i).1.Heard) := by
      apply isRun.carry (fun s => s.1.SomeoneAwake ∧ (s.1.terminated = false →
        s.1.m_isRunning = true → s.1.Heard)) (Nat.zero_le i) le
      · have none : (run 0).1.Heard := Or.inl (Or.inl (Idle.m_tasks isRun.start))
        exact ⟨none.awake, fun _ _ => none⟩
      · intro j _ before step kept
        obtain ⟨alive, step⟩ := step
        have next : (run (j + 1)).1.terminated = false → (run (j + 1)).1.m_isRunning = true →
            (run (j + 1)).1.Heard := fun alive' running =>
          step.heard running (small j (by omega)) alive' (heard j (by omega)) (kept.2 alive)
        refine ⟨?_, next⟩
        intro running
        cases dead : (run (j + 1)).1.terminated with
        | false => exact (next dead running).awake running
        | true =>
            obtain ⟨w, finished⟩ := step.finished alive dead
            exact fun _ _ => ⟨w, by simp [finished]⟩
    exact kept.1
  · intro i lt unheard
    obtain ⟨alive, step⟩ := isRun.next i lt
    exact (unheard.unseen alive step).sleep (isRun.reachable (i + 1) lt)

/-- A pool with two workers, one caller and one task. -/
private abbrev Pair := Pool Unit Bool Unit Unit

/-- One worker has found the queue empty when the task is added, the other has not looked yet. -/
private def halfAway : List (Pair → Pair) := [
  fun p => p.goto true .testEmpty,
  fun p => p.goto true .lockWaiting,
  fun p => { p.goto true .wait with m_waiting_mutex := some true },
  fun p => { p with
    m_tasks := p.m_tasks.push_back ()
    caller := Function.update p.caller () (.notifyOne ())
    added := p.added ++ [()] },
  fun p => { p with caller := Function.update p.caller () .outside },
  fun p => { p.goto true .blocked with m_waiting_mutex := none }]

/-- A fresh pool after the first `i` actions. -/
private def afterActions (i : Nat) : Pair × Unit :=
  ((halfAway.take i).foldl (fun p action => action p) fresh, ())

theorem no_lost_wakeup_two_workers : ∃ run : Nat → Pair × Unit,
    IsRun (system returnsAtOnce) 6 run ∧ (run 6).1.m_tasks.cells = [()] ∧
      (run 6).1.worker true = .blocked ∧ ∀ i ≤ 6, (run i).1.SomeoneAwake := by
  have isRun : IsRun (system returnsAtOnce) 6 afterActions := by
    refine ⟨idle_fresh, fun i lt => ?_⟩
    interval_cases i
    · exact ⟨rfl, .work (.running (w := true) rfl rfl)⟩
    · exact ⟨rfl, .work (.empty (w := true) rfl rfl)⟩
    · exact ⟨rfl, .work (.lockWaiting (w := true) rfl rfl)⟩
    · exact ⟨rfl, .call (.pushBack (c := ()) () rfl)⟩
    · exact ⟨rfl, .call (.notifyNobody (c := ()) rfl (by rintro (_ | _) <;> exact nofun))⟩
    · exact ⟨rfl, .work (.wait (w := true) rfl)⟩
  refine ⟨afterActions, isRun, rfl, rfl, (no_lost_wakeup isRun ?_).1 ?_⟩
  · intro i le
    interval_cases i <;> decide
  · intro i lt unheard
    -- the second worker has not begun
    apply unheard.2.2.1
    refine Or.inr ⟨false, ?_⟩
    interval_cases i <;> trivial

/-- The worker finds the queue empty and takes the mutex; then a task is added, and the
    notification finds nobody asleep; then the worker goes to sleep. -/
theorem lost_wakeup : ¬ ∀ s : Single × Unit, Reachable (system returnsAtOnce) s →
    s.1.SomeoneAwake := by
  intro claim
  have start : Reachable (system returnsAtOnce) ((fresh : Single), ()) := .init idle_fresh
  have running := start.step ⟨rfl, .work (.running (w := ()) rfl rfl)⟩
  have empty := running.step ⟨rfl, .work (.empty (w := ()) rfl rfl)⟩
  have locked := empty.step ⟨rfl, .work (.lockWaiting (w := ()) rfl rfl)⟩
  have pushed := locked.step ⟨rfl, .call (.pushBack (c := ()) () rfl)⟩
  have lost := pushed.step ⟨rfl, .call (.notifyNobody (c := ()) rfl (by simp [goto]))⟩
  have asleep := lost.step ⟨rfl, .work (.wait (w := ()) rfl)⟩
  obtain ⟨w, awake⟩ := claim _ asleep rfl (by simp [goto]) (by simp [goto])
  exact awake rfl

end KMeans.Pool
