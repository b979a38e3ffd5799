import Mathlib.Tactic.IntervalCases
import KMeans.Threadsafe.PoolGuarantees

/-! # Shutdown of a `CThreadPool`

The destructor sets `m_isRunning` to false, notifies all workers and joins them. It
reaches a worker that is blocked in `wait` or about to test `m_isRunning`. A worker that
has tested the flag before goes on to its next `wait`, where nothing wakes it up any
more; and a worker that is woken up leaves without another look at the queue.
-/

namespace KMeans

open Transition

variable {τ ω κ σ β : Type}

/-- Before its next test of `m_isRunning` the worker looks at the queue. -/
def Worker.drains : Worker τ β → Prop
  | .testEmpty | .popFront | .callExecute _ _ | .execute _ _ _ | .notify _ _ => True
  | _ => False

/-- Before its next test of `m_isRunning` the worker goes to sleep in `wait`. -/
def Worker.boundToWait : Worker τ β → Prop
  | .lockWaiting | .wait => True
  | point => point.drains

namespace Pool

/-- The destructor has called `notify_all`. -/
def HasNotified (p : Pool τ ω κ β) : Prop := p.closing = .notified ∨ p.closing = .joined

/-- No worker is blocked in `wait` after `notify_all`, so that every `join` can complete. -/
def NobodyHangs (p : Pool τ ω κ β) : Prop := p.HasNotified → ∀ w, p.worker w ≠ .blocked

/-- In the step from `p` to `p'` the destructor sets `m_isRunning` to false. -/
def Stops (p p' : Pool τ ω κ β) : Prop := p.closing = .notBegun ∧ p'.closing = .stopped

/-- In the step from `p` to `p'` the destructor calls `notify_all`. -/
def NotifiesAll (p p' : Pool τ ω κ β) : Prop := p.closing = .stopped ∧ p'.closing = .notified

/-- All workers have left `workThread`, none of them by an exception. -/
def AllLeft (p : Pool τ ω κ β) : Prop := p.terminated = false ∧ ∀ w, p.worker w = .finished

variable [DecidableEq τ] [DecidableEq ω] [DecidableEq κ] {code : TaskCode τ σ β}
  {s s' : Pool τ ω κ β × σ}

/-! ## What one action does -/

/-- A worker goes on by itself, or is woken up. -/
theorem Step.point (step : Step code s s') (w : ω) : s'.1.worker w = s.1.worker w ∨
    (s.1.worker w = .blocked ∧ s'.1.worker w = .relockWaiting) ∨ Work code w s.1 s.2 s'.1 s'.2 := by
  cases step with
  | @work v _ _ _ _ work =>
      by_cases same : w = v
      · subst same
        exact Or.inr (Or.inr work)
      · exact Or.inl (work.others same)
  | @call _ p _ _ call =>
      cases call with
      | notifyOne v _ at_v =>
          by_cases same : w = v
          · subst same
            exact Or.inr (Or.inl ⟨at_v, goto_self p w _⟩)
          · exact Or.inl (goto_other p same _)
      | pushBack _ _ | notifyNobody _ _ | callWait _ _ | waitReturns _ _ => exact Or.inl rfl
  | @close p _ _ close =>
      cases close with
      | stop _ | join _ _ => exact Or.inl rfl
      | notifyAll _ =>
          cases at_w : p.worker w with
          | blocked => exact Or.inr (Or.inl ⟨rfl, by simp only [at_w, wake]⟩)
          | _ => exact Or.inl (by simp only [at_w, wake])
  | outside => exact Or.inl rfl

omit [DecidableEq κ] in
theorem Work.closing {w : ω} {p p' : Pool τ ω κ β} {x x' : σ} (work : Work code w p x p' x') :
    p'.closing = p.closing ∧ p'.m_isRunning = p.m_isRunning := by
  cases work <;> exact ⟨rfl, rfl⟩

omit [DecidableEq τ] in
theorem Call.closing {c : κ} {p p' : Pool τ ω κ β} (call : Call c p p') :
    p'.closing = p.closing ∧ p'.m_isRunning = p.m_isRunning := by
  cases call <;> exact ⟨rfl, rfl⟩

/-- Only the destructor touches `m_isRunning`. -/
theorem Step.closing (step : Step code s s') :
    (s'.1.closing = s.1.closing ∧ s'.1.m_isRunning = s.1.m_isRunning) ∨ Close s.1 s'.1 := by
  cases step with
  | work work => exact Or.inl work.closing
  | call call => exact Or.inl call.closing
  | close close => exact Or.inr close
  | outside => exact Or.inl ⟨rfl, rfl⟩

omit [DecidableEq τ] [DecidableEq ω] [DecidableEq κ] in
theorem Close.stopped {p p' : Pool τ ω κ β} (close : Close p p')
    (stopped : p.closing ≠ .notBegun → p.m_isRunning = false) : p'.m_isRunning = false := by
  cases close with
  | stop _ => rfl
  | notifyAll at_c => exact stopped (by simp [at_c])
  | join at_c _ => exact stopped (by simp [at_c])

theorem Step.stopped (step : Step code s s') (stopped : s.1.m_isRunning = false) :
    s'.1.m_isRunning = false := by
  cases step.closing with
  | inl still => exact still.2.trans stopped
  | inr close => exact close.stopped fun _ => stopped

omit [DecidableEq τ] [DecidableEq ω] [DecidableEq κ] in
theorem Close.stop_eq {p p' : Pool τ ω κ β} (close : Close p p') (stops : Stops p p') :
    p' = { p with closing := .stopped, m_isRunning := false } := by
  cases close with
  | stop _ => rfl
  | notifyAll at_c | join at_c _ => simp [stops.1] at at_c

omit [DecidableEq τ] [DecidableEq ω] [DecidableEq κ] in
theorem Close.notifyAll_eq {p p' : Pool τ ω κ β} (close : Close p p') (notifies : NotifiesAll p p') :
    p' = { p with closing := .notified, worker := fun w => wake (p.worker w) } := by
  cases close with
  | notifyAll _ => rfl
  | stop at_c | join at_c _ => simp [notifies.1] at at_c

theorem Step.stop_eq (step : Step code s s') (stops : Stops s.1 s'.1) :
    s'.1 = { s.1 with closing := .stopped, m_isRunning := false } := by
  cases step.closing with
  | inl still => simp [stops.1, stops.2] at still
  | inr close => exact close.stop_eq stops

theorem Step.notifyAll_eq (step : Step code s s') (notifies : NotifiesAll s.1 s'.1) :
    s'.1 = { s.1 with closing := .notified, worker := fun w => wake (s.1.worker w) } := by
  cases step.closing with
  | inl still => simp [notifies.1, notifies.2] at still
  | inr close => exact close.notifyAll_eq notifies

/-- A pool whose destructor has begun is not running any more. -/
theorem stopped_of_closing (reached : Reachable (system code) s) :
    s.1.closing ≠ .notBegun → s.1.m_isRunning = false := by
  induction reached with
  | init idle =>
      intro begun
      exact absurd (Idle.closing idle) begun
  | step _ move ih =>
      intro begun
      cases move.2.closing with
      | inl still => exact still.2.trans (ih (still.1 ▸ begun))
      | inr close => exact close.stopped ih

/-! ## Hanging -/

omit [DecidableEq κ] in
/-- In a stopped pool, a worker that is on its way out stays on it. -/
theorem Work.leaving {w : ω} {p p' : Pool τ ω κ β} {x x' : σ} (work : Work code w p x p' x')
    (stopped : p.m_isRunning = false) (free : ¬ (p.worker w).boundToWait) :
    ¬ (p'.worker w).boundToWait ∧ p'.worker w ≠ .blocked := by
  cases work with
  | running _ running => simp [stopped] at running
  | notRunning _ _ | wakeUp _ | relockWaiting _ _ | unlockWaiting _ =>
      simp [Worker.boundToWait, Worker.drains]
  | notEmpty at_w _ | empty at_w _ | popFails at_w _ | pop at_w _ | callExecute at_w
  | execute at_w _ | returns at_w _ | notify at_w _ | notifyThrows at_w _ | lockWaiting at_w _
  | wait at_w =>
      rw [at_w] at free
      exact absurd trivial free

omit [DecidableEq κ] in
/-- A worker that is bound to sleep stays so until it sleeps, or dies of an exception. -/
theorem Work.bound {w : ω} {p p' : Pool τ ω κ β} {x x' : σ} (work : Work code w p x p' x')
    (bound : (p.worker w).boundToWait) : (p'.worker w).boundToWait ∨ p'.worker w = .blocked ∨
      p'.terminated = true := by
  cases work with
  | running _ _ | notEmpty _ _ | empty _ _ | popFails _ _ | pop _ _ | callExecute _ | execute _ _
  | returns _ _ | notify _ _ | lockWaiting _ _ => simp [Worker.boundToWait, Worker.drains]
  | wait _ => simp
  | notifyThrows _ _ => exact Or.inr (Or.inr rfl)
  | notRunning at_w _ | wakeUp at_w | relockWaiting at_w _ | unlockWaiting at_w =>
      rw [at_w] at bound
      exact bound.elim

/-- After `notify_all` every worker is on its way out. -/
def Leaving (p : Pool τ ω κ β) : Prop :=
  p.HasNotified → ∀ w, ¬ (p.worker w).boundToWait ∧ p.worker w ≠ .blocked

omit [DecidableEq τ] in
theorem wake_leaving {point : Worker τ β} (free : ¬ point.boundToWait) :
    ¬ (wake point).boundToWait ∧ wake point ≠ .blocked := by
  refine ⟨?_, wake_ne_blocked point⟩
  cases point <;> exact free

omit [DecidableEq τ] in
theorem wake_bound {point : Worker τ β} (bound : point.boundToWait) : (wake point).boundToWait := by
  cases point <;> exact bound

theorem Step.hasNotified (step : Step code s s') (before : s.1.HasNotified) :
    s'.1.HasNotified := by
  cases step.closing with
  | inl still =>
      rw [HasNotified, still.1]
      exact before
  | inr close =>
      generalize s'.1 = p' at close
      cases close with
      | stop at_c => simp [HasNotified, at_c] at before
      | notifyAll _ => exact Or.inl rfl
      | join _ _ => exact Or.inr rfl

theorem Step.leaving (step : Step code s s')
    (stopped : s.1.closing ≠ .notBegun → s.1.m_isRunning = false)
    (inTime : NotifiesAll s.1 s'.1 → ∀ w, ¬ (s.1.worker w).boundToWait) (before : s.1.Leaving) :
    s'.1.Leaving := by
  intro notified w
  by_cases earlier : s.1.HasNotified
  · have free := before earlier w
    rcases step.point w with still | ⟨asleep, -⟩ | work
    · rw [still]
      exact free
    · exact absurd asleep free.2
    · refine work.leaving (stopped ?_) free.1
      rcases earlier with at_c | at_c <;> simp [at_c]
  · -- `notify_all` is this step.
    cases step.closing with
    | inl still =>
        rw [HasNotified, still.1] at notified
        exact absurd notified earlier
    | inr close =>
        have now : NotifiesAll s.1 s'.1 := by
          generalize s'.1 = p' at close notified
          cases close with
          | stop _ => cases notified <;> contradiction
          | notifyAll at_c => exact ⟨at_c, rfl⟩
          | join at_c _ => exact absurd (Or.inl at_c) earlier
        rw [step.notifyAll_eq now]
        exact wake_leaving (inTime now w)

/-- Until it leaves, a worker that is bound to sleep is asleep at some time. -/
theorem asleep_before_left {n : Nat} {run : Nat → Pool τ ω κ β × σ}
    (isRun : IsRun (system code) n run) {i j : Nat} (le : i ≤ j) (last : j ≤ n) {w : ω}
    (bound : ((run i).1.worker w).boundToWait) (left : (run j).1.AllLeft) :
    ∃ l, i ≤ l ∧ l ≤ j ∧ (run l).1.worker w = .blocked := by
  by_contra awake
  push Not at awake
  have still := isRun.carry (fun s => (s.1.worker w).boundToWait ∨ s.1.terminated = true) le last
    (Or.inl bound) fun l low high step before => by
      have running : (run l).1.terminated = false := step.1
      have here := before.resolve_right (by simp [running])
      rcases step.2.point w with same | ⟨asleep, -⟩ | work
      · rw [same]
        exact Or.inl here
      · exact absurd asleep (awake l low (by omega))
      · rcases work.bound here with bound | asleep | dead
        · exact Or.inl bound
        · exact absurd asleep (awake (l + 1) (by omega) high)
        · exact Or.inr dead
  rcases still with here | dead
  · rw [left.2 w] at here
    exact here.elim
  · simp [left.1] at dead

/-- If at `notify_all` no worker is bound to sleep, nobody hangs in any later state. And if
    one is, then it hangs at some time before all workers have left. -/
theorem shutdown_hangs_iff {n : Nat} {run : Nat → Pool τ ω κ β × σ}
    (isRun : IsRun (system code) n run) :
    ((∀ i < n, NotifiesAll (run i).1 (run (i + 1)).1 →
        ∀ w, ¬ ((run i).1.worker w).boundToWait) → ∀ i ≤ n, (run i).1.NobodyHangs) ∧
    ((run n).1.AllLeft → (∀ i ≤ n, (run i).1.NobodyHangs) →
      ∀ i < n, NotifiesAll (run i).1 (run (i + 1)).1 →
        ∀ w, ¬ ((run i).1.worker w).boundToWait) := by
  constructor
  · intro inTime i le
    have leaving : (run i).1.Leaving := by
      induction i with
      | zero =>
          intro notified
          have fresh : (run 0).1.closing = .notBegun := isRun.start.closing
          cases notified with
          | inl at_c | inr at_c => simp [fresh] at at_c
      | succ i ih =>
          have step := isRun.next i le
          exact step.2.leaving (stopped_of_closing (isRun.reachable i (by omega))) (inTime i le)
            (ih (by omega))
    exact fun notified w => (leaving notified w).2
  · intro left safe i lt notifies w bound
    have step := isRun.next i lt
    have after := step.2.notifyAll_eq notifies
    have still : ((run (i + 1)).1.worker w).boundToWait := by
      rw [after]
      exact wake_bound bound
    obtain ⟨l, low, high, asleep⟩ := asleep_before_left isRun lt le_rfl still left
    refine safe l high (isRun.carry (fun s => s.1.HasNotified) low high ?_ ?_) w asleep
    · rw [after]
      exact Or.inl rfl
    · exact fun _ _ _ step before => step.2.hasNotified before

/-- A pool with one worker, one caller and one task. -/
abbrev Single := Pool Unit Unit Unit Unit

/-- `Execute` returns at once. -/
def returnsAtOnce : TaskCode Unit Unit Unit :=
  ⟨fun _ => (), fun _ _ _ _ _ => False, fun _ _ _ => True⟩

/-- A fresh pool after the first `i` of some actions. -/
private def performed (actions : List (Single → Single)) (i : Nat) : Single × Unit :=
  ((actions.take i).foldl (fun p action => action p) fresh, ())

private def stop (p : Single) : Single := { p with closing := .stopped, m_isRunning := false }

private def notifyAll (p : Single) : Single :=
  { p with closing := .notified, worker := fun w => wake (p.worker w) }

private def leave (p : Single) : Single := p.goto () .finished

/-- The worker goes to sleep; then the destructor wakes it, and it leaves. -/
private def sleeping : List (Single → Single) := [
  fun p => p.goto () .testEmpty,
  fun p => p.goto () .lockWaiting,
  fun p => { p.goto () .wait with m_waiting_mutex := some () },
  fun p => { p.goto () .blocked with m_waiting_mutex := none },
  stop,
  notifyAll,
  fun p => { p.goto () .unlockWaiting with m_waiting_mutex := some () },
  fun p => { p.goto () .testRunning with m_waiting_mutex := none },
  leave]

private theorem sleeping_isRun : IsRun (system returnsAtOnce) 9 (performed sleeping) := by
  refine ⟨idle_fresh, fun i lt => ?_⟩
  interval_cases i
  · exact ⟨rfl, .work (.running (w := ()) rfl rfl)⟩
  · exact ⟨rfl, .work (.empty (w := ()) rfl rfl)⟩
  · exact ⟨rfl, .work (.lockWaiting (w := ()) rfl rfl)⟩
  · exact ⟨rfl, .work (.wait (w := ()) rfl)⟩
  · exact ⟨rfl, .close (.stop rfl)⟩
  · exact ⟨rfl, .close (.notifyAll rfl)⟩
  · exact ⟨rfl, .work (.relockWaiting (w := ()) rfl rfl)⟩
  · exact ⟨rfl, .work (.unlockWaiting (w := ()) rfl)⟩
  · exact ⟨rfl, .work (.notRunning (w := ()) rfl rfl)⟩

/-- The worker is asleep at `notify_all`, and wakes up. -/
theorem shutdown_hangs_iff_asleep : ∃ run : Nat → Single × Unit,
    IsRun (system returnsAtOnce) 9 run ∧ (run 5).1.worker () = .blocked ∧
      NotifiesAll (run 5).1 (run 6).1 ∧ (run 9).1.AllLeft ∧ ∀ i ≤ 9, (run i).1.NobodyHangs := by
  refine ⟨_, sleeping_isRun, rfl, ⟨rfl, rfl⟩, ⟨rfl, fun _ => rfl⟩,
    (shutdown_hangs_iff sleeping_isRun).1 fun i lt notifies w => ?_⟩
  interval_cases i
  -- only the sixth action notifies
  iterate 5 cases notifies.1
  · exact id
  all_goals cases notifies.1

/-- The worker finds `m_isRunning` true and the queue empty; then the destructor notifies
    all workers, none of which is asleep; then the worker goes to sleep. -/
theorem shutdown_hangs :
    ¬ ∀ s : Single × Unit, Reachable (system returnsAtOnce) s → s.1.NobodyHangs := by
  intro claim
  have start : Reachable (system returnsAtOnce) ((fresh : Single), ()) := .init idle_fresh
  have running := start.step ⟨rfl, .work (.running (w := ()) rfl rfl)⟩
  have empty := running.step ⟨rfl, .work (.empty (w := ()) rfl rfl)⟩
  have locked := empty.step ⟨rfl, .work (.lockWaiting (w := ()) rfl rfl)⟩
  have stopped := locked.step ⟨rfl, .close (.stop rfl)⟩
  have notified := stopped.step ⟨rfl, .close (.notifyAll rfl)⟩
  have asleep := notified.step ⟨rfl, .work (.wait (w := ()) rfl)⟩
  exact claim _ asleep (Or.inl rfl) () rfl

/-! ## Dropped tasks -/

/-- Every task that was added has been executed and notified, and the queue is empty. -/
def Complete (p : Pool τ ω κ β) : Prop := p.m_tasks.cells = [] ∧
  ∀ e < p.added.length, e ∈ p.executed.map Prod.snd ∧ e ∈ p.notified

/-- Nothing is in the queue, or some worker looks at the queue before it looks at
    `m_isRunning`. -/
def InHands (p : Pool τ ω κ β) : Prop := p.m_tasks.cells = [] ∨ ∃ w, (p.worker w).drains

/-- Without a call of `AddTask`, the queue changes only where a worker pops its front. -/
theorem Step.cells (step : Step code s s') (added : s'.1.added = s.1.added) :
    s'.1.m_tasks.cells = s.1.m_tasks.cells ∨ ∃ w front,
      s.1.worker w = .popFront ∧ (s'.1.worker w).drains ∧
      s.1.m_tasks.cells = front :: s'.1.m_tasks.cells := by
  cases step with
  | @work w _ _ _ _ work =>
      cases work with
      | pop at_w popped =>
          refine Or.inr ⟨w, _, at_w, ?_, BlockingList.pop_front_eq_some popped⟩
          change ((goto _ w _).worker w).drains
          rw [goto_self]
          trivial
      | _ => exact Or.inl rfl
  | call call =>
      cases call with
      | pushBack tsk _ => simp at added
      | _ => exact Or.inl rfl
  | close close => cases close <;> exact Or.inl rfl
  | outside => exact Or.inl rfl

omit [DecidableEq κ] in
/-- A worker that drains the queue does so until it finds the queue empty. -/
theorem Work.drains {w : ω} {p p' : Pool τ ω κ β} {x x' : σ} (work : Work code w p x p' x')
    (busy : (p.worker w).drains) :
    (p'.worker w).drains ∨ p.m_tasks.empty = true ∨ p'.terminated = true := by
  cases work with
  | empty _ empty => exact Or.inr (Or.inl empty)
  | notifyThrows _ _ => exact Or.inr (Or.inr rfl)
  | notEmpty _ _ | popFails _ _ | pop _ _ | callExecute _ | execute _ _ | returns _ _ | notify _ _ =>
      simp [Worker.drains]
  | running at_w _ | notRunning at_w _ | lockWaiting at_w _ | wait at_w | wakeUp at_w
  | relockWaiting at_w _ | unlockWaiting at_w =>
      rw [at_w] at busy
      exact busy.elim

omit [DecidableEq κ] in
/-- In a stopped pool no worker starts to drain the queue. -/
theorem Work.not_drains {w : ω} {p p' : Pool τ ω κ β} {x x' : σ} (work : Work code w p x p' x')
    (stopped : p.m_isRunning = false) (free : ¬ (p.worker w).drains) : ¬ (p'.worker w).drains := by
  cases work with
  | running _ running => simp [stopped] at running
  | notRunning _ _ | lockWaiting _ _ | wait _ | wakeUp _ | relockWaiting _ _ | unlockWaiting _ =>
      simp [Worker.drains]
  | notEmpty at_w _ | empty at_w _ | popFails at_w _ | pop at_w _ | callExecute at_w
  | execute at_w _ | returns at_w _ | notify at_w _ | notifyThrows at_w _ =>
      rw [at_w] at free
      exact absurd trivial free

theorem Step.not_drains (step : Step code s s') (stopped : s.1.m_isRunning = false)
    (free : ∀ w, ¬ (s.1.worker w).drains) (w : ω) : ¬ (s'.1.worker w).drains := by
  rcases step.point w with still | ⟨-, woken⟩ | work
  · rw [still]
    exact free w
  · rw [woken]
    exact id
  · exact work.not_drains stopped (free w)

/-- Without further tasks, a queue in hands stays so. -/
theorem Step.inHands (step : Step code s s') (added : s'.1.added = s.1.added)
    (running : s'.1.terminated = false) (small : s.1.m_tasks.cells.length < 2 ^ 32)
    (before : s.1.InHands) :
    s'.1.m_tasks.cells.length < 2 ^ 32 ∧ s'.1.InHands := by
  rcases step.cells added with same | ⟨w, front, -, busy, popped⟩
  · refine ⟨same ▸ small, ?_⟩
    cases before with
    | inl empty => exact Or.inl (same.trans empty)
    | inr busy =>
        obtain ⟨w, busy⟩ := busy
        rcases step.point w with still | ⟨asleep, -⟩ | work
        · exact Or.inr ⟨w, still ▸ busy⟩
        · rw [asleep] at busy
          exact busy.elim
        · rcases work.drains busy with busy | empty | dead
          · exact Or.inr ⟨w, busy⟩
          · exact Or.inl (same.trans (BlockingList.cells_of_empty empty small))
          · simp [running] at dead
  · rw [popped, List.length_cons] at small
    exact ⟨by omega, Or.inr ⟨w, busy⟩⟩

omit [DecidableEq τ] [DecidableEq ω] [DecidableEq κ] in
theorem complete_of_left (sound : s.1.ledger.Sound) (left : s.1.AllLeft)
    (empty : s.1.m_tasks.cells = []) : s.1.Complete := by
  refine ⟨empty, fun e inside => ?_⟩
  have order : s.1.added = s.1.popped.map Prod.snd ++ s.1.m_tasks.cells := sound.order
  have popped : e < s.1.popped.length := by simpa [order, empty] using inside
  rcases sound.accounted e popped with notified | ⟨w, h, holds, -⟩
  · exact ⟨(sound.finished e notified).1, notified⟩
  · have free : s.1.ledger.hand w = none := by
      simp only [ledger, left.2 w]
      rfl
    rw [free] at holds
    cases holds

/-- When all workers have left, nothing is lost exactly if the queue was in hands when the
    destructor set `m_isRunning` to false. No task was added from there on; for the counter
    of the queue, it held fewer than `2 ^ 32` tasks. -/
theorem shutdown_complete_iff {n : Nat} {run : Nat → Pool τ ω κ β × σ}
    (isRun : IsRun (system code) n run) {i : Nat} (lt : i < n)
    (stops : Stops (run i).1 (run (i + 1)).1)
    (added : ∀ j ≤ n, i ≤ j → (run j).1.added = (run i).1.added) (left : (run n).1.AllLeft) :
    ((run i).1.m_tasks.cells.length < 2 ^ 32 → (run i).1.InHands → (run n).1.Complete) ∧
    ((run n).1.Complete → (run i).1.InHands) := by
  have same : ∀ j, i + 1 ≤ j → j < n → (run (j + 1)).1.added = (run j).1.added := fun j low high =>
    (added (j + 1) high (by omega)).trans (added j (by omega) (by omega)).symm
  have begun := (isRun.next i lt).2.stop_eq stops
  constructor
  · intro small inHands
    have kept : (run n).1.m_tasks.cells.length < 2 ^ 32 ∧ (run n).1.InHands := by
      apply isRun.carry (fun s => s.1.m_tasks.cells.length < 2 ^ 32 ∧ s.1.InHands) lt le_rfl
      · rw [begun]
        exact ⟨small, inHands⟩
      · intro j low high step before
        refine step.2.inHands (same j low high) ?_ before.1 before.2
        rcases Nat.lt_or_eq_of_le (Nat.succ_le_of_lt high) with inside | last
        · exact (isRun.next (j + 1) inside).1
        · have running := left.1
          rwa [← last] at running
    refine complete_of_left (sound_reachable (isRun.reachable n le_rfl)) left (kept.2.resolve_right ?_)
    rintro ⟨w, busy⟩
    rw [left.2 w] at busy
    exact busy
  · intro complete
    by_contra dropped
    have stored : (run i).1.m_tasks.cells ≠ [] := fun empty => dropped (Or.inl empty)
    have kept : (run n).1.m_isRunning = false ∧ (∀ w, ¬ ((run n).1.worker w).drains) ∧
        (run n).1.m_tasks.cells ≠ [] := by
      apply isRun.carry (fun s => s.1.m_isRunning = false ∧ (∀ w, ¬ (s.1.worker w).drains) ∧
        s.1.m_tasks.cells ≠ []) lt le_rfl
      · rw [begun]
        exact ⟨rfl, fun w busy => dropped (Or.inr ⟨w, busy⟩), stored⟩
      · rintro j low high step ⟨stopped, free, stored⟩
        refine ⟨step.2.stopped stopped, step.2.not_drains stopped free, ?_⟩
        rcases step.2.cells (same j low high) with still | ⟨w, -, at_w, -⟩
        · rw [still]
          exact stored
        · have busy := free w
          rw [at_w] at busy
          exact absurd trivial busy
    exact kept.2.2 complete.1

private def add (p : Single) : Single :=
  { p with
    m_tasks := p.m_tasks.push_back ()
    caller := Function.update p.caller () (.notifyOne ())
    added := p.added ++ [()] }

private def notifyNobody (p : Single) : Single :=
  { p with caller := Function.update p.caller () .outside }

/-- The worker executes the task while the destructor runs. -/
private def serving : List (Single → Single) := [
  fun p => p.goto () .testEmpty, add, notifyNobody, stop,
  fun p => p.goto () .popFront,
  fun p => { p.goto () (.callExecute p.popped.length ()) with
    m_tasks := (p.m_tasks.pop_front.map Prod.snd).getD p.m_tasks
    popped := p.popped ++ [((), ())] },
  fun p => { p.goto () (.execute 0 () ()) with executed := p.executed ++ [((), 0)] },
  fun p => { p.goto () (.notify 0 ()) with completed := p.completed ++ [0] },
  fun p => { p.goto () .testEmpty with
    ready := Function.update p.ready () true
    notified := p.notified ++ [0] },
  fun p => p.goto () .lockWaiting,
  fun p => { p.goto () .wait with m_waiting_mutex := some () },
  fun p => { p.goto () .blocked with m_waiting_mutex := none },
  notifyAll,
  fun p => { p.goto () .unlockWaiting with m_waiting_mutex := some () },
  fun p => { p.goto () .testRunning with m_waiting_mutex := none },
  leave]

theorem shutdown_complete_iff_serving : ∃ run : Nat → Single × Unit,
    IsRun (system returnsAtOnce) 16 run ∧ (run 16).1.added = [()] ∧ (run 16).1.Complete := by
  have isRun : IsRun (system returnsAtOnce) 16 (performed serving) := by
    refine ⟨idle_fresh, fun i lt => ?_⟩
    interval_cases i
    · exact ⟨rfl, .work (.running (w := ()) rfl rfl)⟩
    · exact ⟨rfl, .call (.pushBack (c := ()) () rfl)⟩
    · exact ⟨rfl, .call (.notifyNobody (c := ()) rfl (by simp [serving, add, goto]))⟩
    · exact ⟨rfl, .close (.stop rfl)⟩
    · exact ⟨rfl, .work (.notEmpty (w := ()) rfl rfl)⟩
    · exact ⟨rfl, .work (.pop (w := ()) rfl rfl)⟩
    · exact ⟨rfl, .work (.callExecute (w := ()) rfl)⟩
    · exact ⟨rfl, .work (.returns (w := ()) rfl trivial)⟩
    · exact ⟨rfl, .work (.notify (w := ()) rfl rfl)⟩
    · exact ⟨rfl, .work (.empty (w := ()) rfl rfl)⟩
    · exact ⟨rfl, .work (.lockWaiting (w := ()) rfl rfl)⟩
    · exact ⟨rfl, .work (.wait (w := ()) rfl)⟩
    · exact ⟨rfl, .close (.notifyAll rfl)⟩
    · exact ⟨rfl, .work (.relockWaiting (w := ()) rfl rfl)⟩
    · exact ⟨rfl, .work (.unlockWaiting (w := ()) rfl)⟩
    · exact ⟨rfl, .work (.notRunning (w := ()) rfl rfl)⟩
  refine ⟨_, isRun, rfl, (shutdown_complete_iff isRun (i := 3) (by omega) ⟨rfl, rfl⟩
    (fun j le low => by interval_cases j <;> rfl) ⟨rfl, fun _ => rfl⟩).1 (by decide) ?_⟩
  exact Or.inr ⟨(), trivial⟩

private def dropping : List (Single → Single) := [add, notifyNobody, stop, notifyAll, leave]

private theorem dropping_isRun : IsRun (system returnsAtOnce) 5 (performed dropping) := by
  refine ⟨idle_fresh, fun i lt => ?_⟩
  interval_cases i
  · exact ⟨rfl, .call (.pushBack (c := ()) () rfl)⟩
  · exact ⟨rfl, .call (.notifyNobody (c := ()) rfl (by simp [dropping, add, fresh]))⟩
  · exact ⟨rfl, .close (.stop rfl)⟩
  · exact ⟨rfl, .close (.notifyAll rfl)⟩
  · exact ⟨rfl, .work (.notRunning (w := ()) rfl rfl)⟩

/-- The task is added and the destructor runs before the worker has tested `m_isRunning`. -/
theorem shutdown_drops_task : ¬ ∀ (n : Nat) (run : Nat → Single × Unit) (i : Nat),
    IsRun (system returnsAtOnce) n run → i < n → Stops (run i).1 (run (i + 1)).1 →
    (∀ c, (run i).1.caller c = .outside) →
    (∀ j ≤ n, i ≤ j → (run j).1.added = (run i).1.added) → (run n).1.AllLeft →
    (run n).1.Complete := by
  intro claim
  have complete := claim 5 (performed dropping) 2 dropping_isRun (by omega) ⟨rfl, rfl⟩
    (fun _ => rfl) (fun j le low => by interval_cases j <;> rfl) ⟨rfl, fun _ => rfl⟩
  cases complete.1

end Pool

end KMeans
