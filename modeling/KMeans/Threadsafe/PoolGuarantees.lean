import Mathlib.Data.List.Duplicate
import Mathlib.Data.List.NodupEquivFin
import KMeans.Threadsafe.TaskLedger

/-! # What a `CThreadPool` guarantees, and what it does not

The books are in order: a task that is added once is executed once, by one worker, and
its promise is satisfied after that. But a notification can be lost: it does not wake up a
worker that has found the queue empty and is on its way to sleep.
-/

namespace KMeans.Pool

open Transition

variable {τ ω κ σ β : Type} [DecidableEq τ]

/-! ## Task accounting -/

/-- The task of an entry. -/
def task (p : Pool τ ω κ β) (e : Nat) : Option τ := p.popped[e]?.map Prod.snd

/-- What is in the books of a pool. -/
structure Accounting (p : Pool τ ω κ β) : Prop where
  /-- What was added is what was popped, followed by what is in the queue. -/
  order : p.added = p.popped.map Prod.snd ++ p.m_tasks.cells
  /-- The entry that a worker has in hand is one that this worker popped. -/
  owner : ∀ w h, (p.worker w).hand = some h → p.popped[h.entry]? = some (w, h.tsk)
  /-- No entry is executed twice. -/
  executedOnce : (p.executed.map Prod.snd).Nodup
  /-- An entry is executed by the worker that popped it. -/
  executor : ∀ w e, (w, e) ∈ p.executed → ∃ tsk, p.popped[e]? = some (w, tsk)
  /-- `Notify` runs at most once for a task that was added once. -/
  notifiedOnce : ∀ tsk, p.added.count tsk = 1 →
    (p.notified.filter fun e => p.task e = some tsk).length ≤ 1
  /-- `Notify` runs only after `Execute` has returned. -/
  notifiedAfter : ∀ e ∈ p.notified, e ∈ p.completed
  /-- `Wait` returns only after an `Execute` of the task has returned. -/
  waitedFor : ∀ c tsk, (c, tsk) ∈ p.waited → ∃ e ∈ p.completed, p.task e = some tsk

theorem eq_of_added_once {added : List τ} {tsk : τ} (once : added.count tsk = 1) {i j : Nat}
    (at_i : added[i]? = some tsk) (at_j : added[j]? = some tsk) : i = j := by
  wlog less : i < j generalizing i j
  · rcases Nat.lt_trichotomy i j with before | same | after
    · exact this at_i at_j before
    · exact same
    · exact (this at_j at_i after).symm
  obtain ⟨inside, here⟩ := List.getElem?_eq_some_iff.mp at_i
  obtain ⟨inside', there⟩ := List.getElem?_eq_some_iff.mp at_j
  have twice : List.Duplicate tsk added := List.duplicate_iff_exists_distinct_get.mpr
    ⟨⟨i, inside⟩, ⟨j, inside'⟩, less, here.symm, there.symm⟩
  have two := List.duplicate_iff_two_le_count.mp twice
  omega

theorem length_le_one_of_eq {l : List Nat} (distinct : l.Nodup)
    (same : ∀ i ∈ l, ∀ j ∈ l, i = j) : l.length ≤ 1 := by
  match l with
  | [] => simp
  | [_] => simp
  | i :: j :: _ =>
      have equal := same i (by simp) j (by simp)
      simp [equal] at distinct

variable [DecidableEq ω] [DecidableEq κ] {code : TaskCode τ σ β} {s : Pool τ ω κ β × σ}

theorem task_accounting (reached : Reachable (system code) s) : s.1.Accounting := by
  have sound := sound_reachable reached
  have order : s.1.added = s.1.popped.map Prod.snd ++ s.1.m_tasks.cells := sound.order
  refine ⟨order, sound.own, sound.executedOnce, sound.executor, fun tsk once => ?_,
    fun e notified => (sound.finished e notified).2, fun c tsk waited => ?_⟩
  · refine length_le_one_of_eq (sound.notifiedOnce.filter _) fun i first j second => ?_
    have at_i := sound.added_of_task (of_decide_eq_true (List.mem_filter.mp first).2)
    have at_j := sound.added_of_task (of_decide_eq_true (List.mem_filter.mp second).2)
    exact eq_of_added_once once at_i at_j
  · obtain ⟨e, notified, named⟩ := (sound.promise tsk).mp (sound.waits c tsk waited)
    exact ⟨e, (sound.finished e notified).2, named⟩

/-- A pool with one worker and one task. -/
private abbrev Small := Pool Unit Unit Unit Unit

/-- `Execute` returns at once. -/
private def returning : TaskCode Unit Unit Unit := ⟨fun _ => (), fun _ _ _ _ _ => False, fun _ _ _ => True⟩

theorem task_accounting_one_task : ∃ s : Small × Unit, Reachable (system returning) s ∧
    s.1.waited = [((), ())] ∧ s.1.Accounting := by
  have start : Reachable (system returning) ((fresh : Small), ()) := .init idle_fresh
  have pushed := start.step ⟨rfl, .call (.pushBack (c := ()) () rfl)⟩
  have added := pushed.step ⟨rfl, .call (.notifyNobody (c := ()) rfl (by simp [fresh]))⟩
  have running := added.step ⟨rfl, .work (.running (w := ()) rfl rfl)⟩
  have stored := running.step ⟨rfl, .work (.notEmpty (w := ()) rfl rfl)⟩
  have popped := stored.step ⟨rfl, .work (.pop (w := ()) rfl rfl)⟩
  have called := popped.step ⟨rfl, .work (.callExecute (w := ()) rfl)⟩
  have returned := called.step ⟨rfl, .work (.returns (w := ()) rfl trivial)⟩
  have notified := returned.step ⟨rfl, .work (.notify (w := ()) rfl rfl)⟩
  have waiting := notified.step ⟨rfl, .call (.callWait (c := ()) () rfl)⟩
  have waited := waiting.step ⟨rfl, .call (.waitReturns (c := ()) rfl rfl)⟩
  exact ⟨_, waited, rfl, task_accounting waited⟩

/-! ## Lost wake-ups -/

/-- If the pool is running, no `AddTask` is about to notify and the queue is not empty,
    then some worker is not blocked in `wait`. -/
def SomeoneAwake (p : Pool τ ω κ β) : Prop :=
  p.m_isRunning = true → (∀ c tsk, p.caller c ≠ .notifyOne tsk) → p.m_tasks.cells ≠ [] →
    ∃ w, p.worker w ≠ .blocked

/-- In the step from `p` to `p'` a worker goes to sleep in `wait` although the pool is
    running and a task is in the queue, while all other workers are blocked already and
    nobody is about to notify. -/
def LastToSleep (p p' : Pool τ ω κ β) : Prop :=
  p.m_isRunning = true ∧ (∀ c tsk, p.caller c ≠ .notifyOne tsk) ∧ p.m_tasks.cells ≠ [] ∧
    ∃ w, p.worker w = .wait ∧ p'.worker w = .blocked ∧ ∀ v ≠ w, p.worker v = .blocked

omit [DecidableEq τ] [DecidableEq κ] in
theorem awake_of_goto {p p' : Pool τ ω κ β} {w : ω} {point : Worker τ β}
    (moved : p'.worker = (p.goto w point).worker) (awake : point ≠ .blocked) :
    p'.SomeoneAwake := by
  refine fun _ _ _ => ⟨w, ?_⟩
  rw [moved, goto_self]
  exact awake

omit [DecidableEq κ] in
theorem Work.awake {w : ω} {p p' : Pool τ ω κ β} {x x' : σ} (work : Work code w p x p' x')
    (awake : ¬ LastToSleep p p') : p'.SomeoneAwake := by
  cases work with
  | wait at_w =>
      intro running settled stored
      by_contra asleep
      push Not at asleep
      refine awake ⟨running, settled, stored, w, at_w, asleep w, fun v other => ?_⟩
      exact (goto_other p other .blocked).symm.trans (asleep v)
  | _ => exact awake_of_goto (w := w) rfl (by simp)

omit [DecidableEq τ] [DecidableEq ω] in
theorem settled_of_update {p : Pool τ ω κ β} {c : κ} {point : Caller τ}
    (at_c : ∀ tsk, p.caller c ≠ .notifyOne tsk)
    (settled : ∀ d tsk, Function.update p.caller c point d ≠ .notifyOne tsk) (d : κ) (tsk : τ) :
    p.caller d ≠ .notifyOne tsk := by
  rcases eq_or_ne d c with rfl | other
  · exact at_c tsk
  · have same := settled d tsk
    rwa [Function.update_of_ne other] at same

omit [DecidableEq τ] in
theorem Call.awake [Nonempty ω] {c : κ} {p p' : Pool τ ω κ β} (call : Call c p p')
    (before : p.SomeoneAwake) : p'.SomeoneAwake := by
  cases call with
  | pushBack tsk _ =>
      intro _ settled _
      exact absurd (Function.update_self ..) (settled c tsk)
  | notifyOne w _ _ => exact awake_of_goto (w := w) (p := p) rfl (by simp)
  | notifyNobody _ none => exact fun _ _ _ => ⟨Classical.arbitrary ω, none _⟩
  | callWait tsk at_c =>
      exact fun running settled => before running (settled_of_update (by simp [at_c]) settled)
  | waitReturns at_c _ =>
      exact fun running settled => before running (settled_of_update (by simp [at_c]) settled)

omit [DecidableEq τ] in
theorem wake_ne_blocked (point : Worker τ β) : wake point ≠ .blocked := by
  cases point <;> simp [wake]

omit [DecidableEq κ] in
theorem Work.others {w : ω} {p p' : Pool τ ω κ β} {x x' : σ} (work : Work code w p x p' x')
    {v : ω} (other : v ≠ w) : p'.worker v = p.worker v := by
  cases work <;> exact goto_other p other _

/-- Only its own call of `wait` puts a worker to sleep. -/
theorem Step.wait_of_blocked {s s' : Pool τ ω κ β × σ} (step : Step code s s') {w : ω}
    (at_w : s.1.worker w = .wait) (asleep : s'.1.worker w = .blocked) :
    s'.1 = { s.1.goto w .blocked with m_waiting_mutex := none } := by
  cases step with
  | @work v _ _ _ _ work =>
      rcases eq_or_ne w v with rfl | other
      · cases work <;> first | rfl | simp_all
      · rw [work.others other, at_w] at asleep
        cases asleep
  | @call _ p _ _ call =>
      have unchanged : p.worker w = .blocked := by
        cases call with
        | notifyOne v _ at_v =>
            rcases eq_or_ne w v with rfl | other
            · exact at_v
            · exact (goto_other p other _).symm.trans asleep
        | _ => exact asleep
      exact absurd (at_w.symm.trans unchanged) (by simp)
  | close close =>
      cases close with
      | notifyAll _ => exact absurd asleep (wake_ne_blocked _)
      | stop _ | join _ _ => exact absurd (at_w.symm.trans asleep) (by simp)
  | outside => exact absurd (at_w.symm.trans asleep) (by simp)

theorem Step.asleep {s s' : Pool τ ω κ β × σ} (step : Step code s s')
    (sleeps : LastToSleep s.1 s'.1) : ¬ s'.1.SomeoneAwake := by
  obtain ⟨running, settled, stored, w, at_w, asleep, others⟩ := sleeps
  have next := step.wait_of_blocked at_w asleep
  intro someone
  rw [next] at someone
  obtain ⟨v, awake⟩ := someone running settled stored
  rcases eq_or_ne v w with rfl | other
  · exact awake (goto_self ..)
  · exact awake ((goto_other s.1 other _).trans (others v other))

end KMeans.Pool
