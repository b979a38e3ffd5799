import KMeans.General.Transition
import KMeans.Threadsafe.BlockingList

/-! # `mtp::CThreadPool`

The workers run `workThread`, other threads call `AddTask` and `CTask::Wait`, and one
thread runs the destructor. What a task's `Execute` does is a parameter: it works on a
state of its own, action by action, and decides when to return.

An entry is one `AddTask`; the entries are numbered in the order in which they are
popped. The numbers and the histories are there for the statements, and no action
depends on them.
-/

namespace KMeans

open Transition

/-- The `Execute` functions of the tasks `τ`: their local variables `β` when they start,
    their actions on the state `σ`, and when they return. -/
structure TaskCode (τ σ β : Type) where
  start : τ → β
  act : τ → β → σ → β → σ → Prop
  returns : τ → β → σ → Prop

/-- What a worker does next. -/
inductive Worker (τ β : Type)
  /-- `while (ths.m_isRunning)` -/
  | testRunning
  /-- `while (!task_list.empty())` -/
  | testEmpty
  /-- `task_list.pop_front(tsk)` -/
  | popFront
  /-- The call of `tsk->Execute()` -/
  | callExecute (entry : Nat) (tsk : τ)
  /-- Inside of `tsk->Execute()` -/
  | execute (entry : Nat) (tsk : τ) (locals : β)
  /-- `tsk->Notify()` -/
  | notify (entry : Nat) (tsk : τ)
  /-- `std::unique_lock<std::mutex> lk(ths.m_waiting_mutex)` -/
  | lockWaiting
  /-- The call of `ths.m_waiting.wait(lk)` -/
  | wait
  /-- Blocked in `wait`, with the mutex released -/
  | blocked
  /-- Woken up in `wait`, before the mutex is locked again -/
  | relockWaiting
  /-- The end of the scope of `lk` -/
  | unlockWaiting
  /-- `workThread` has returned. -/
  | finished

/-- A thread that uses the pool. -/
inductive Caller (τ : Type)
  | outside
  /-- `AddTask(tsk)` between `push_back` and `m_waiting.notify_one()` -/
  | notifyOne (tsk : τ)
  /-- Inside of `tsk->Wait()` -/
  | waitFor (tsk : τ)

/-- The progress of the destructor. -/
inductive Closing
  | notBegun
  /-- `m_isRunning = false` is done. -/
  | stopped
  /-- `m_waiting.notify_all()` is done. -/
  | notified
  /-- All workers are joined. -/
  | joined

/-- A pool with its workers `ω`, the threads `κ` that use it, and the promises of its tasks. -/
structure Pool (τ ω κ β : Type) where
  m_tasks : BlockingList τ
  m_isRunning : Bool
  /-- The owner of `m_waiting_mutex`. -/
  m_waiting_mutex : Option ω
  worker : ω → Worker τ β
  caller : κ → Caller τ
  closing : Closing
  /-- Whether `m_promise` of a task is satisfied. -/
  ready : τ → Bool
  /-- An exception has left a thread, and with it the process. -/
  terminated : Bool
  /-- The tasks in the order of their `push_back`. -/
  added : List τ
  /-- The tasks in the order of their `pop_front`, each with the worker that popped it. -/
  popped : List (ω × τ)
  /-- The calls of `Execute`: the worker and the entry. -/
  executed : List (ω × Nat)
  /-- The entries whose `Execute` has returned. -/
  completed : List Nat
  /-- The entries for which `Notify` was called. -/
  notified : List Nat
  /-- The calls of `Wait` that have returned. -/
  waited : List (κ × τ)

/-- `CTask::Notify`, that is `m_promise.set_value()`, which throws if the promise is
    satisfied already. -/
def CTask.Notify (satisfied : Bool) : Option Bool := if satisfied then none else some true

@[simp] theorem CTask.Notify_eq_some {satisfied value : Bool} :
    CTask.Notify satisfied = some value ↔ satisfied = false ∧ value = true := by
  cases satisfied <;> simp [CTask.Notify, eq_comm]

@[simp] theorem CTask.Notify_eq_none {satisfied : Bool} :
    CTask.Notify satisfied = none ↔ satisfied = true := by
  cases satisfied <;> simp [CTask.Notify]

namespace Pool

variable {τ ω κ σ β : Type} [DecidableEq τ] [DecidableEq ω] [DecidableEq κ]

/-- Worker `w` goes on to `point`. -/
def goto (p : Pool τ ω κ β) (w : ω) (point : Worker τ β) : Pool τ ω κ β :=
  { p with worker := Function.update p.worker w point }

omit [DecidableEq τ] [DecidableEq κ] in
@[simp] theorem goto_self (p : Pool τ ω κ β) (w : ω) (point : Worker τ β) :
    (p.goto w point).worker w = point := Function.update_self ..

omit [DecidableEq τ] [DecidableEq κ] in
theorem goto_other (p : Pool τ ω κ β) {v w : ω} (other : v ≠ w) (point : Worker τ β) :
    (p.goto w point).worker v = p.worker v := Function.update_of_ne other ..

/-- The actions of worker `w` in `workThread`. -/
inductive Work (code : TaskCode τ σ β) (w : ω) : Pool τ ω κ β → σ → Pool τ ω κ β → σ → Prop
  | running {p x} : p.worker w = .testRunning → p.m_isRunning = true →
      Work code w p x (p.goto w .testEmpty) x
  | notRunning {p x} : p.worker w = .testRunning → p.m_isRunning = false →
      Work code w p x (p.goto w .finished) x
  | notEmpty {p x} : p.worker w = .testEmpty → p.m_tasks.empty = false →
      Work code w p x (p.goto w .popFront) x
  | empty {p x} : p.worker w = .testEmpty → p.m_tasks.empty = true →
      Work code w p x (p.goto w .lockWaiting) x
  | popFails {p x} : p.worker w = .popFront → p.m_tasks.pop_front = none →
      Work code w p x (p.goto w .testEmpty) x
  | pop {p x tsk rest} : p.worker w = .popFront → p.m_tasks.pop_front = some (tsk, rest) →
      Work code w p x
        { p.goto w (.callExecute p.popped.length tsk) with
          m_tasks := rest
          popped := p.popped ++ [(w, tsk)] } x
  | callExecute {p x e tsk} : p.worker w = .callExecute e tsk →
      Work code w p x
        { p.goto w (.execute e tsk (code.start tsk)) with executed := p.executed ++ [(w, e)] } x
  | execute {p x e tsk b b' x'} : p.worker w = .execute e tsk b → code.act tsk b x b' x' →
      Work code w p x (p.goto w (.execute e tsk b')) x'
  | returns {p x e tsk b} : p.worker w = .execute e tsk b → code.returns tsk b x →
      Work code w p x { p.goto w (.notify e tsk) with completed := p.completed ++ [e] } x
  | notify {p x e tsk value} : p.worker w = .notify e tsk →
      CTask.Notify (p.ready tsk) = some value →
      Work code w p x
        { p.goto w .testEmpty with
          ready := Function.update p.ready tsk value
          notified := p.notified ++ [e] } x
  | notifyThrows {p x e tsk} : p.worker w = .notify e tsk → CTask.Notify (p.ready tsk) = none →
      Work code w p x
        { p.goto w .finished with terminated := true, notified := p.notified ++ [e] } x
  | lockWaiting {p x} : p.worker w = .lockWaiting → p.m_waiting_mutex = none →
      Work code w p x { p.goto w .wait with m_waiting_mutex := some w } x
  | wait {p x} : p.worker w = .wait →
      Work code w p x { p.goto w .blocked with m_waiting_mutex := none } x
  /-- A spurious wake-up -/
  | wakeUp {p x} : p.worker w = .blocked → Work code w p x (p.goto w .relockWaiting) x
  | relockWaiting {p x} : p.worker w = .relockWaiting → p.m_waiting_mutex = none →
      Work code w p x { p.goto w .unlockWaiting with m_waiting_mutex := some w } x
  | unlockWaiting {p x} : p.worker w = .unlockWaiting →
      Work code w p x { p.goto w .testRunning with m_waiting_mutex := none } x

/-- The actions of thread `c` in `AddTask` and `Wait`. -/
inductive Call (c : κ) : Pool τ ω κ β → Pool τ ω κ β → Prop
  | pushBack {p} (tsk : τ) : p.caller c = .outside →
      Call c p { p with
        m_tasks := p.m_tasks.push_back tsk
        caller := Function.update p.caller c (.notifyOne tsk)
        added := p.added ++ [tsk] }
  | notifyOne {p tsk} (w : ω) : p.caller c = .notifyOne tsk → p.worker w = .blocked →
      Call c p { p.goto w .relockWaiting with caller := Function.update p.caller c .outside }
  /-- No worker is blocked, and the notification is lost. -/
  | notifyNobody {p tsk} : p.caller c = .notifyOne tsk → (∀ w, p.worker w ≠ .blocked) →
      Call c p { p with caller := Function.update p.caller c .outside }
  | callWait {p} (tsk : τ) : p.caller c = .outside →
      Call c p { p with caller := Function.update p.caller c (.waitFor tsk) }
  | waitReturns {p tsk} : p.caller c = .waitFor tsk → p.ready tsk = true →
      Call c p { p with
        caller := Function.update p.caller c .outside
        waited := p.waited ++ [(c, tsk)] }

/-- What `notify_all` does to a worker. -/
def wake : Worker τ β → Worker τ β
  | .blocked => .relockWaiting
  | point => point

/-- The actions of the destructor. -/
inductive Close : Pool τ ω κ β → Pool τ ω κ β → Prop
  | stop {p} : p.closing = .notBegun →
      Close p { p with closing := .stopped, m_isRunning := false }
  | notifyAll {p} : p.closing = .stopped →
      Close p { p with closing := .notified, worker := fun w => wake (p.worker w) }
  | join {p} : p.closing = .notified → (∀ w, p.worker w = .finished) →
      Close p { p with closing := .joined }

/-- The actions of the program: those of the pool, and whatever the threads outside of
    it do to the state that the tasks work on. -/
inductive Step (code : TaskCode τ σ β) : Pool τ ω κ β × σ → Pool τ ω κ β × σ → Prop
  | work {w p x p' x'} : Work code w p x p' x' → Step code (p, x) (p', x')
  | call {c p x p'} : Call c p p' → Step code (p, x) (p', x)
  | close {p x p'} : Close p p' → Step code (p, x) (p', x)
  | outside {p x x'} : Step code (p, x) (p, x')

/-- Between two tasks, or on the way into `wait` or out of it. -/
def resting : Worker τ β → Prop
  | .callExecute _ _ | .execute _ _ _ | .notify _ _ | .finished => False
  | _ => True

/-- Whether a worker owns `m_waiting_mutex`. -/
def ownsWaiting : Worker τ β → Bool
  | .wait | .unlockWaiting => true
  | _ => false

/-- A running pool with nothing to do, and empty histories: one that `Init` has just set
    up, or any later one at rest. The promises are those of tasks still to be added. -/
structure Idle (p : Pool τ ω κ β) : Prop where
  m_tasks : p.m_tasks.cells = []
  m_isRunning : p.m_isRunning = true
  m_waiting_mutex : Owned p.m_waiting_mutex fun w => ownsWaiting (p.worker w)
  worker : ∀ w, resting (p.worker w)
  caller : ∀ c, p.caller c = .outside
  closing : p.closing = .notBegun
  ready : ∀ tsk, p.ready tsk = false
  terminated : p.terminated = false
  added : p.added = []
  popped : p.popped = []
  executed : p.executed = []
  completed : p.completed = []
  notified : p.notified = []
  waited : p.waited = []

/-- `CThreadPool()` and `Init`. -/
def fresh : Pool τ ω κ β where
  m_tasks := .make
  m_isRunning := true
  m_waiting_mutex := none
  worker := fun _ => .testRunning
  caller := fun _ => .outside
  closing := .notBegun
  ready := fun _ => false
  terminated := false
  added := []
  popped := []
  executed := []
  completed := []
  notified := []
  waited := []

/-- All interleavings of the workers with the callers and the destructor, until the
    process terminates. -/
def system (code : TaskCode τ σ β) : System (Pool τ ω κ β × σ) where
  init s := s.1.Idle
  step s s' := s.1.terminated = false ∧ Step code s s'

omit [DecidableEq τ] [DecidableEq ω] [DecidableEq κ] in
theorem idle_fresh : (fresh : Pool τ ω κ β).Idle := by
  constructor <;> simp [fresh, Owned, ownsWaiting, resting]

end Pool

end KMeans
