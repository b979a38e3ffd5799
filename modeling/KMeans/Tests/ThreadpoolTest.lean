import KMeans.Threadsafe.PoolDrains

/-! # The test of `CThreadPool`

`main` adds eight tasks four times, leaves them to the workers, and returns. `MyTask::Execute`
counts to 100000 in `m_sum`, one `inc` after the other. Several workers can execute one task
object; its mutex keeps their increments apart, but only one of them can notify it.
-/

namespace KMeans.ThreadpoolTest

open Transition

/-- `class MyTask`; its promise is in the pool. -/
@[ext] structure MyTask where
  m_sum : Int
  /-- Whether `m_mutex` is locked. -/
  m_mutex : Bool

/-- `MyTask(0.0)` -/
def MyTask.make : MyTask := ⟨0, false⟩

/-- Where a worker is in `Execute`, in turn `i` of the loop. -/
inductive Place
  /-- `i<100000` -/
  | test (i : Nat)
  /-- `inc()`, before it locks `m_mutex` -/
  | lock (i : Nat)
  /-- The reading of `m_sum`, of `m_sum += 1` -/
  | load (i : Nat)
  /-- The writing of the sum, of the same -/
  | store (i : Nat) (sum : Int)
  /-- The end of `lock` -/
  | unlock (i : Nat)

variable {τ ω : Type} [DecidableEq τ] [DecidableEq ω]

/-- The actions of `Execute`, with `turns` for 100000. -/
inductive Act (turns : Nat) (tsk : τ) : Place → (τ → MyTask) → Place → (τ → MyTask) → Prop
  | test {i x} : i < turns → Act turns tsk (.test i) x (.lock i) x
  | lock {i x} : (x tsk).m_mutex = false →
      Act turns tsk (.lock i) x (.load i) (Function.update x tsk { x tsk with m_mutex := true })
  | load {i x} : Act turns tsk (.load i) x (.store i ((x tsk).m_sum + 1)) x
  | store {i sum x} :
      Act turns tsk (.store i sum) x (.unlock i) (Function.update x tsk { x tsk with m_sum := sum })
  | unlock {i x} :
      Act turns tsk (.unlock i) x (.test (i + 1))
        (Function.update x tsk { x tsk with m_mutex := false })

/-- `MyTask::Execute` -/
def code (turns : Nat) : TaskCode τ (τ → MyTask) Place where
  start _ := .test 0
  act := Act turns
  returns _ b _ := ∃ i, b = .test i ∧ turns ≤ i

/-- The program: its pool, its tasks, and the calls of `AddTask` that `main` still makes. -/
structure Machine (τ ω : Type) where
  pool : Pool τ ω Unit Place
  objects : τ → MyTask
  rest : List τ
  /-- The tasks are destroyed. -/
  destroyed : Bool

/-- The actions of `main`. The calls of `sleep` only take time. -/
inductive Main : Machine τ ω → Machine τ ω → Prop
  | addTask {s tsk rest p} : s.rest = tsk :: rest → Pool.Call () s.pool p →
      p.added = s.pool.added ++ [tsk] → Main s { s with pool := p, rest }
  | notifyOne {s tsk p} : s.pool.caller () = .notifyOne tsk → Pool.Call () s.pool p →
      Main s { s with pool := p }
  /-- The last of the destructors of the tasks. The tasks are declared after the pool, so they
      are destroyed before it. -/
  | destroy {s} : s.rest = [] → s.pool.caller () = .outside → s.destroyed = false →
      Main s { s with destroyed := true }
  | close {s p} : s.destroyed = true → Pool.Close s.pool p → Main s { s with pool := p }

/-- The actions of the program. A worker with a destroyed task in hand has no defined action. -/
inductive Step (turns : Nat) : Machine τ ω → Machine τ ω → Prop
  | main {s s'} : Main s s' → Step turns s s'
  | work {s : Machine τ ω} (w : ω) {p x} :
      (s.destroyed = true → (s.pool.worker w).hand = none) →
      Pool.Work (code turns) w s.pool s.objects p x →
      Step turns s { s with pool := p, objects := x }

/-- All interleavings of the workers with `main`, which adds `tasks`. -/
def program (turns : Nat) (tasks : List τ) : System (Machine τ ω) where
  init s := s = ⟨Pool.fresh, fun _ => .make, tasks, false⟩
  step s s' := s.pool.terminated = false ∧ Step turns s s'

/-- The calls of `AddTask`: `task1` to `task8`, four times. -/
def mainTasks : List (Fin 8) :=
  List.finRange 8 ++ (List.finRange 8 ++ (List.finRange 8 ++ List.finRange 8))

variable {turns : Nat} {tasks : List τ} {s s' : Machine τ ω}

theorem Step.step (step : Step turns s s') :
    Pool.Step (code turns) (s.pool, s.objects) (s'.pool, s'.objects) := by
  cases step with
  | work w _ work => exact .work work
  | main main =>
      cases main with
      | addTask _ call _ | notifyOne _ call => exact .call call
      | destroy _ _ _ => exact .outside
      | close _ close => exact .close close

theorem pool_reachable (reached : Reachable (program turns tasks) s) :
    Reachable (Pool.system (code turns)) (s.pool, s.objects) := by
  induction reached with
  | init start =>
      cases start
      exact .init Pool.idle_fresh
  | step _ move ih => exact ih.step ⟨move.1, move.2.step⟩

/-! ## What `main` has done -/

omit [DecidableEq τ] in
theorem added_of_notifyOne {c : Unit} {tsk : τ} {p p' : Pool τ ω Unit Place}
    (at_c : p.caller c = .notifyOne tsk) (call : Pool.Call c p p') : p'.added = p.added := by
  cases call with
  | pushBack _ out | callWait _ out => simp [at_c] at out
  | notifyOne _ _ _ | notifyNobody _ _ | waitReturns _ _ => rfl

theorem Step.added (step : Step turns s s') :
    s'.pool.added ++ s'.rest = s.pool.added ++ s.rest := by
  cases step with
  | work w _ work => rw [work.added]
  | main main =>
      cases main with
      | addTask at_rest _ added => rw [added, at_rest, List.append_assoc, List.singleton_append]
      | notifyOne at_c call => rw [added_of_notifyOne at_c call]
      | destroy _ _ _ => rfl
      | close _ close => cases close <;> rfl

theorem added_append (reached : Reachable (program turns tasks) s) :
    s.pool.added ++ s.rest = tasks := by
  induction reached with
  | init start =>
      cases start
      rfl
  | step _ move ih => exact move.2.added.trans ih

/-- How far `main` is on its way out. -/
structure Leaving (s : Machine τ ω) : Prop where
  past : s.destroyed = true → s.rest = [] ∧ s.pool.caller () = .outside
  closing : s.pool.closing ≠ .notBegun → s.destroyed = true
  joined : s.pool.closing = .joined →
    s.pool.terminated = false ∧ ∀ w, s.pool.worker w = .finished

theorem Leaving.work (leaving : Leaving s) {w : ω} {p : Pool τ ω Unit Place} {x : τ → MyTask}
    (work : Pool.Work (code turns) w s.pool s.objects p x) :
    Leaving { s with pool := p, objects := x } := by
  constructor
  · intro destroyed
    rw [work.caller]
    exact leaving.past destroyed
  · intro begun
    rw [work.closing.1] at begun
    exact leaving.closing begun
  · intro joined
    rw [work.closing.1] at joined
    have finished := (leaving.joined joined).2 w
    cases work <;> simp_all

omit [DecidableEq τ] in
theorem Leaving.call (leaving : Leaving s) {p : Pool τ ω Unit Place} {rest : List τ}
    (call : Pool.Call () s.pool p) (begun : s.destroyed = false) :
    Leaving { s with pool := p, rest } := by
  have idle : s.pool.closing = .notBegun := by
    by_contra closing
    simp [leaving.closing closing] at begun
  constructor
  · intro destroyed
    simp [begun] at destroyed
  · intro closing
    rw [call.closing.1] at closing
    exact absurd idle closing
  · intro joined
    rw [call.closing.1, idle] at joined
    cases joined

omit [DecidableEq τ] in
theorem Leaving.main (leaving : Leaving s) (alive : s.pool.terminated = false) (main : Main s s') :
    Leaving s' := by
  cases main with
  | addTask at_rest call _ =>
      apply leaving.call call
      by_contra destroyed
      simp [(leaving.past (by simpa using destroyed)).1] at at_rest
  | notifyOne at_c call =>
      apply leaving.call call
      by_contra destroyed
      simp [(leaving.past (by simpa using destroyed)).2] at at_c
  | destroy at_rest at_c _ =>
      exact ⟨fun _ => ⟨at_rest, at_c⟩, fun _ => rfl, leaving.joined⟩
  | close destroyed close =>
      have caller : ∀ p, Pool.Close s.pool p → p.caller = s.pool.caller := by
        intro p close
        cases close <;> rfl
      refine ⟨?_, fun _ => destroyed, ?_⟩
      · intro _
        rw [caller _ close]
        exact leaving.past destroyed
      · intro joined
        cases close with
        | stop _ | notifyAll _ => cases joined
        | join _ finished => exact ⟨alive, finished⟩

theorem leaving_reachable (reached : Reachable (program turns tasks) s) : Leaving s := by
  induction reached with
  | init start =>
      cases start
      refine ⟨?_, ?_, ?_⟩ <;> simp [Pool.fresh]
  | step _ move ih =>
      obtain ⟨alive, step⟩ := move
      cases step with
      | work w _ work => exact ih.work work
      | main main => exact ih.main alive main

/-! ## One notification for each task -/

section Notifications

variable {κ σ β : Type} [DecidableEq κ] {task : TaskCode τ σ β}

omit [DecidableEq τ] [DecidableEq ω] [DecidableEq κ] in
/-- A further entry does not change the tasks of the earlier ones. -/
theorem map_task_append {p q : Pool τ ω κ β} {entry : ω × τ} {entries : List Nat}
    (popped : q.popped = p.popped ++ [entry]) (inside : ∀ e ∈ entries, e < p.popped.length) :
    entries.map q.task = entries.map p.task := by
  apply List.map_congr_left
  intro e member
  rw [Pool.task, Pool.task, popped, List.getElem?_append_left (inside e member)]

/-- A worker has thrown exactly if two entries of one task were notified. -/
theorem alive_iff {s : Pool τ ω κ β × σ} (reached : Reachable (Pool.system task) s) :
    s.1.terminated = false ↔ (s.1.notified.map s.1.task).Nodup := by
  induction reached with
  | init idle =>
      rw [Pool.Idle.notified idle]
      exact iff_of_true (Pool.Idle.terminated idle) List.nodup_nil
  | @step s s' before move ih =>
      have sound := Pool.sound_reachable before
      obtain ⟨alive, step⟩ := move
      have distinct := ih.mp alive
      cases step with
      | @work w p x p' x' work =>
          have named : ∀ {e tsk}, p.worker w = .notify e tsk → p.task e = some tsk := by
            intro e tsk at_w
            have holds : p.ledger.hand w = some ⟨e, tsk, .completed⟩ := by
              simp only [Pool.ledger, at_w]
              rfl
            exact sound.task_of_hand holds
          cases work with
          | pop at_w popped =>
              have inside : ∀ e ∈ p.notified, e < p.popped.length :=
                fun e member => sound.numbered e (Or.inr (Or.inr member))
              dsimp only [Pool.goto]
              rw [map_task_append (p := p) rfl inside]
              exact iff_of_true alive distinct
          | @notify e tsk value at_w set =>
              have unsatisfied : p.ready tsk = false := (CTask.Notify_eq_some.mp set).1
              refine iff_of_true alive ?_
              change ((p.notified ++ [e]).map p.task).Nodup
              rw [List.map_append, List.map_singleton, named at_w]
              apply distinct.append (List.nodup_singleton _)
              intro t member same
              rw [List.mem_singleton.mp same] at member
              have satisfied : p.ready tsk = true :=
                (sound.promise tsk).mpr (List.mem_map.mp member)
              simp [unsatisfied] at satisfied
          | @notifyThrows e tsk at_w throws =>
              have satisfied : p.ready tsk = true := CTask.Notify_eq_none.mp throws
              refine iff_of_false (by simp) ?_
              change ¬ ((p.notified ++ [e]).map p.task).Nodup
              rw [List.map_append, List.map_singleton, named at_w]
              intro distinct
              have earlier := List.mem_map.mpr ((sound.promise tsk).mp satisfied)
              exact (List.nodup_append.mp distinct).2.2 _ earlier _ (List.mem_singleton_self _) rfl
          | _ => exact iff_of_true alive distinct
      | call call => cases call <;> exact iff_of_true alive distinct
      | close close => cases close <;> exact iff_of_true alive distinct
      | outside => exact iff_of_true alive distinct

end Notifications

/-! ## What the tasks count -/

namespace Place

/-- The increments that are made. -/
def made : Place → Nat
  | test i | lock i | load i | store i _ => i
  | unlock i => i + 1

/-- The worker has locked `m_mutex`. -/
def inside : Place → Bool
  | load _ | store _ _ | unlock _ => true
  | _ => false

/-- The turn is one of the loop, or the loop is over. -/
def Within (turns : Nat) : Place → Prop
  | test i => i ≤ turns
  | lock i | load i | store i _ | unlock i => i < turns

end Place

/-- The mutex of task `tsk` is locked by the worker with this `Execute`. -/
def locks (tsk : τ) : Option (τ × Place) → Bool
  | some (t, b) => decide (t = tsk) && b.inside
  | none => false

/-- The increments of task `tsk` in an `Execute` that has not returned. -/
def share (tsk : τ) : Option (τ × Place) → Int
  | some (t, b) => if t = tsk then b.made else 0
  | none => 0

/-- Workers in `Execute` and tasks, when `done` counts the calls that have returned: the workers
    exclude each other, and no increment is lost. -/
structure Counted (turns : Nat) (hands : ω → Option (τ × Place)) (x : τ → MyTask)
    (done : τ → Nat) [Fintype ω] : Prop where
  locked : ∀ tsk, ∃ owner : Option ω,
    (x tsk).m_mutex = owner.isSome ∧ Owned owner fun w => locks tsk (hands w)
  stored : ∀ w tsk i sum, hands w = some (tsk, .store i sum) → sum = (x tsk).m_sum + 1
  within : ∀ w tsk b, hands w = some (tsk, b) → b.Within turns
  sum : ∀ tsk, (x tsk).m_sum = turns * done tsk + ∑ w, share tsk (hands w)

section Counting

variable [Fintype ω] {hands : ω → Option (τ × Place)} {x x' : τ → MyTask} {done : τ → Nat}
  {w : ω} {tsk : τ} {b b' : Place}

/-- An `Execute` begins or ends, outside of the mutex. -/
theorem Counted.change (counted : Counted turns hands x done) {next : Option (τ × Place)}
    {done' : τ → Nat} (was : ∀ t, locks t (hands w) = false) (now : ∀ t, locks t next = false)
    (plain : ∀ t b, next = some (t, b) → b = .test 0)
    (same : ∀ t, (turns * done' t : Int) + share t next = turns * done t + share t (hands w)) :
    Counted turns (Function.update hands w next) x done' := by
  obtain ⟨locked, stored, within, sum⟩ := counted
  refine ⟨?_, ?_, ?_, ?_⟩
  · intro t
    obtain ⟨owner, mutex, owned⟩ := locked t
    have move : LockMove w owner owner (locks t (hands w)) (locks t next) :=
      .of_eq ((was t).trans (now t).symm)
    exact ⟨owner, mutex, owned.move move⟩
  · intro v t i m at_v
    by_cases here : v = w
    · subst here
      rw [Function.update_self] at at_v
      cases plain _ _ at_v
    · rw [Function.update_of_ne here] at at_v
      exact stored v t i m at_v
  · intro v t c at_v
    by_cases here : v = w
    · subst here
      rw [Function.update_self] at at_v
      rw [plain _ _ at_v]
      exact Nat.zero_le turns
    · rw [Function.update_of_ne here] at at_v
      exact within v t c at_v
  · intro t
    rw [sum_update (share t) hands w next, sum t]
    have total := same t
    omega

/-- An action in `Execute` works on the task of that `Execute` alone. -/
theorem Act.others (act : Act turns tsk b x b' x') {t : τ} (other : t ≠ tsk) : x' t = x t := by
  cases act with
  | test _ | load => rfl
  | lock _ | store | unlock => exact Function.update_of_ne other _ _

theorem Act.m_sum (act : Act turns tsk b x b' x')
    (stored : ∀ i sum, b = .store i sum → sum = (x tsk).m_sum + 1) :
    (x' tsk).m_sum = (x tsk).m_sum + (b'.made - b.made) := by
  cases act with
  | test _ | load => simp [Place.made]
  | lock _ | unlock => simp [Place.made]
  | store =>
      have next := stored _ _ rfl
      simp [Place.made, next]

omit [DecidableEq ω] [Fintype ω] in
/-- The mutex of a task and the worker that has locked it. -/
theorem Act.lockMove (act : Act turns tsk b x b' x') {owner : Option ω}
    (mutex : (x tsk).m_mutex = owner.isSome)
    (mine : owner = some w ↔ b.inside = true) : ∃ owner' : Option ω,
      (x' tsk).m_mutex = owner'.isSome ∧ LockMove w owner owner' b.inside b'.inside := by
  cases act with
  | test _ | load => exact ⟨owner, mutex, .still⟩
  | store => exact ⟨owner, by simpa using mutex, .still⟩
  | lock free =>
      have none : owner = none := by
        cases owner with
        | none => rfl
        | some v => simp [free] at mutex
      rw [none]
      exact ⟨some w, by simp, .acquire⟩
  | unlock =>
      rw [mine.mpr rfl]
      exact ⟨none, by simp, .release⟩

theorem Act.within (act : Act turns tsk b x b' x') (within : b.Within turns) :
    b'.Within turns := by
  cases act with
  | test inside => exact inside
  | lock _ | load | store => exact within
  | unlock => exact within

theorem Counted.act (counted : Counted turns hands x done) (at_w : hands w = some (tsk, b))
    (act : Act turns tsk b x b' x') :
    Counted turns (Function.update hands w (some (tsk, b'))) x' done := by
  obtain ⟨locked, stored, within, sum⟩ := counted
  have mine := stored w tsk
  rw [at_w] at mine
  have m_sum := act.m_sum fun i m same => mine i m (by rw [same])
  refine ⟨?_, ?_, ?_, ?_⟩
  · intro t
    obtain ⟨owner, mutex, owned⟩ := locked t
    by_cases same : t = tsk
    · subst same
      have here : locks t (hands w) = b.inside := by simp [at_w, locks]
      have there : locks t (some (t, b')) = b'.inside := by simp [locks]
      have owns : owner = some w ↔ locks t (hands w) = true := owned w
      rw [here] at owns
      obtain ⟨owner', mutex', move⟩ := act.lockMove mutex owns
      rw [← here, ← there] at move
      exact ⟨owner', mutex', owned.move move⟩
    · rw [act.others same]
      have away : locks t (hands w) = locks t (some (tsk, b')) := by
        simp [at_w, locks, Ne.symm same]
      exact ⟨owner, mutex, owned.move (.of_eq away)⟩
  · intro v t i m at_v
    by_cases here : v = w
    · subst here
      rw [Function.update_self] at at_v
      cases at_v
      cases act
      rfl
    · rw [Function.update_of_ne here] at at_v
      have before := stored v t i m at_v
      by_cases same : t = tsk
      · subst same
        -- The other worker has the mutex, so this action is not one inside of it.
        obtain ⟨owner, mutex, owned⟩ := locked t
        have away : b.inside = false := by
          by_contra inside
          have yours : locks t (hands v) = true := by simp [at_v, locks, Place.inside]
          have mine : locks t (hands w) = true := by simpa [at_w, locks] using inside
          exact here (owned.unique yours mine)
        cases act with
        | test _ => exact before
        | lock free =>
            rw [before]
            simp
        | load | store | unlock => cases away
      · rw [act.others same]
        exact before
  · intro v t c at_v
    by_cases here : v = w
    · subst here
      rw [Function.update_self] at at_v
      cases at_v
      exact act.within (within v tsk b at_w)
    · rw [Function.update_of_ne here] at at_v
      exact within v t c at_v
  · intro t
    rw [sum_update (share t) hands w (some (tsk, b'))]
    have before := sum t
    by_cases same : t = tsk
    · subst same
      rw [m_sum, before, at_w]
      simp only [share, if_true]
      omega
    · rw [act.others same, before, at_w]
      simp [share, Ne.symm same]

end Counting

/-! ## The workers of the program -/

/-- The `Execute` that a worker is in. -/
def inExecute : Worker τ Place → Option (τ × Place)
  | .execute _ tsk b => some (tsk, b)
  | _ => none

def hands (p : Pool τ ω Unit Place) (w : ω) : Option (τ × Place) := inExecute (p.worker w)

/-- How often `Execute` of task `tsk` has returned. -/
def returned (p : Pool τ ω Unit Place) (tsk : τ) : Nat := (p.completed.map p.task).count (some tsk)

section Workers

variable [Fintype ω] {p p' : Pool τ ω Unit Place} {x x' : τ → MyTask} {w : ω}
  {point : Worker τ Place}

omit [DecidableEq τ] [Fintype ω] in
theorem hands_goto (moved : p'.worker = (p.goto w point).worker) :
    hands p' = Function.update (hands p) w (inExecute point) := by
  funext v
  rw [hands, moved]
  exact Function.apply_update (fun _ => inExecute) p.worker w point v

theorem counted_of_goto (moved : p'.worker = (p.goto w point).worker)
    (counted : Counted turns (Function.update (hands p) w (inExecute point)) x' (returned p')) :
    Counted turns (hands p') x' (returned p') := by
  rw [hands_goto moved]
  exact counted

/-- A worker goes on outside of `Execute`. -/
theorem Counted.goto (counted : Counted turns (hands p) x (returned p))
    (moved : p'.worker = (p.goto w point).worker) (same : inExecute point = hands p w)
    (completed : p'.completed.map p'.task = p.completed.map p.task) :
    Counted turns (hands p') x (returned p') := by
  have still : hands p' = hands p := by
    rw [hands_goto moved, same, Function.update_eq_self]
  have count : returned p' = returned p := by
    funext tsk
    rw [returned, returned, completed]
  rw [still, count]
  exact counted

theorem Counted.work (sound : p.ledger.Sound) (counted : Counted turns (hands p) x (returned p))
    (work : Pool.Work (code turns) w p x p' x') : Counted turns (hands p') x' (returned p') := by
  cases work with
  | pop at_w popped =>
      have inside : ∀ e ∈ p.completed, e < p.popped.length :=
        fun e member => sound.numbered e (Or.inr (Or.inl member))
      refine counted.goto (w := w) rfl ?_ (map_task_append (p := p) rfl inside)
      rw [hands, at_w]
      rfl
  | @callExecute e tsk at_w =>
      have free : hands p w = none := by
        rw [hands, at_w]
        rfl
      refine counted_of_goto (p := p) (w := w) rfl (counted.change ?_ ?_ ?_ ?_)
      · intro t
        rw [free]
        rfl
      · intro t
        simp [inExecute, code, locks, Place.inside]
      · intro t b same
        cases same
        rfl
      · intro t
        have start : share t (inExecute (.execute e tsk ((code turns).start tsk))) = 0 := by
          simp [inExecute, code, share, Place.made]
        rw [free, start]
        rfl
  | @execute e tsk b b' x' at_w act =>
      have here : hands p w = some (tsk, b) := by
        rw [hands, at_w]
        rfl
      exact counted_of_goto (p := p) (w := w) rfl (counted.act here act)
  | @returns e tsk b at_w ends =>
      obtain ⟨i, rfl, past⟩ := ends
      have here : hands p w = some (tsk, .test i) := by
        rw [hands, at_w]
        rfl
      have holds : p.ledger.hand w = some ⟨e, tsk, .executing⟩ := by
        simp only [Pool.ledger, at_w]
        rfl
      have named : p.task e = some tsk := sound.task_of_hand holds
      have all : i = turns := Nat.le_antisymm (counted.within w tsk _ here) past
      refine counted_of_goto (p := p) (w := w) rfl (counted.change ?_ ?_ ?_ ?_)
      · intro t
        simp [here, locks, Place.inside]
      · intro t
        rfl
      · intro t b same
        cases same
      · intro t
        have one : returned { p.goto w (.notify e tsk) with completed := p.completed ++ [e] } t =
            returned p t + if tsk = t then 1 else 0 := by
          change ((p.completed ++ [e]).map p.task).count (some t) = _
          rw [List.map_append, List.map_singleton, named, List.count_append,
            List.count_singleton]
          simp [returned]
        rw [one, here, all]
        by_cases same : tsk = t
        · simp [inExecute, share, same, Place.made, mul_add]
        · simp [inExecute, share, same]
  | running at_w _ | notRunning at_w _ | notEmpty at_w _ | empty at_w _ | popFails at_w _
  | notify at_w _ | notifyThrows at_w _ | lockWaiting at_w _ | wait at_w | wakeUp at_w
  | relockWaiting at_w _ | unlockWaiting at_w =>
      refine counted.goto (w := w) rfl ?_ rfl
      rw [hands, at_w]
      rfl

omit [DecidableEq τ] in
theorem inExecute_wake (point : Worker τ Place) :
    inExecute (Pool.wake point) = inExecute point := by
  cases point <;> rfl

theorem Counted.main (counted : Counted turns (hands s.pool) s.objects (returned s.pool))
    (main : Main s s') : Counted turns (hands s'.pool) s'.objects (returned s'.pool) := by
  have call : ∀ p, Pool.Call () s.pool p → Counted turns (hands p) s.objects (returned p) := by
    intro p call
    cases call with
    | notifyOne w _ at_w =>
        refine counted.goto (w := w) rfl ?_ rfl
        rw [hands, at_w]
        rfl
    | pushBack _ _ | notifyNobody _ _ | callWait _ _ | waitReturns _ _ => exact counted
  cases main with
  | addTask _ called _ | notifyOne _ called => exact call _ called
  | destroy _ _ _ => exact counted
  | close _ close =>
      cases close with
      | stop _ | join _ _ => exact counted
      | notifyAll _ =>
          have still : (fun w => inExecute (Pool.wake (s.pool.worker w))) = hands s.pool := by
            funext w
            exact inExecute_wake _
          change Counted turns (fun w => inExecute (Pool.wake (s.pool.worker w))) s.objects _
          rw [still]
          exact counted

/-- In every reachable state each sum counts the calls of `Execute` that have returned, and the
    increments in those that have not. -/
theorem counted_reachable (reached : Reachable (program turns tasks) s) :
    Counted turns (hands s.pool) s.objects (returned s.pool) := by
  induction reached with
  | init start =>
      cases start
      refine ⟨?_, ?_, ?_, ?_⟩
      · intro tsk
        refine ⟨none, rfl, ?_⟩
        intro w
        simp [hands, Pool.fresh, inExecute, locks]
      · intro w tsk i sum at_w
        cases at_w
      · intro w tsk b at_w
        cases at_w
      · intro tsk
        simp [hands, Pool.fresh, inExecute, share, returned, MyTask.make]
  | step before move ih =>
      cases move.2 with
      | main main => exact ih.main main
      | work w _ work => exact ih.work (Pool.sound_reachable (pool_reachable before)) work

end Workers

/-! ## The return of `main` -/

section Return

variable [Fintype ω] {κ β : Type} [DecidableEq κ] {p : Pool τ ω κ β}

theorem perm_range {entries : List Nat} {n : Nat} (once : entries.Nodup)
    (all : ∀ e < n, e ∈ entries) (numbered : ∀ e ∈ entries, e < n) :
    entries.Perm (List.range n) := by
  apply (List.perm_ext_iff_of_nodup once List.nodup_range).mpr
  intro e
  rw [List.mem_range]
  exact ⟨numbered e, all e⟩

omit [DecidableEq τ] [DecidableEq ω] [Fintype ω] [DecidableEq κ] in
/-- When no worker has a task in hand, each entry that was popped was executed and notified. -/
theorem perm_of_free (sound : p.ledger.Sound) (free : ∀ w, (p.worker w).hand = none) :
    (p.executed.map Prod.snd).Perm (List.range p.popped.length) ∧
      p.completed.Perm (List.range p.popped.length) ∧
      p.notified.Perm (List.range p.popped.length) := by
  have notified : ∀ e < p.popped.length, e ∈ p.notified := by
    intro e inside
    cases sound.accounted e inside with
    | inl notified => exact notified
    | inr held =>
        obtain ⟨w, h, holds, _⟩ := held
        have none : p.ledger.hand w = Option.none := free w
        rw [none] at holds
        cases holds
  refine ⟨perm_range sound.executedOnce ?_ ?_, perm_range sound.completedOnce ?_ ?_,
    perm_range sound.notifiedOnce notified ?_⟩
  · exact fun e inside => (sound.finished e (notified e inside)).1
  · exact fun e member => sound.numbered e (Or.inl member)
  · exact fun e inside => (sound.finished e (notified e inside)).2
  · exact fun e member => sound.numbered e (Or.inr (Or.inl member))
  · exact fun e member => sound.numbered e (Or.inr (Or.inr member))

omit [DecidableEq τ] [DecidableEq ω] [Fintype ω] [DecidableEq κ] in
theorem map_task_range (p : Pool τ ω κ β) :
    (List.range p.popped.length).map p.task = (p.popped.map Prod.snd).map some := by
  apply List.ext_getElem
  · simp
  · intro e inside _
    have inside : e < p.popped.length := by simpa using inside
    simp [Pool.task, List.getElem?_eq_getElem inside]

/-- The tasks in `done` are those that the workers have executed, each as often as it is there,
    and those that they have notified. -/
def Handled (p : Pool τ ω κ β) (done : List τ) : Prop :=
  (p.executed.map fun entry => p.task entry.2).Perm (done.map some) ∧
    (p.notified.map p.task).Perm (done.map some)

omit [DecidableEq τ] [DecidableEq ω] [Fintype ω] [DecidableEq κ] in
theorem handled_of_free (sound : p.ledger.Sound) (free : ∀ w, (p.worker w).hand = none) :
    Handled p (p.popped.map Prod.snd) := by
  obtain ⟨executed, _, notified⟩ := perm_of_free sound free
  rw [Handled, ← map_task_range]
  have tasks := executed.map p.task
  rw [List.map_map] at tasks
  exact ⟨tasks, notified.map p.task⟩

omit [DecidableEq τ] [DecidableEq ω] [Fintype ω] in
theorem free_of_joined (leaving : Leaving s) (joined : s.pool.closing = .joined) (w : ω) :
    (s.pool.worker w).hand = none := by
  rw [(leaving.joined joined).2 w]
  rfl

omit [Fintype ω] in
/-- When `main` has returned, what was popped was executed, no task twice, and the other entries
    are in the queue still. -/
theorem executed_of_joined (reached : Reachable (program turns tasks) s)
    (joined : s.pool.closing = .joined) : Handled s.pool (s.pool.popped.map Prod.snd) ∧
      (s.pool.popped.map Prod.snd).Nodup ∧
      tasks = s.pool.popped.map Prod.snd ++ s.pool.m_tasks.cells := by
  have leaving := leaving_reachable reached
  have sound := Pool.sound_reachable (pool_reachable reached)
  have handled := handled_of_free sound (free_of_joined leaving joined)
  refine ⟨handled, ?_, ?_⟩
  · have once := (alive_iff (pool_reachable reached)).mp (leaving.joined joined).1
    rw [handled.2.nodup_iff] at once
    exact once.of_map some
  · have none_left : s.rest = [] := (leaving.past (leaving.closing (by simp [joined]))).1
    have added := added_append reached
    rw [none_left, List.append_nil] at added
    rw [← added]
    exact sound.order

end Return

end KMeans.ThreadpoolTest
