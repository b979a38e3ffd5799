import KMeans.Tests.ThreadpoolTest
import KMeans.Threadsafe.Resubmission

/-! # How the test of `CThreadPool` ends

`main` sleeps so that the workers can do what was added. But it adds every task again, and
a worker that has executed a task for the second time throws in `Notify`: if the workers do
what they are left with, the process ends. `main` returns only if they do not.
-/

namespace KMeans.ThreadpoolTest

open Transition

variable {τ ω : Type} [DecidableEq τ] [DecidableEq ω] {turns : Nat} {tasks : List τ}
  {s s' : Machine τ ω}

/-! ## The actions of `Execute` -/

/-- The actions to the end of the loop. -/
def Place.left (turns : Nat) : Place → Nat
  | test i => 5 * (turns - i)
  | lock i => 5 * (turns - (i + 1)) + 4
  | load i => 5 * (turns - (i + 1)) + 3
  | store i _ => 5 * (turns - (i + 1)) + 2
  | unlock i => 5 * (turns - (i + 1)) + 1

/-- In its loop a worker comes nearer to its end with every action. -/
theorem code_bounded (turns : Nat) :
    (code turns : TaskCode τ (τ → MyTask) Place).Bounded (fun _ => Place.left turns)
      (5 * turns) where
  start _ := Nat.le_refl _
  act tsk b x b' x' act := by
    have act : Act turns tsk b x b' x' := act
    cases act with
    | test inside =>
        simp only [Place.left]
        omega
    | lock _ | load | store | unlock => exact Nat.lt_succ_self _

section Blocking

variable [Fintype ω] {p : Pool τ ω Unit Place} {x : τ → MyTask}

omit [DecidableEq τ] [DecidableEq ω] [Fintype ω] in
theorem execute_of_hands {w : ω} {tsk : τ} {b : Place} (here : hands p w = some (tsk, b)) :
    ∃ e, p.worker w = .execute e tsk b := by
  unfold hands at here
  cases at_w : p.worker w with
  | execute e t c =>
      rw [at_w] at here
      cases here
      exact ⟨e, rfl⟩
  | _ =>
      rw [at_w] at here
      cases here

omit [DecidableEq ω] in
/-- A worker that waits for the mutex of a task waits for another one, which can go on. -/
theorem canExecute {done : τ → Nat} (counted : Counted turns (hands p) x done) :
    Pool.CanExecute (code turns) p x := by
  intro executing
  obtain ⟨w, e, tsk, b, at_w⟩ := executing
  cases b with
  | test i =>
      refine ⟨w, e, tsk, _, at_w, ?_⟩
      by_cases inside : i < turns
      · exact Or.inr ⟨_, _, Act.test inside⟩
      · exact Or.inl ⟨i, rfl, Nat.le_of_not_lt inside⟩
  | lock i =>
      cases mutex : (x tsk).m_mutex with
      | false => exact ⟨w, e, tsk, _, at_w, Or.inr ⟨_, _, Act.lock mutex⟩⟩
      | true =>
          obtain ⟨owner, same, owned⟩ := counted.locked tsk
          cases owner with
          | none => simp [mutex] at same
          | some v =>
              have inside := (owned v).mp rfl
              cases at_v : hands p v with
              | none => simp [at_v, locks] at inside
              | some execution =>
                  obtain ⟨t, c⟩ := execution
                  obtain ⟨f, at_v'⟩ := execute_of_hands at_v
                  refine ⟨v, f, t, c, at_v', Or.inr ?_⟩
                  cases c with
                  | test _ | lock _ => simp [at_v, locks, Place.inside] at inside
                  | load j => exact ⟨_, _, Act.load⟩
                  | store j sum => exact ⟨_, _, Act.store⟩
                  | unlock j => exact ⟨_, _, Act.unlock⟩
  | load i => exact ⟨w, e, tsk, _, at_w, Or.inr ⟨_, _, Act.load⟩⟩
  | store i sum => exact ⟨w, e, tsk, _, at_w, Or.inr ⟨_, _, Act.store⟩⟩
  | unlock i => exact ⟨w, e, tsk, _, at_w, Or.inr ⟨_, _, Act.unlock⟩⟩

end Blocking

/-! ## When `main` returns -/

section Returning

open Relation

variable [Fintype ω] {w : ω} {done rest : List τ} {tsk : τ}

/-- One action of an `Execute` that nobody interrupts. -/
def Acts (turns : Nat) (tsk : τ) (s s' : Place × (τ → MyTask)) : Prop :=
  Act turns tsk s.1 s.2 s'.1 s'.2

/-- If nobody has locked the task, the loop runs to its end. -/
theorem exists_turns (i : Nat) (x : τ → MyTask) (free : (x tsk).m_mutex = false)
    (le : i ≤ turns) : ∃ x', ReflTransGen (Acts turns tsk) (.test i, x) (.test turns, x') := by
  induction left : turns - i generalizing i x with
  | zero =>
      have past : i = turns := by omega
      subst past
      exact ⟨x, .refl⟩
  | succ n ih =>
      have inside : i < turns := by omega
      let x₁ := Function.update x tsk { x tsk with m_mutex := true }
      let x₂ := Function.update x₁ tsk { x₁ tsk with m_sum := (x₁ tsk).m_sum + 1 }
      let x₃ := Function.update x₂ tsk { x₂ tsk with m_mutex := false }
      have test : Acts turns tsk (.test i, x) (.lock i, x) := .test inside
      have lock : Acts turns tsk (.lock i, x) (.load i, x₁) := .lock free
      have load : Acts turns tsk (.load i, x₁) (.store i ((x₁ tsk).m_sum + 1), x₁) := .load
      have store : Acts turns tsk (.store i ((x₁ tsk).m_sum + 1), x₁) (.unlock i, x₂) := .store
      have unlock : Acts turns tsk (.unlock i, x₂) (.test (i + 1), x₃) := .unlock
      obtain ⟨x', path⟩ := ih (i + 1) x₃ (by simp [x₃]) inside (by omega)
      exact ⟨x', .head test (.head lock (.head load (.head store (.head unlock path))))⟩

omit [Fintype ω] in
theorem execute_path (reached : Reachable (program turns tasks) s)
    (alive : s.pool.terminated = false) (living : s.destroyed = false) {e : Nat} {b b' : Place}
    {x' : τ → MyTask} (at_w : s.pool.worker w = .execute e tsk b)
    (path : ReflTransGen (Acts turns tsk) (b, s.objects) (b', x')) :
    Reachable (program turns tasks)
      { s with pool := s.pool.goto w (.execute e tsk b'), objects := x' } := by
  generalize target : (b', x') = t at path
  induction path generalizing b' x' with
  | refl =>
      cases target
      rw [Pool.goto, ← at_w, Function.update_eq_self]
      exact reached
  | tail _ act ih =>
      cases target
      have next := (ih rfl).step
        ⟨alive, .work w (by simp [living]) (.execute (Pool.goto_self s.pool w _) act)⟩
      simp only [Pool.goto_goto] at next
      exact next

omit [Fintype ω] in
/-- `main` adds a task, and its notification finds nobody asleep. -/
theorem add_unheard (reached : Reachable (program turns tasks) s)
    (alive : s.pool.terminated = false) (at_rest : s.rest = tsk :: rest)
    (caller : s.pool.caller () = .outside) (awake : ∀ v, s.pool.worker v ≠ .blocked) :
    Reachable (program turns tasks) { s with
      pool := { s.pool with
        m_tasks := s.pool.m_tasks.push_back tsk
        caller := fun _ => .outside
        added := s.pool.added ++ [tsk] }
      rest } := by
  have at_c : Function.update s.pool.caller () (.notifyOne tsk) () = .notifyOne tsk :=
    Function.update_self ..
  have out : Function.update (Function.update s.pool.caller () (.notifyOne tsk)) () .outside =
      fun _ => .outside := by
    funext u
    exact Function.update_self ..
  have pushed := reached.step ⟨alive, .main (.addTask at_rest (.pushBack tsk caller) rfl)⟩
  have notified := pushed.step ⟨alive, .main (.notifyOne at_c (.notifyNobody at_c awake))⟩
  simp only [out] at notified
  exact notified

/-- Worker `w` has done the tasks that were added, and the others have not begun. -/
structure Ready (w : ω) (done rest : List τ) (s : Machine τ ω) : Prop where
  served : s.pool.Served w () done
  rest : s.rest = rest
  living : s.destroyed = false

theorem Ready.next (reached : Reachable (program turns tasks) s)
    (ready : Ready w done (tsk :: rest) s) (fresh : tsk ∉ done) :
    ∃ s', Reachable (program turns tasks) s' ∧ Ready w (done ++ [tsk]) rest s' := by
  obtain ⟨served, at_rest, living⟩ := ready
  have satisfied := served.ready_iff (Pool.sound_reachable (pool_reachable reached)) tsk
  obtain ⟨alive, worker, caller, empty, added⟩ := served
  have at_w : s.pool.worker w = .testEmpty := by
    rw [worker]
    exact Function.update_self ..
  have awake : ∀ v, s.pool.worker v ≠ .blocked := by
    intro v
    rw [worker, Function.update_apply]
    split <;> simp
  have unlocked : (s.objects tsk).m_mutex = false := by
    obtain ⟨owner, mutex, owned⟩ := (counted_reachable reached).locked tsk
    cases owner with
    | none => exact mutex
    | some v =>
        have locks : locks tsk (hands s.pool v) = true := (owned v).mp rfl
        rw [hands, worker, Function.update_apply] at locks
        split at locks <;> cases locks
  have undisturbed : s.destroyed = true → ∀ point : Worker τ Place, point.hand = none := by
    simp [living]
  have added_one := add_unheard reached alive at_rest caller awake
  have stored : (s.pool.m_tasks.push_back tsk).cells = [tsk] := by simp [empty]
  obtain ⟨left, popped, no_more⟩ := BlockingList.pop_front_of_cons stored
  have testing := added_one.step ⟨alive, .work w (fun gone => undisturbed gone _)
    (.notEmpty at_w (BlockingList.empty_of_singleton stored))⟩
  have popping := testing.step ⟨alive, .work w (fun gone => undisturbed gone _)
    (.pop (Pool.goto_self ..) popped)⟩
  have called := popping.step ⟨alive, .work w (fun gone => undisturbed gone _)
    (.callExecute (Pool.goto_self ..))⟩
  obtain ⟨x', path⟩ := exists_turns 0 s.objects unlocked (Nat.zero_le turns)
  have executed := execute_path called alive living (Pool.goto_self ..) path
  have returned := executed.step ⟨alive, .work w (fun gone => undisturbed gone _)
    (.returns (Pool.goto_self ..) ⟨turns, rfl, Nat.le_refl turns⟩)⟩
  have unsatisfied : s.pool.ready tsk = false := by simpa using mt satisfied.mp fresh
  have finished := returned.step ⟨alive, .work w (fun gone => undisturbed gone _)
    (.notify (Pool.goto_self ..) (CTask.Notify_eq_some.mpr ⟨unsatisfied, rfl⟩))⟩
  refine ⟨_, finished, ⟨alive, ?_, rfl, no_more, ?_⟩, rfl, living⟩
  · simp only [Pool.goto, worker, Function.update_idem]
  · exact congrArg (· ++ [tsk]) added

theorem exists_ready (w : ω) (distinct : done.Nodup) (rest : List τ) :
    ∃ s : Machine τ ω, Reachable (program turns (done ++ rest)) s ∧ Ready w done rest s := by
  suffices first : ∀ earlier later, done = earlier ++ later →
      ∃ s : Machine τ ω, Reachable (program turns (done ++ rest)) s ∧
        Ready w earlier (later ++ rest) s by
    exact first done [] (List.append_nil done).symm
  intro earlier
  induction earlier using List.reverseRecOn with
  | nil =>
      intro later all
      rw [List.nil_append] at all
      subst all
      have start : Reachable (program turns (done ++ rest))
          (⟨Pool.fresh, fun _ => .make, done ++ rest, false⟩ : Machine τ ω) := .init rfl
      have testing := start.step ⟨rfl, .work w (by simp) (.running rfl rfl)⟩
      exact ⟨_, testing, ⟨rfl, rfl, rfl, rfl, rfl⟩, rfl, rfl⟩
  | append_singleton earlier tsk ih =>
      intro later all
      obtain ⟨s, reached, ready⟩ := ih (tsk :: later) (by simp [all])
      rw [List.cons_append] at ready
      apply ready.next reached
      rw [all, List.append_assoc, List.singleton_append] at distinct
      intro member
      exact (List.nodup_append.mp distinct).2.2 _ member _ List.mem_cons_self rfl

/-- `main` is about to add the tasks `rest`; nothing but `done` was popped. -/
structure Adding (workers : ω → Worker τ Place) (done rest : List τ) (s : Machine τ ω) : Prop where
  alive : s.pool.terminated = false
  worker : s.pool.worker = workers
  caller : s.pool.caller () = .outside
  popped : s.pool.popped.map Prod.snd = done
  rest : s.rest = rest
  living : s.destroyed = false

/-- Worker `w` has found the queue empty and is about to sleep. -/
abbrev sleepy (w : ω) : ω → Worker τ Place := Function.update (fun _ => .testRunning) w .wait

omit [Fintype ω] in
theorem Ready.sleepy (reached : Reachable (program turns tasks) s) (ready : Ready w done rest s) :
    ∃ s', Reachable (program turns tasks) s' ∧ Adding (sleepy w) done rest s' := by
  obtain ⟨⟨alive, worker, caller, empty, added⟩, at_rest, living⟩ := ready
  have at_w : s.pool.worker w = .testEmpty := by
    rw [worker]
    exact Function.update_self ..
  have none_stored : s.pool.m_tasks.empty = true := by
    simp [BlockingList.empty, s.pool.m_tasks.counted, empty]
  have free : s.pool.m_waiting_mutex = none := by
    have owned := Pool.owned_of_reachable (pool_reachable reached)
    cases mutex : s.pool.m_waiting_mutex with
    | none => rfl
    | some v =>
        have owns : Pool.ownsWaiting (s.pool.worker v) = true := (owned v).mp mutex
        rw [worker, Function.update_apply] at owns
        split at owns <;> cases owns
  have turned := reached.step ⟨alive, .work w (by simp [living]) (.empty at_w none_stored)⟩
  have locked := turned.step
    ⟨alive, .work w (by simp [living]) (.lockWaiting (Pool.goto_self ..) free)⟩
  refine ⟨_, locked, alive, ?_, caller, ?_, at_rest, living⟩
  · simp only [Pool.goto, worker, Function.update_idem]
  · have order : s.pool.added = s.pool.popped.map Prod.snd ++ s.pool.m_tasks.cells :=
      (Pool.sound_reachable (pool_reachable reached)).order
    rw [empty, List.append_nil, added] at order
    exact order.symm

omit [Fintype ω] in
/-- While nobody is asleep, `main` can add what it likes before anybody goes on. -/
theorem Adding.all {workers : ω → Worker τ Place} (awake : ∀ v, workers v ≠ .blocked)
    {first : List τ} (reached : Reachable (program turns tasks) s)
    (adding : Adding workers done (first ++ rest) s) :
    ∃ s', Reachable (program turns tasks) s' ∧ Adding workers done rest s' := by
  induction first generalizing s with
  | nil => exact ⟨s, reached, adding⟩
  | cons tsk first ih =>
      obtain ⟨alive, worker, caller, popped, at_rest, living⟩ := adding
      rw [← worker] at awake
      have added := add_unheard reached alive at_rest caller awake
      rw [worker] at awake
      exact ih added ⟨alive, worker, rfl, popped, rfl, living⟩

/-- The destructor of the pool waits for the workers; those in `left` have returned. -/
structure Joining (done : List τ) (left : Finset ω) (s : Machine τ ω) : Prop where
  alive : s.pool.terminated = false
  worker : s.pool.worker = fun v => if v ∈ left then .finished else .testRunning
  popped : s.pool.popped.map Prod.snd = done
  destroyed : s.destroyed = true
  closing : s.pool.closing = .notified
  m_isRunning : s.pool.m_isRunning = false

omit [Fintype ω] in
theorem Adding.joining (reached : Reachable (program turns tasks) s)
    (added : Adding (sleepy w) done [] s) :
    ∃ s' : Machine τ ω, Reachable (program turns tasks) s' ∧ Joining done ∅ s' := by
  have leaving := leaving_reachable reached
  obtain ⟨alive, worker, caller, popped, at_rest, living⟩ := added
  have at_w : s.pool.worker w = .wait := by
    rw [worker]
    exact Function.update_self ..
  have idle : s.pool.closing = .notBegun := by
    by_contra begun
    simp [leaving.closing begun] at living
  have asleep := reached.step ⟨alive, .work w (by simp [living]) (.wait at_w)⟩
  have gone := asleep.step ⟨alive, .main (.destroy at_rest caller living)⟩
  have stopped := gone.step ⟨alive, .main (.close rfl (.stop idle))⟩
  have woken := stopped.step ⟨alive, .main (.close rfl (.notifyAll rfl))⟩
  have at_w' : Pool.wake ((s.pool.goto w .blocked).worker w) = .relockWaiting := by
    rw [Pool.goto_self]
    rfl
  have locked := woken.step
    ⟨alive, .work w (fun _ => congrArg Worker.hand at_w') (.relockWaiting at_w' rfl)⟩
  have next : Function.update (fun v => Pool.wake ((s.pool.goto w .blocked).worker v)) w
      .unlockWaiting w = (.unlockWaiting : Worker τ Place) := Function.update_self ..
  have unlocked := locked.step
    ⟨alive, .work w (fun _ => congrArg Worker.hand next) (.unlockWaiting next)⟩
  refine ⟨_, unlocked, alive, ?_, popped, rfl, rfl, rfl⟩
  funext v
  by_cases here : v = w
  · subst here
    simp [Pool.goto]
  · simp [Pool.goto, here, worker, Pool.wake]

omit [Fintype ω] in
theorem Joining.all (left : Finset ω) (reached : Reachable (program turns tasks) s)
    (joining : Joining done ∅ s) :
    ∃ s' : Machine τ ω, Reachable (program turns tasks) s' ∧ Joining done left s' := by
  induction left using Finset.induction_on with
  | empty => exact ⟨s, reached, joining⟩
  | insert v left absent ih =>
      obtain ⟨s', reached', alive, worker, popped, destroyed, closing, stopped⟩ := ih
      have at_v : s'.pool.worker v = .testRunning := by
        rw [worker]
        exact if_neg absent
      have finished := reached'.step
        ⟨alive, .work v (fun _ => congrArg Worker.hand at_v) (.notRunning at_v stopped)⟩
      refine ⟨_, finished, alive, ?_, popped, destroyed, closing, stopped⟩
      funext u
      by_cases here : u = v
      · subst here
        simp [Pool.goto]
      · simp [Pool.goto, here, worker]

theorem exists_returned (w : ω) (distinct : done.Nodup) (rest : List τ) :
    ∃ s : Machine τ ω, Reachable (program turns (done ++ rest)) s ∧
      s.pool.closing = .joined ∧ s.pool.popped.map Prod.snd = done := by
  have served : ∃ s : Machine τ ω, Reachable (program turns (done ++ rest)) s ∧
      Ready w done rest s := exists_ready w distinct rest
  obtain ⟨s, reached, ready⟩ := served
  obtain ⟨s, reached, adding⟩ := ready.sleepy reached
  have awake : ∀ v, sleepy (τ := τ) w v ≠ .blocked := by
    intro v
    unfold sleepy
    rw [Function.update_apply]
    split <;> simp
  rw [← List.append_nil rest] at adding
  obtain ⟨s, reached, added⟩ := adding.all awake reached
  obtain ⟨s, reached, joining⟩ := added.joining reached
  obtain ⟨s, reached, alive, worker, popped, destroyed, closing, _⟩ :=
    Joining.all Finset.univ reached joining
  have finished : ∀ v, s.pool.worker v = .finished := by
    intro v
    rw [worker]
    exact if_pos (Finset.mem_univ v)
  exact ⟨_, reached.step ⟨alive, .main (.close destroyed (.join closing finished))⟩, rfl, popped⟩

/-- When `main` has returned, the workers have executed different tasks, those that were added
    first; the other entries stay in the queue. A task that was executed has counted once to
    the end, the other ones have not counted. -/
theorem main_returns (reached : Reachable (program turns tasks) s)
    (joined : s.pool.closing = .joined) : ∃ done : List τ, Handled s.pool done ∧ done.Nodup ∧
      tasks = done ++ s.pool.m_tasks.cells ∧
      ∀ tsk, s.objects tsk = ⟨if tsk ∈ done then turns else 0, false⟩ := by
  obtain ⟨handled, distinct, all⟩ := executed_of_joined reached joined
  refine ⟨s.pool.popped.map Prod.snd, handled, distinct, all, ?_⟩
  intro tsk
  have finished := ((leaving_reachable reached).joined joined).2
  have counted := counted_reachable reached
  have idle : ∀ w, hands s.pool w = none := by
    intro w
    rw [hands, finished w]
    rfl
  have times : returned s.pool tsk = (s.pool.popped.map Prod.snd).count tsk := by
    have free := free_of_joined (leaving_reachable reached) joined
    have completed := (perm_of_free (Pool.sound_reachable (pool_reachable reached)) free).2.1
    rw [returned, (completed.map s.pool.task).count_eq, map_task_range]
    exact List.count_map_of_injective _ some (Option.some_injective τ) tsk
  have m_sum := counted.sum tsk
  obtain ⟨owner, mutex, owned⟩ := counted.locked tsk
  have unlocked : owner = none := by
    cases owner with
    | none => rfl
    | some w =>
        have locks := (owned w).mp rfl
        simp [idle, ThreadpoolTest.locks] at locks
  apply MyTask.ext
  · rw [m_sum, times]
    by_cases member : tsk ∈ s.pool.popped.map Prod.snd
    · rw [if_pos member, List.count_eq_one_of_mem distinct member]
      simp [idle, share]
    · rw [if_neg member, List.count_eq_zero.mpr member]
      simp [idle, share]
  · rw [mutex, unlocked]
    rfl

/-- With four workers and the tasks of the test, most entries are never executed. -/
theorem main_returns_eight_tasks :
    ∃ s : Machine (Fin 8) (Fin 4), Reachable (program 100000 mainTasks) s ∧
      s.pool.closing = .joined ∧ s.pool.executed.length ≤ 8 ∧
      24 ≤ s.pool.m_tasks.cells.length := by
  have returns : ∃ s : Machine (Fin 8) (Fin 4), Reachable (program 100000 mainTasks) s ∧
      s.pool.closing = .joined ∧ s.pool.popped.map Prod.snd = List.finRange 8 :=
    exists_returned ⟨0, by decide⟩ (List.nodup_finRange 8) _
  obtain ⟨s, reached, joined, _⟩ := returns
  obtain ⟨done, handled, distinct, all, _⟩ := main_returns reached joined
  have few := distinct.length_le_card
  have total := congrArg List.length all
  simp only [mainTasks, List.length_append, List.length_finRange] at total
  rw [Fintype.card_fin] at few
  have executed := handled.1.length_eq
  rw [List.length_map, List.length_map] at executed
  exact ⟨s, reached, joined, by omega, by omega⟩

/-- What the workers can have executed when `main` returns: the first tasks up to any place
    before which none is repeated. -/
theorem main_can_return_iff [Nonempty ω] (done : List τ) :
    ((∃ s : Machine τ ω, Reachable (program turns tasks) s ∧ s.pool.closing = .joined ∧
      s.pool.popped.map Prod.snd = done) ↔ done <+: tasks ∧ done.Nodup) ∧
    ∀ s : Machine τ ω, Reachable (program turns tasks) s → s.pool.closing = .joined →
      s.pool.popped.map Prod.snd = done → Handled s.pool done := by
  constructor
  · constructor
    · rintro ⟨s, reached, joined, rfl⟩
      obtain ⟨_, distinct, all⟩ := executed_of_joined reached joined
      exact ⟨⟨_, all.symm⟩, distinct⟩
    · rintro ⟨⟨rest, rfl⟩, distinct⟩
      exact exists_returned (Classical.arbitrary ω) distinct rest
  · rintro s reached joined rfl
    exact (executed_of_joined reached joined).1

/-- Four workers can have executed each of the eight tasks once, but not twice. -/
theorem main_can_return_iff_eight_tasks :
    (∃ s : Machine (Fin 8) (Fin 4), Reachable (program 100000 mainTasks) s ∧
      s.pool.closing = .joined ∧ Handled s.pool (List.finRange 8)) ∧
    ¬ ∃ s : Machine (Fin 8) (Fin 4), Reachable (program 100000 mainTasks) s ∧
      s.pool.closing = .joined ∧
      s.pool.popped.map Prod.snd = List.finRange 8 ++ List.finRange 8 := by
  constructor
  · have returns : ∃ s : Machine (Fin 8) (Fin 4), Reachable (program 100000 mainTasks) s ∧
        s.pool.closing = .joined ∧ s.pool.popped.map Prod.snd = List.finRange 8 :=
      (main_can_return_iff _).1.mpr ⟨List.prefix_append _ _, List.nodup_finRange 8⟩
    obtain ⟨s, reached, joined, popped⟩ := returns
    exact ⟨s, reached, joined, (main_can_return_iff _).2 s reached joined popped⟩
  · intro returns
    have distinct := ((main_can_return_iff _).1.mp returns).2
    revert distinct
    decide

end Returning

/-! ## While `main` sleeps -/

section Sleep

variable [Fintype ω] {t : Pool τ ω Unit Place × (τ → MyTask)}

omit [Fintype ω] in
/-- What the workers do on their own, they do in the program. -/
theorem reachable_of_alone (reached : Reachable (program turns tasks) s)
    (living : s.destroyed = false)
    (later : Reachable (Pool.alone (code turns) (s.pool, s.objects)) t) :
    Reachable (program turns tasks) { s with pool := t.1, objects := t.2 } ∧
      t.1.added = s.pool.added ∧ t.1.m_isRunning = s.pool.m_isRunning := by
  induction later with
  | init same =>
      cases same
      exact ⟨reached, rfl, rfl⟩
  | step _ move ih =>
      obtain ⟨alive, w, _, work⟩ := move
      obtain ⟨before, added, running⟩ := ih
      exact ⟨before.step ⟨alive, .work w (by simp [living]) work⟩, work.added.trans added,
        work.closing.2.trans running⟩

omit [Fintype ω] in
/-- The pool is running until `main` comes to its destructor. -/
theorem running_reachable (reached : Reachable (program turns tasks) s) :
    s.pool.closing = .notBegun → s.pool.m_isRunning = true := by
  induction reached with
  | init start =>
      cases start
      exact fun _ => rfl
  | step _ move ih =>
      cases move.2 with
      | work w _ work =>
          rw [work.closing.1, work.closing.2]
          exact ih
      | main main =>
          cases main with
          | addTask _ call _ | notifyOne _ call =>
              rw [call.closing.1, call.closing.2]
              exact ih
          | destroy _ _ _ => exact ih
          | close _ close =>
              intro idle
              cases close <;> cases idle

omit [Fintype ω] in
/-- Workers that do not look at the queue do not throw. -/
theorem alive_of_not_inSight {code : TaskCode τ (τ → MyTask) Place}
    {s t : Pool τ ω Unit Place × (τ → MyTask)} (alive : s.1.terminated = false)
    (away : ¬ s.1.InSight) (later : Reachable (Pool.alone code s) t) :
    t.1.terminated = false ∧ ¬ t.1.InSight := by
  induction later with
  | init same =>
      cases same
      exact ⟨alive, away⟩
  | @step t t' _ move ih =>
      obtain ⟨_, w, awake, work⟩ := move
      refine ⟨?_, work.not_inSight awake ih.2⟩
      by_contra dead
      obtain ⟨e, tsk, at_w, _⟩ := work.throws ih.1 (by simpa using dead)
      apply ih.2
      refine Or.inr ⟨w, ?_⟩
      rw [at_w]
      trivial

omit [Fintype ω] in
theorem added_distinct (reached : Reachable (program turns tasks) s)
    (alive : s.pool.terminated = false) (free : ∀ w, (s.pool.worker w).hand = none)
    (empty : s.pool.m_tasks.cells = []) : s.pool.added.Nodup := by
  have sound := Pool.sound_reachable (pool_reachable reached)
  have once := (alive_iff (pool_reachable reached)).mp alive
  rw [(handled_of_free sound free).2.nodup_iff] at once
  have order : s.pool.added = s.pool.popped.map Prod.snd ++ s.pool.m_tasks.cells := sound.order
  rw [order, empty, List.append_nil]
  exact once.of_map some

/-- While `main` sleeps, after it has added some task twice, the workers come to an end after
    a bounded number of actions: the process is terminated exactly if the queue was in sight,
    and otherwise all workers are asleep. -/
theorem sleep_ends (reached : Reachable (program turns tasks) s) (living : s.destroyed = false)
    (alive : s.pool.terminated = false) (twice : ¬ s.pool.added.Nodup)
    (small : tasks.length < 2 ^ 32) :
    Ends (Pool.alone (code turns) (s.pool, s.objects))
      (fun t => t.1.rank (fun _ => Place.left turns) (5 * turns)) fun t =>
        (t.1.terminated = true ↔ s.pool.InSight) ∧
        (t.1.terminated = true ∨ ∀ w, t.1.worker w = .blocked) := by
  have idle : s.pool.closing = .notBegun := by
    by_contra begun
    simp [(leaving_reachable reached).closing begun] at living
  have running := running_reachable reached idle
  have stored : s.pool.m_tasks.cells.length < 2 ^ 32 := by
    have added := added_append reached
    have order : s.pool.added = s.pool.popped.map Prod.snd ++ s.pool.m_tasks.cells :=
      (Pool.sound_reachable (pool_reachable reached)).order
    have total := congrArg List.length added
    rw [order] at total
    simp only [List.length_append] at total
    omega
  apply Ends.of_rank
  · intro t t' _ step
    obtain ⟨_, w, awake, work⟩ := step
    exact work.rank_lt (code_bounded turns) awake
  · intro t later more
    by_contra stuck
    apply more
    obtain ⟨reached', added, running'⟩ := reachable_of_alone reached living later
    have reachedPool : Reachable (Pool.system (code turns)) t := pool_reachable reached'
    cases dead : t.1.terminated with
    | true =>
        refine ⟨iff_of_true rfl ?_, Or.inl rfl⟩
        by_contra away
        have still := (alive_of_not_inSight alive away later).1
        simp [dead] at still
    | false =>
        have asleep := Pool.asleep_of_stuck reachedPool (running'.trans running)
          (canExecute (counted_reachable reached')) dead fun t' step => stuck ⟨t', step⟩
        refine ⟨iff_of_false (by simp) ?_, Or.inr asleep⟩
        intro inSight
        have later_inSight := ((Pool.alone_keeps running stored later).2.2 dead).mpr inSight
        apply twice
        rw [← added]
        apply added_distinct reached' dead _ (later_inSight.empty asleep)
        intro w
        rw [asleep w]
        rfl

/-- No worker has begun when `main` first sleeps. -/
theorem sleep_ends_eight_tasks : ∃ s : Machine (Fin 8) (Fin 4),
    Reachable (program 100000 mainTasks) s ∧ s.pool.InSight ∧
    Ends (Pool.alone (code 100000) (s.pool, s.objects))
      (fun t => t.1.rank (fun _ => Place.left 100000) (5 * 100000)) fun t =>
        (t.1.terminated = true ↔ s.pool.InSight) ∧
        (t.1.terminated = true ∨ ∀ w, t.1.worker w = .blocked) := by
  have halves : mainTasks = (List.finRange 8 ++ List.finRange 8) ++
      (List.finRange 8 ++ List.finRange 8) := by simp [mainTasks]
  have start : Reachable (program 100000 mainTasks)
      (⟨Pool.fresh, fun _ => .make, mainTasks, false⟩ : Machine (Fin 8) (Fin 4)) := .init rfl
  have adding : Adding (fun _ => .testRunning) [] ((List.finRange 8 ++ List.finRange 8) ++
      (List.finRange 8 ++ List.finRange 8))
      (⟨Pool.fresh, fun _ => .make, mainTasks, false⟩ : Machine (Fin 8) (Fin 4)) :=
    ⟨rfl, rfl, rfl, rfl, halves, rfl⟩
  obtain ⟨s, reached, alive, worker, _, _, rest, living⟩ := adding.all (by simp) start
  have added : s.pool.added = List.finRange 8 ++ List.finRange 8 := by
    have all := added_append reached
    rw [rest, halves] at all
    exact List.append_cancel_right all
  have twice : ¬ s.pool.added.Nodup := by
    rw [added]
    decide
  have inSight : s.pool.InSight := by
    refine Or.inr ⟨⟨0, by decide⟩, ?_⟩
    rw [worker]
    trivial
  exact ⟨s, reached, inSight, sleep_ends reached living alive twice (by decide)⟩

end Sleep

end KMeans.ThreadpoolTest
