import KMeans.Tests.ThreadpoolRuns

/-! # Every run of the test of `CThreadPool` ends

The mutexes of the tasks, the queue and `main` never block each other: without spurious
wake-ups a run makes a bounded number of actions. Where it stops, the process has been
terminated, or `main` has returned, or its destructor waits for a worker that sleeps, or a
worker is about to use a task that `main` has destroyed.
-/

namespace KMeans.ThreadpoolTest

open Transition

variable {τ ω : Type} [DecidableEq τ] [DecidableEq ω]

/-- The actions of the program, spurious wake-ups apart. -/
inductive Prompted (turns : Nat) : Machine τ ω → Machine τ ω → Prop
  | main {s s'} : Main s s' → Prompted turns s s'
  | work {s : Machine τ ω} (w : ω) {p x} : s.pool.worker w ≠ .blocked →
      (s.destroyed = true → (s.pool.worker w).hand = none) →
      Pool.Work (code turns) w s.pool s.objects p x →
      Prompted turns s { s with pool := p, objects := x }

/-- The interleavings in which no worker wakes up spuriously any more. -/
def prompted (turns : Nat) (tasks : List τ) : System (Machine τ ω) where
  init := Reachable (program turns tasks)
  step s s' := s.pool.terminated = false ∧ Prompted turns s s'

variable {turns : Nat} {tasks : List τ} {s s' : Machine τ ω}

theorem reachable_of_prompted (reached : Reachable (prompted turns tasks) s) :
    Reachable (program turns tasks) s := by
  induction reached with
  | init before => exact before
  | step _ move ih =>
      obtain ⟨alive, step⟩ := move
      cases step with
      | main main => exact ih.step ⟨alive, .main main⟩
      | work w _ undisturbed work => exact ih.step ⟨alive, .work w undisturbed work⟩

/-! ## Actions left -/

/-- Whether `main` is about to notify. -/
def pending : Caller τ → Nat
  | .notifyOne _ => 1
  | _ => 0

omit [DecidableEq τ] in
theorem pending_le (caller : Caller τ) : pending caller ≤ 1 := by
  cases caller with
  | notifyOne _ => exact Nat.le_refl 1
  | _ => exact Nat.zero_le 1

/-- The actions of the destructor, and those of the `n` workers that it wakes up. -/
def closeLeft (n : Nat) : Closing → Nat
  | .notBegun => 7 * n + 3
  | .stopped => 7 * n + 2
  | .notified => 1
  | .joined => 0

section Rank

variable [Fintype ω]

/-- What a call of `main` costs at most: the actions of an entry, or of a worker that wakes up,
    and its own. -/
def callCost (ω : Type) [Fintype ω] (turns : Nat) : Nat := Pool.perEntry ω (5 * turns) + 8

def Machine.rank (turns : Nat) (s : Machine τ ω) : Nat :=
  s.rest.length * (2 * callCost ω turns) + pending (s.pool.caller ()) * callCost ω turns +
    (if s.destroyed then 0 else 1) + closeLeft (Fintype.card ω) s.pool.closing +
    s.pool.rank (fun _ => Place.left turns) (5 * turns)

omit [DecidableEq τ] in
theorem rank_wake_le (left : τ → Place → Nat) (most : Nat) (stored : Bool)
    (point : Worker τ Place) :
    (Pool.wake point).rank left most stored ≤ point.rank left most stored + 7 := by
  cases point with
  | blocked => exact Nat.le_refl 7
  | _ => exact Nat.le_add_right _ 7

omit [DecidableEq ω] [DecidableEq τ] in
theorem Close.rank_lt {p p' : Pool τ ω Unit Place} (close : Pool.Close p p')
    (left : τ → Place → Nat) (most : Nat) :
    closeLeft (Fintype.card ω) p'.closing + p'.rank left most <
      closeLeft (Fintype.card ω) p.closing + p.rank left most := by
  cases close with
  | stop at_c =>
      have same : Pool.rank left most { p with closing := .stopped, m_isRunning := false } =
          p.rank left most := rfl
      rw [same, at_c]
      simp only [closeLeft]
      omega
  | notifyAll at_c =>
      have total := Finset.sum_le_sum fun v (_ : v ∈ Finset.univ) =>
        rank_wake_le left most p.stored (p.worker v)
      rw [Finset.sum_add_distrib, Finset.sum_const, Finset.card_univ, Nat.nsmul_eq_mul] at total
      have woken : Pool.rank left most
          { p with closing := .notified, worker := fun w => Pool.wake (p.worker w) } =
          p.m_tasks.cells.length * Pool.perEntry ω most +
            ∑ w, (Pool.wake (p.worker w)).rank left most p.stored := rfl
      rw [woken, at_c]
      simp only [closeLeft, Pool.rank] at total ⊢
      omega
  | join at_c _ =>
      have same : Pool.rank left most { p with closing := .joined } = p.rank left most := rfl
      rw [same, at_c]
      simp only [closeLeft]
      omega

omit [DecidableEq τ] in
theorem Main.rank_lt (turns : Nat) (main : Main s s') : s'.rank turns < s.rank turns := by
  cases main with
  | @addTask tsk rest p at_rest call _ =>
      have pool : p.rank (fun _ => Place.left turns) (5 * turns) ≤
          s.pool.rank (fun _ => Place.left turns) (5 * turns) +
            Pool.perEntry ω (5 * turns) + 7 := call.rank_le
      have few := pending_le (p.caller ())
      have cost : pending (p.caller ()) * callCost ω turns ≤ callCost ω turns :=
        (Nat.mul_le_mul_right _ few).trans (Nat.one_mul _).le
      have entry : callCost ω turns = Pool.perEntry ω (5 * turns) + 8 := rfl
      have one_more : (rest.length + 1) * (2 * callCost ω turns) =
          rest.length * (2 * callCost ω turns) + 2 * callCost ω turns := Nat.succ_mul _ _
      simp only [Machine.rank, at_rest, List.length_cons, one_more, call.closing.1]
      omega
  | @notifyOne tsk p at_c call =>
      have pool : p.rank (fun _ => Place.left turns) (5 * turns) ≤
          s.pool.rank (fun _ => Place.left turns) (5 * turns) +
            Pool.perEntry ω (5 * turns) + 7 := call.rank_le
      have out : pending (p.caller ()) = 0 := by
        cases call with
        | pushBack _ out | callWait _ out => simp [at_c] at out
        | notifyOne _ _ _ | notifyNobody _ _ | waitReturns _ _ => simp [pending]
      simp only [Machine.rank, at_c, call.closing.1, out]
      simp only [pending, callCost]
      omega
  | destroy _ _ living =>
      simp [Machine.rank, living]
  | @close p destroyed close =>
      have less := Close.rank_lt close (fun _ => Place.left turns) (5 * turns)
      have caller : p.caller = s.pool.caller := by cases close <;> rfl
      simp only [Machine.rank, caller]
      omega

theorem Prompted.rank_lt (step : Prompted turns s s') : s'.rank turns < s.rank turns := by
  cases step with
  | main main => exact main.rank_lt turns
  | work w awake _ work =>
      have less := work.rank_lt (code_bounded turns) awake
      simp only [Machine.rank, work.caller, work.closing.1]
      omega

end Rank

/-! ## Where a run stops -/

/-- The destructor waits for a worker that nobody wakes up any more. -/
structure Hangs (s : Machine τ ω) : Prop where
  closing : s.pool.closing = .notified
  asleep : ∃ w, s.pool.worker w = .blocked
  settled : ∀ w, s.pool.worker w = .blocked ∨ s.pool.worker w = .finished

/-- A worker has a destroyed task in hand. -/
def Undefined (s : Machine τ ω) : Prop :=
  s.destroyed = true ∧ ∃ w, (s.pool.worker w).hand ≠ none

/-- `main` calls `AddTask` only. -/
theorem caller_reachable (reached : Reachable (program turns tasks) s) (tsk : τ) :
    s.pool.caller () ≠ .waitFor tsk := by
  induction reached with
  | init start =>
      cases start
      simp [Pool.fresh]
  | step _ move ih =>
      cases move.2 with
      | work w _ work =>
          rw [work.caller]
          exact ih
      | main main =>
          cases main with
          | addTask _ call added =>
              cases call with
              | pushBack _ _ => simp
              | notifyOne _ _ _ | notifyNobody _ _ | callWait _ _ | waitReturns _ _ =>
                  exact absurd added (by simp [Pool.goto])
          | notifyOne at_c call =>
              cases call with
              | pushBack _ out | callWait _ out => simp [at_c] at out
              | notifyOne _ _ _ | notifyNobody _ _ | waitReturns _ _ => simp
          | destroy _ _ _ => exact ih
          | close _ close => cases close <;> exact ih

/-- When no worker can act, `main` can, until its destructor waits. -/
theorem exists_main (reached : Reachable (program turns tasks) s)
    (settled : ∀ w, s.pool.worker w = .blocked ∨ s.pool.worker w = .finished)
    (unjoined : s.pool.closing ≠ .joined) (goes : ¬ Hangs s) : ∃ s', Main s s' := by
  cases at_c : s.pool.caller () with
  | waitFor tsk => exact absurd at_c (caller_reachable reached tsk)
  | notifyOne tsk =>
      by_cases asleep : ∃ w, s.pool.worker w = .blocked
      · obtain ⟨w, asleep⟩ := asleep
        exact ⟨_, .notifyOne at_c (.notifyOne w at_c asleep)⟩
      · exact ⟨_, .notifyOne at_c (.notifyNobody at_c fun w here => asleep ⟨w, here⟩)⟩
  | outside =>
      cases at_rest : s.rest with
      | cons tsk rest => exact ⟨_, .addTask at_rest (.pushBack tsk at_c) rfl⟩
      | nil =>
          cases living : s.destroyed with
          | false => exact ⟨_, .destroy at_rest at_c living⟩
          | true =>
              cases closing : s.pool.closing with
              | notBegun => exact ⟨_, .close living (.stop closing)⟩
              | stopped => exact ⟨_, .close living (.notifyAll closing)⟩
              | joined => exact absurd closing unjoined
              | notified =>
                  have awake : ∀ w, s.pool.worker w ≠ .blocked :=
                    fun w asleep => goes ⟨closing, ⟨w, asleep⟩, settled⟩
                  exact ⟨_, .close living
                    (.join closing fun w => (settled w).resolve_left (awake w))⟩

/-- Without spurious wake-ups every run of the program ends, in one of four ways; it is
    terminated exactly if a task was notified twice. -/
theorem program_ends [Fintype ω] (turns : Nat) (tasks : List τ) :
    Ends (prompted (ω := ω) turns tasks) (Machine.rank turns) fun s =>
      (s.pool.terminated = true ↔ ¬ (s.pool.notified.map s.pool.task).Nodup) ∧
      (s.pool.terminated = true ∨ s.pool.closing = .joined ∨ Hangs s ∨ Undefined s) := by
  apply Ends.of_rank
  · intro s s' _ move
    exact move.2.rank_lt
  · intro s reached more
    have before := reachable_of_prompted reached
    have twice : s.pool.terminated = true ↔ ¬ (s.pool.notified.map s.pool.task).Nodup := by
      rw [← alive_iff (pool_reachable before), Bool.not_eq_false]
    simp only [twice, true_and, not_or] at more
    obtain ⟨alive, unjoined, goes, defined⟩ := more
    have alive : s.pool.terminated = false := by
      rw [← twice] at alive
      exact Bool.eq_false_of_not_eq_true alive
    by_cases settled : ∀ w, s.pool.worker w = .blocked ∨ s.pool.worker w = .finished
    · obtain ⟨s', main⟩ := exists_main before settled unjoined goes
      exact ⟨s', alive, .main main⟩
    · push Not at settled
      obtain ⟨w, awake, unfinished⟩ := settled
      have reachedPool := pool_reachable before
      obtain ⟨v, p, x, awake', work⟩ := Pool.exists_work (Pool.owned_of_reachable reachedPool)
        (canExecute (counted_reachable before)) awake unfinished
      have undisturbed : s.destroyed = true → (s.pool.worker v).hand = none := by
        intro destroyed
        by_contra held
        exact defined ⟨destroyed, v, held⟩
      exact ⟨_, alive, .work v awake' undisturbed work⟩

end KMeans.ThreadpoolTest
