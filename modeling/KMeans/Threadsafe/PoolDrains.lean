import Mathlib.Algebra.Order.BigOperators.Group.Finset
import KMeans.Threadsafe.PoolShutdown

/-! # When the workers empty the queue

Left alone, the workers of a pool come to rest: if each `Execute` returns and nobody is
woken up without a reason, they make a bounded number of actions. Whether they have then
done what was in the queue was settled before: some worker had yet to look at the queue.
-/

namespace KMeans

open Transition

variable {τ ω κ σ β : Type}

/-- Each action of an `Execute` brings it nearer to its end, from which it is at most `most`
    actions away when it starts. -/
structure TaskCode.Bounded (code : TaskCode τ σ β) (left : τ → β → Nat) (most : Nat) : Prop where
  start : ∀ tsk, left tsk (code.start tsk) ≤ most
  act : ∀ tsk b x b' x', code.act tsk b x b' x' → left tsk b' < left tsk b

/-! ## Actions left -/

/-- How far a worker is from its next sleep, if it pops nothing more. A worker that is about
    to pop is farther from it when the queue turns out to be empty. -/
def Worker.rank (left : τ → β → Nat) (most : Nat) (stored : Bool) : Worker τ β → Nat
  | .blocked | .finished => 0
  | .wait => 1
  | .lockWaiting => 2
  | .popFront => if stored then 3 else 5
  | .testEmpty => 4
  | .testRunning | .notify _ _ => 5
  | .unlockWaiting => 6
  | .relockWaiting => 7
  | .execute _ tsk b => left tsk b + 6
  | .callExecute _ _ => most + 7

theorem Worker.rank_le (left : τ → β → Nat) (most : Nat) (stored : Bool) (point : Worker τ β) :
    point.rank left most stored ≤ point.rank left most true + 2 := by
  cases point with
  | popFront => cases stored <;> simp [Worker.rank]
  | _ => exact Nat.le_add_right _ 2

theorem Worker.rank_true_le (left : τ → β → Nat) (most : Nat) (stored : Bool)
    (point : Worker τ β) : point.rank left most true ≤ point.rank left most stored := by
  cases point with
  | popFront => cases stored <;> simp [Worker.rank]
  | _ => exact Nat.le_refl _

/-- Before it next sleeps, the worker of a running pool looks at the queue. -/
def Worker.looks : Worker τ β → Prop
  | .lockWaiting | .wait | .blocked | .finished => False
  | _ => True

namespace Pool

/-- The actions that an entry of the queue can give rise to, its own and those of workers that
    find it gone. -/
def perEntry (ω : Type) [Fintype ω] (most : Nat) : Nat := 2 * Fintype.card ω + most + 5

/-- The queue holds something. -/
def stored (p : Pool τ ω κ β) : Bool := !p.m_tasks.cells.isEmpty

variable [Fintype ω] (left : τ → β → Nat) (most : Nat)

/-- The actions that the workers have left, at most, if nothing is added and nobody woken up. -/
def rank (p : Pool τ ω κ β) : Nat :=
  p.m_tasks.cells.length * perEntry ω most + ∑ w, (p.worker w).rank left most p.stored

variable [DecidableEq τ] [DecidableEq ω] [DecidableEq κ] {left most} {code : TaskCode τ σ β}
  {p p' : Pool τ ω κ β} {x x' : σ} {w : ω} {point : Worker τ β}

omit [DecidableEq τ] [DecidableEq κ] in
theorem rank_goto (moved : p'.worker = (p.goto w point).worker) (same : p'.m_tasks = p.m_tasks)
    (less : point.rank left most p.stored < (p.worker w).rank left most p.stored) :
    p'.rank left most < p.rank left most := by
  have still : p'.stored = p.stored := by rw [stored, same]; rfl
  unfold rank
  rw [still, same, moved]
  apply Nat.add_lt_add_left
  apply Finset.sum_lt_sum
  · intro v _
    by_cases here : v = w
    · subst here
      rw [goto_self]
      exact less.le
    · rw [goto_other p here]
  · refine ⟨w, Finset.mem_univ w, ?_⟩
    rw [goto_self]
    exact less

omit [DecidableEq τ] [DecidableEq κ] in
/-- An entry pays for its own actions, and for the workers that are about to pop it too. -/
theorem rank_pop {front : τ} (moved : p'.worker = (p.goto w point).worker)
    (popped : p.m_tasks.cells = front :: p'.m_tasks.cells) (at_w : p.worker w = .popFront)
    (bound : ∀ stored, point.rank left most stored ≤ most + 7) :
    p'.rank left most < p.rank left most := by
  have full : p.stored = true := by rw [stored, popped]; rfl
  have each : ∀ v, (p'.worker v).rank left most p'.stored ≤
      (p.worker v).rank left most true + 2 + if v = w then most + 4 else 0 := by
    intro v
    rw [moved]
    by_cases here : v = w
    · subst here
      have high := bound p'.stored
      have low : (p.worker v).rank left most true = 3 := by rw [at_w]; rfl
      rw [goto_self, if_pos rfl, low]
      omega
    · rw [goto_other p here, if_neg here]
      exact (p.worker v).rank_le left most p'.stored
  have total := Finset.sum_le_sum fun v (_ : v ∈ Finset.univ) => each v
  rw [Finset.sum_add_distrib, Finset.sum_add_distrib, Finset.sum_ite_eq', Finset.sum_const,
    if_pos (Finset.mem_univ w), Finset.card_univ, Nat.nsmul_eq_mul] at total
  unfold rank
  rw [popped, List.length_cons, Nat.succ_mul, full]
  unfold perEntry
  omega

omit [DecidableEq κ] in
/-- Without a spurious wake-up, every action of a worker takes it nearer to its sleep. -/
theorem Work.rank_lt (bounded : code.Bounded left most) (work : Work code w p x p' x')
    (awake : p.worker w ≠ .blocked) : p'.rank left most < p.rank left most := by
  cases work with
  | pop at_w popped =>
      exact rank_pop (w := w) rfl (BlockingList.pop_front_eq_some popped) at_w
        fun _ => Nat.le_refl _
  | notEmpty at_w full =>
      have some_cell : p.stored = true := by
        by_contra none
        have nil : p.m_tasks.cells = [] := by simpa [stored] using none
        simp [BlockingList.empty, p.m_tasks.counted, nil] at full
      refine rank_goto (w := w) rfl rfl ?_
      rw [at_w, some_cell]
      simp [Worker.rank]
  | popFails at_w none =>
      have empty : p.stored = false := by
        rw [stored, BlockingList.pop_front_eq_none.mp none]
        rfl
      refine rank_goto (w := w) rfl rfl ?_
      rw [at_w, empty]
      simp [Worker.rank]
  | @callExecute e tsk at_w =>
      refine rank_goto (w := w) rfl rfl ?_
      have start := bounded.start tsk
      rw [at_w]
      simp only [Worker.rank]
      omega
  | execute at_w act =>
      refine rank_goto (w := w) rfl rfl ?_
      have less := bounded.act _ _ _ _ _ act
      rw [at_w]
      simp only [Worker.rank]
      omega
  | wakeUp at_w => exact absurd at_w awake
  | running at_w _ | notRunning at_w _ | empty at_w _ | returns at_w _ | notify at_w _
  | notifyThrows at_w _ | lockWaiting at_w _ | wait at_w | relockWaiting at_w _
  | unlockWaiting at_w =>
      refine rank_goto (w := w) rfl rfl ?_
      rw [at_w]
      simp [Worker.rank]

omit [DecidableEq τ] in
/-- A call adds the actions of one entry, or those of one worker that it wakes up. -/
theorem Call.rank_le {c : κ} (call : Call c p p') :
    p'.rank left most ≤ p.rank left most + perEntry ω most + 7 := by
  cases call with
  | pushBack tsk _ =>
      have total := Finset.sum_le_sum fun v (_ : v ∈ Finset.univ) =>
        (p.worker v).rank_true_le left most p.stored
      have full : stored { p with
          m_tasks := p.m_tasks.push_back tsk
          caller := Function.update p.caller c (.notifyOne tsk)
          added := p.added ++ [tsk] } = true := by
        simp [stored]
      unfold rank
      rw [full, BlockingList.cells_push_back, List.length_append, List.length_singleton,
        Nat.add_mul, Nat.one_mul]
      dsimp only
      omega
  | notifyOne w _ at_w =>
      have each : ∀ v, ((p.goto w .relockWaiting).worker v).rank left most p.stored ≤
          (p.worker v).rank left most p.stored + if v = w then 7 else 0 := by
        intro v
        by_cases here : v = w
        · subst here
          rw [goto_self, if_pos rfl]
          exact Nat.le_add_left _ _
        · rw [goto_other p here, if_neg here]
          exact Nat.le_refl _
      have total := Finset.sum_le_sum fun v (_ : v ∈ Finset.univ) => each v
      rw [Finset.sum_add_distrib, Finset.sum_ite_eq', if_pos (Finset.mem_univ w)] at total
      unfold rank
      change _ + ∑ v, ((p.goto w .relockWaiting).worker v).rank left most p.stored ≤ _
      change p.m_tasks.cells.length * perEntry ω most + _ ≤ _
      omega
  | notifyNobody _ _ | callWait _ _ | waitReturns _ _ =>
      exact Nat.le_add_right_of_le (Nat.le_add_right _ _)

/-! ## What can stop the workers -/

section Enabled

omit [Fintype ω]

variable {s s' : Pool τ ω κ β × σ}

omit [DecidableEq κ] in
theorem Work.lockMove (work : Work code w p x p' x')
    (owned : Owned p.m_waiting_mutex fun v => ownsWaiting (p.worker v)) : ∃ point,
      p'.worker = Function.update p.worker w point ∧ LockMove w p.m_waiting_mutex
        p'.m_waiting_mutex (ownsWaiting (p.worker w)) (ownsWaiting point) := by
  have mine : p.m_waiting_mutex = some w ↔ ownsWaiting (p.worker w) = true := owned w
  cases work with
  | lockWaiting at_w free | relockWaiting at_w free =>
      refine ⟨_, rfl, ?_⟩
      rw [free]
      exact .acquire
  | wait at_w | unlockWaiting at_w =>
      refine ⟨_, rfl, ?_⟩
      rw [at_w] at mine ⊢
      rw [mine.mpr rfl]
      exact .release
  | running at_w _ | notRunning at_w _ | notEmpty at_w _ | empty at_w _ | popFails at_w _
  | pop at_w _ | callExecute at_w | execute at_w _ | returns at_w _ | notify at_w _
  | notifyThrows at_w _ | wakeUp at_w =>
      refine ⟨_, rfl, .of_eq ?_⟩
      rw [at_w]
      rfl

omit [DecidableEq τ] in
theorem ownsWaiting_wake (point : Worker τ β) : ownsWaiting (wake point) = ownsWaiting point := by
  cases point <;> rfl

/-- `m_waiting_mutex` belongs to the worker that is in a section of it. -/
theorem owned_of_reachable (reached : Reachable (system code) s) :
    Owned s.1.m_waiting_mutex fun w => ownsWaiting (s.1.worker w) := by
  induction reached with
  | init idle => exact Idle.m_waiting_mutex idle
  | step _ move ih =>
      cases move.2 with
      | work work =>
          obtain ⟨point, moved, lock⟩ := work.lockMove ih
          rw [moved]
          exact ih.move lock
      | @call _ p _ _ call =>
          cases call with
          | notifyOne w _ at_w =>
              have same : ownsWaiting (p.worker w) = ownsWaiting (.relockWaiting : Worker τ β) := by
                rw [at_w]
                rfl
              exact ih.move (.of_eq same)
          | _ => exact ih
      | close close =>
          cases close with
          | notifyAll _ =>
              intro w
              exact (ih w).trans (by simp only [ownsWaiting_wake])
          | _ => exact ih
      | outside => exact ih

/-- A worker leaves `workThread` only if the pool stops, or with the process. -/
theorem running_of_reachable (reached : Reachable (system code) s) {w : ω}
    (finished : s.1.worker w = .finished) : s.1.m_isRunning = false ∨ s.1.terminated = true := by
  induction reached with
  | init idle =>
      have rests := Idle.worker idle w
      rw [finished] at rests
      exact rests.elim
  | @step s s' before move ih =>
      obtain ⟨alive, step⟩ := move
      rcases step.point w with same | ⟨_, woken⟩ | work
      · rw [same] at finished
        cases ih finished with
        | inl stopped => exact Or.inl (step.stopped stopped)
        | inr dead => simp [alive] at dead
      · rw [woken] at finished
        cases finished
      · generalize s'.1 = p' at work finished
        generalize s'.2 = x' at work
        cases work with
        | notRunning _ stopped => exact Or.inl stopped
        | notifyThrows _ _ => exact Or.inr rfl
        | _ => simp at finished

/-- The workers in `Execute` do not block each other: while there are any, one can return or
    go on. -/
def CanExecute (code : TaskCode τ σ β) (p : Pool τ ω κ β) (x : σ) : Prop :=
  (∃ w e tsk b, p.worker w = .execute e tsk b) → ∃ w e tsk b, p.worker w = .execute e tsk b ∧
    (code.returns tsk b x ∨ ∃ b' x', code.act tsk b x b' x')

omit [DecidableEq κ] in
/-- While some worker is neither asleep nor at its end, some worker can act. -/
theorem exists_work (owned : Owned p.m_waiting_mutex fun w => ownsWaiting (p.worker w))
    (executes : CanExecute code p x) (awake : p.worker w ≠ .blocked)
    (unfinished : p.worker w ≠ .finished) :
    ∃ v p' x', p.worker v ≠ .blocked ∧ Work code v p x p' x' := by
  -- If the mutex is locked, its owner can act.
  have owner : ∀ v, p.m_waiting_mutex = some v →
      ∃ v p' x', p.worker v ≠ .blocked ∧ Work code v p x p' x' := by
    intro v locked
    have owns : ownsWaiting (p.worker v) = true := (owned v).mp locked
    cases at_v : p.worker v with
    | wait => exact ⟨v, _, x, by simp [at_v], .wait at_v⟩
    | unlockWaiting => exact ⟨v, _, x, by simp [at_v], .unlockWaiting at_v⟩
    | _ => simp [at_v, ownsWaiting] at owns
  cases at_w : p.worker w with
  | blocked => exact absurd at_w awake
  | finished => exact absurd at_w unfinished
  | testRunning =>
      cases running : p.m_isRunning with
      | true => exact ⟨w, _, x, awake, .running at_w running⟩
      | false => exact ⟨w, _, x, awake, .notRunning at_w running⟩
  | testEmpty =>
      cases empty : p.m_tasks.empty with
      | false => exact ⟨w, _, x, awake, .notEmpty at_w empty⟩
      | true => exact ⟨w, _, x, awake, .empty at_w empty⟩
  | popFront =>
      cases popped : p.m_tasks.pop_front with
      | none => exact ⟨w, _, x, awake, .popFails at_w popped⟩
      | some front => exact ⟨w, _, x, awake, .pop at_w popped⟩
  | callExecute e tsk => exact ⟨w, _, x, awake, .callExecute at_w⟩
  | execute e tsk b =>
      obtain ⟨v, e, tsk, b, at_v, next⟩ := executes ⟨w, e, tsk, b, at_w⟩
      have awake : p.worker v ≠ .blocked := by simp [at_v]
      cases next with
      | inl returns => exact ⟨v, _, x, awake, .returns at_v returns⟩
      | inr acts =>
          obtain ⟨b', x', act⟩ := acts
          exact ⟨v, _, x', awake, .execute at_v act⟩
  | notify e tsk =>
      cases ready : p.ready tsk with
      | false => exact ⟨w, _, x, awake, .notify at_w (CTask.Notify_eq_some.mpr ⟨ready, rfl⟩)⟩
      | true => exact ⟨w, _, x, awake, .notifyThrows at_w (CTask.Notify_eq_none.mpr ready)⟩
  | wait => exact ⟨w, _, x, awake, .wait at_w⟩
  | unlockWaiting => exact ⟨w, _, x, awake, .unlockWaiting at_w⟩
  | lockWaiting =>
      cases free : p.m_waiting_mutex with
      | none => exact ⟨w, _, x, awake, .lockWaiting at_w free⟩
      | some v => exact owner v free
  | relockWaiting =>
      cases free : p.m_waiting_mutex with
      | none => exact ⟨w, _, x, awake, .relockWaiting at_w free⟩
      | some v => exact owner v free

/-! ## The queue in sight -/

/-- The queue is empty, or some worker looks at it before it sleeps. -/
def InSight (p : Pool τ ω κ β) : Prop := p.m_tasks.cells = [] ∨ ∃ w, (p.worker w).looks

omit [DecidableEq κ] in
theorem Work.cells (work : Work code w p x p' x') : p'.m_tasks.cells = p.m_tasks.cells ∨
    ∃ front, p.worker w = .popFront ∧ p.m_tasks.cells = front :: p'.m_tasks.cells := by
  cases work with
  | pop at_w popped => exact Or.inr ⟨_, at_w, BlockingList.pop_front_eq_some popped⟩
  | _ => exact Or.inl rfl

omit [DecidableEq κ] in
theorem Work.length_le (work : Work code w p x p' x') :
    p'.m_tasks.cells.length ≤ p.m_tasks.cells.length := by
  cases work.cells with
  | inl same => rw [same]
  | inr popped =>
      obtain ⟨front, _, cells⟩ := popped
      rw [cells]
      exact Nat.le_succ _

omit [DecidableEq κ] in
/-- A worker turns away from the queue only when it has found it empty. -/
theorem Work.looks (work : Work code w p x p' x') (running : p.m_isRunning = true)
    (small : p.m_tasks.cells.length < 2 ^ 32) (before : (p.worker w).looks) :
    (p'.worker w).looks ∨ p.m_tasks.cells = [] ∨ p'.terminated = true := by
  cases work with
  | notRunning _ stopped => simp [running] at stopped
  | empty _ none => exact Or.inr (Or.inl (BlockingList.cells_of_empty none small))
  | notifyThrows _ _ => exact Or.inr (Or.inr rfl)
  | lockWaiting at_w _ | wait at_w =>
      rw [at_w] at before
      exact before.elim
  | running _ _ | notEmpty _ _ | popFails _ _ | pop _ _ | callExecute _ | execute _ _ | returns _ _
  | notify _ _ | wakeUp _ | relockWaiting _ _ | unlockWaiting _ => simp [Worker.looks]

omit [DecidableEq κ] in
theorem Work.inSight (work : Work code w p x p' x') (running : p.m_isRunning = true)
    (small : p.m_tasks.cells.length < 2 ^ 32) (alive : p'.terminated = false)
    (before : p.InSight) : p'.InSight := by
  have shrinks := work.length_le
  cases before with
  | inl empty =>
      rw [empty, List.length_nil, Nat.le_zero] at shrinks
      exact Or.inl (List.eq_nil_of_length_eq_zero shrinks)
  | inr looks =>
      obtain ⟨v, looks⟩ := looks
      by_cases same : v = w
      · subst same
        rcases work.looks running small looks with looks | empty | dead
        · exact Or.inr ⟨v, looks⟩
        · rw [empty, List.length_nil, Nat.le_zero] at shrinks
          exact Or.inl (List.eq_nil_of_length_eq_zero shrinks)
        · simp [alive] at dead
      · refine Or.inr ⟨v, ?_⟩
        rw [work.others same]
        exact looks

omit [DecidableEq κ] in
/-- Workers on their way to sleep leave the queue as it is. -/
theorem Work.not_inSight (work : Work code w p x p' x') (awake : p.worker w ≠ .blocked)
    (before : ¬ p.InSight) : ¬ p'.InSight := by
  have away : ¬ (p.worker w).looks := fun looks => before (Or.inr ⟨w, looks⟩)
  have kept : p'.m_tasks.cells = p.m_tasks.cells ∧ ¬ (p'.worker w).looks := by
    cases work with
    | lockWaiting _ _ | wait _ => simp [Worker.looks, goto]
    | wakeUp at_w => exact absurd at_w awake
    | running at_w _ | notRunning at_w _ | notEmpty at_w _ | empty at_w _ | popFails at_w _
    | pop at_w _ | callExecute at_w | execute at_w _ | returns at_w _ | notify at_w _
    | notifyThrows at_w _ | relockWaiting at_w _ | unlockWaiting at_w =>
        rw [at_w] at away
        exact absurd trivial away
  rintro (empty | ⟨v, looks⟩)
  · exact before (Or.inl (kept.1.symm.trans empty))
  · by_cases same : v = w
    · subst same
      exact kept.2 looks
    · rw [work.others same] at looks
      exact before (Or.inr ⟨v, looks⟩)

/-! ## The workers left alone -/

/-- The workers from state `s` on, while nobody calls, the destructor does not run and no
    worker wakes up spuriously. -/
def alone (code : TaskCode τ σ β) (s : Pool τ ω κ β × σ) : System (Pool τ ω κ β × σ) where
  init t := t = s
  step t t' := t.1.terminated = false ∧
    ∃ w, t.1.worker w ≠ .blocked ∧ Work code w t.1 t.2 t'.1 t'.2

variable {t : Pool τ ω κ β × σ}

theorem reachable_of_alone (reached : Reachable (system code) s)
    (later : Reachable (alone code s) t) : Reachable (system code) t := by
  induction later with
  | init same =>
      subst same
      exact reached
  | step _ move ih =>
      obtain ⟨alive, w, _, work⟩ := move
      exact ih.step ⟨alive, .work work⟩

omit [DecidableEq κ] in
theorem alone_keeps (running : s.1.m_isRunning = true)
    (small : s.1.m_tasks.cells.length < 2 ^ 32) (later : Reachable (alone code s) t) :
    t.1.m_isRunning = true ∧ t.1.m_tasks.cells.length < 2 ^ 32 ∧
      (t.1.terminated = false → (t.1.InSight ↔ s.1.InSight)) := by
  induction later with
  | init same =>
      subst same
      exact ⟨running, small, fun _ => Iff.rfl⟩
  | step _ move ih =>
      obtain ⟨alive, w, awake, work⟩ := move
      obtain ⟨running', small', same⟩ := ih
      refine ⟨work.closing.2.trans running', work.length_le.trans_lt small', ?_⟩
      intro alive'
      rw [← same alive]
      constructor
      · intro after
        by_contra before
        exact work.not_inSight awake before after
      · exact work.inSight running' small' alive'

omit [DecidableEq τ] [DecidableEq ω] [DecidableEq κ] in
theorem complete_of_free (sound : t.1.ledger.Sound) (free : ∀ w, t.1.ledger.hand w = none)
    (empty : t.1.m_tasks.cells = []) : t.1.Complete := by
  refine ⟨empty, ?_⟩
  intro e inside
  have order : t.1.added = t.1.popped.map Prod.snd ++ t.1.m_tasks.cells := sound.order
  have popped : e < t.1.popped.length := by simpa [order, empty] using inside
  cases sound.accounted e popped with
  | inl notified => exact ⟨(sound.finished e notified).1, notified⟩
  | inr held =>
      obtain ⟨w, h, holds, _⟩ := held
      rw [free w] at holds
      cases holds

omit [DecidableEq τ] in
/-- No call puts a worker to sleep. -/
theorem Call.blocked {c : κ} (call : Call c p p') (asleep : p'.worker w = .blocked) :
    p.worker w = .blocked := by
  cases call with
  | notifyOne v _ at_v =>
      by_cases here : w = v
      · subst here
        exact at_v
      · exact (goto_other p here _).symm.trans asleep
  | _ => exact asleep

omit [DecidableEq τ] in
/-- A call that adds nothing does not wake up the last worker. -/
theorem Call.asleep {c : κ} (call : Call c p p') (same : p'.added = p.added)
    (asleep : ¬ p.SomeoneAwake) : ¬ p'.SomeoneAwake := by
  simp only [SomeoneAwake, not_forall] at asleep
  obtain ⟨running, settled, stored, nobody⟩ := asleep
  intro someone
  cases call with
  | pushBack tsk _ => simp at same
  | notifyOne w at_c _ => exact settled c _ at_c
  | notifyNobody at_c _ => exact settled c _ at_c
  | callWait tsk _ =>
      apply nobody
      apply someone running _ stored
      intro d other
      by_cases here : d = c
      · subst here
        simp
      · simp only [Function.update_of_ne here]
        exact settled d other
  | waitReturns _ _ =>
      apply nobody
      apply someone running _ stored
      intro d other
      by_cases here : d = c
      · subst here
        simp
      · simp only [Function.update_of_ne here]
        exact settled d other

end Enabled

/-! ## Where the workers stop -/

section Stopped

variable {s t : Pool τ ω κ β × σ}

omit [Fintype ω] in
/-- Workers that cannot go on by themselves are asleep, if the pool is running. -/
theorem asleep_of_stuck (reached : Reachable (system code) t) (running : t.1.m_isRunning = true)
    (executes : CanExecute code t.1 t.2) (alive : t.1.terminated = false)
    (stuck : ∀ t', ¬ (alone code s).step t t') : ∀ w, t.1.worker w = .blocked := by
  intro w
  by_contra awake
  have unfinished : t.1.worker w ≠ .finished := by
    intro finished
    cases running_of_reachable reached finished with
    | inl stopped => simp [running] at stopped
    | inr dead => simp [alive] at dead
  obtain ⟨v, p', x', awake', work⟩ :=
    exists_work (owned_of_reachable reached) executes awake unfinished
  exact stuck (p', x') ⟨alive, v, awake', work⟩

omit [Fintype ω] [DecidableEq τ] [DecidableEq ω] [DecidableEq κ] in
theorem InSight.empty (inSight : p.InSight) (asleep : ∀ w, p.worker w = .blocked) :
    p.m_tasks.cells = [] := by
  cases inSight with
  | inl empty => exact empty
  | inr looks =>
      obtain ⟨w, looks⟩ := looks
      rw [asleep w] at looks
      exact looks.elim

end Stopped

/-- Left alone, the workers of a running pool come to sleep after a bounded number of actions,
    unless the process ends. They have then done all tasks exactly if the queue was in sight
    when they were left alone. -/
theorem queue_drains {s : Pool τ ω κ β × σ} (bounded : code.Bounded left most)
    (reached : Reachable (system code) s) (running : s.1.m_isRunning = true)
    (small : s.1.m_tasks.cells.length < 2 ^ 32)
    (executes : ∀ t, Reachable (alone code s) t → CanExecute code t.1 t.2) :
    Ends (alone code s) (fun t => t.1.rank left most) fun t => t.1.terminated = true ∨
      (∀ w, t.1.worker w = .blocked) ∧ (t.1.Complete ↔ s.1.InSight) := by
  apply Ends.of_rank
  · intro t t' _ step
    obtain ⟨_, w, awake, work⟩ := step
    exact work.rank_lt bounded awake
  · intro t later more
    by_contra stuck
    cases alive : t.1.terminated with
    | true => exact more (Or.inl alive)
    | false =>
        have reached' := reachable_of_alone reached later
        obtain ⟨running', small', same⟩ := alone_keeps running small later
        have asleep := asleep_of_stuck reached' running' (executes t later) alive
          fun t' step => stuck ⟨t', step⟩
        apply more
        refine Or.inr ⟨asleep, ?_⟩
        rw [← same alive]
        constructor
        · intro complete
          exact Or.inl complete.1
        · intro inSight
          apply complete_of_free (sound_reachable reached') _ (inSight.empty asleep)
          intro w
          simp only [ledger, asleep w]
          rfl

/-- The worker has not begun when the task is added. -/
theorem queue_drains_one_task : ∃ s : Single × Unit, Reachable (system returnsAtOnce) s ∧
    s.1.m_tasks.cells = [()] ∧ s.1.InSight ∧
    Ends (alone returnsAtOnce s) (fun t => t.1.rank (fun _ _ => 0) 0) fun t =>
      t.1.terminated = true ∨ (∀ w, t.1.worker w = .blocked) ∧ (t.1.Complete ↔ s.1.InSight) := by
  have start : Reachable (system returnsAtOnce) ((fresh : Single), ()) := .init idle_fresh
  have pushed := start.step ⟨rfl, .call (.pushBack (c := ()) () rfl)⟩
  have added := pushed.step ⟨rfl, .call (.notifyNobody (c := ()) rfl (by simp [fresh]))⟩
  have bounded : returnsAtOnce.Bounded (fun _ _ => 0) 0 :=
    ⟨fun _ => Nat.le_refl 0, fun _ _ _ _ _ act => False.elim act⟩
  refine ⟨_, added, rfl, Or.inr ⟨(), trivial⟩, queue_drains bounded added rfl (by decide) ?_⟩
  intro t _ executing
  obtain ⟨w, e, tsk, b, at_w⟩ := executing
  exact ⟨w, e, tsk, b, at_w, Or.inl trivial⟩

end Pool

end KMeans
