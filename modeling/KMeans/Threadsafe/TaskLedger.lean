import KMeans.Threadsafe.Threadpool

/-! # The books of the pool

What the pool does with tasks, apart from how the workers wait for them: a queue, the
entry that each worker has in hand and how far it has come with it, the promises, and
the histories. Every action of the pool enters one line in these books or none, and
the books are sound.
-/

namespace KMeans

open Transition

/-- How far a worker has come with the entry in its hand. -/
inductive Stage
  | popped
  | executing
  | completed
  deriving DecidableEq

/-- The entry in the hand of a worker. -/
structure InHand (τ : Type) where
  entry : Nat
  tsk : τ
  stage : Stage

structure Ledger (τ ω κ : Type) where
  queue : List τ
  hand : ω → Option (InHand τ)
  ready : τ → Bool
  added : List τ
  popped : List (ω × τ)
  executed : List (ω × Nat)
  completed : List Nat
  notified : List Nat
  waited : List (κ × τ)

namespace Ledger

variable {τ ω κ : Type} [DecidableEq ω]

/-- The lines that can be entered. -/
inductive Line [DecidableEq τ] : Ledger τ ω κ → Ledger τ ω κ → Prop
  | add {L : Ledger τ ω κ} (tsk : τ) :
      Line L { L with queue := L.queue ++ [tsk], added := L.added ++ [tsk] }
  | pop {L : Ledger τ ω κ} {w tsk rest} : L.queue = tsk :: rest → L.hand w = none →
      Line L { L with
        queue := rest
        hand := Function.update L.hand w (some ⟨L.popped.length, tsk, .popped⟩)
        popped := L.popped ++ [(w, tsk)] }
  | execute {L : Ledger τ ω κ} {w e tsk} : L.hand w = some ⟨e, tsk, .popped⟩ →
      Line L { L with
        hand := Function.update L.hand w (some ⟨e, tsk, .executing⟩)
        executed := L.executed ++ [(w, e)] }
  | complete {L : Ledger τ ω κ} {w e tsk} : L.hand w = some ⟨e, tsk, .executing⟩ →
      Line L { L with
        hand := Function.update L.hand w (some ⟨e, tsk, .completed⟩)
        completed := L.completed ++ [e] }
  | notify {L : Ledger τ ω κ} {w e tsk} : L.hand w = some ⟨e, tsk, .completed⟩ →
      Line L { L with
        hand := Function.update L.hand w none
        ready := Function.update L.ready tsk true
        notified := L.notified ++ [e] }
  | waitReturns {L : Ledger τ ω κ} {c tsk} : L.ready tsk = true →
      Line L { L with waited := L.waited ++ [(c, tsk)] }

/-- The task of an entry. -/
def task (L : Ledger τ ω κ) (e : Nat) : Option τ := L.popped[e]?.map Prod.snd

/-- What holds of the books. -/
structure Sound (L : Ledger τ ω κ) : Prop where
  /-- First in, first out. -/
  order : L.added = L.popped.map Prod.snd ++ L.queue
  /-- A worker has in hand only what it has popped itself. -/
  own : ∀ w h, L.hand w = some h → L.popped[h.entry]? = some (w, h.tsk)
  /-- Only the worker that popped an entry executes it. -/
  executor : ∀ w e, (w, e) ∈ L.executed → ∃ tsk, L.popped[e]? = some (w, tsk)
  executedOnce : (L.executed.map Prod.snd).Nodup
  completedOnce : L.completed.Nodup
  notifiedOnce : L.notified.Nodup
  /-- Where the entry in a hand is in the histories. -/
  stages : ∀ w h, L.hand w = some h → (h.entry ∈ L.executed.map Prod.snd ↔ h.stage ≠ .popped) ∧
    (h.entry ∈ L.completed ↔ h.stage = .completed) ∧ h.entry ∉ L.notified
  /-- An entry that is notified has been executed and completed. -/
  finished : ∀ e ∈ L.notified, e ∈ L.executed.map Prod.snd ∧ e ∈ L.completed
  /-- A popped entry is in a hand until it is notified. -/
  accounted : ∀ e < L.popped.length, e ∈ L.notified ∨ ∃ w h, L.hand w = some h ∧ h.entry = e
  /-- A promise is satisfied by a notified entry of its task. -/
  promise : ∀ tsk, L.ready tsk = true ↔ ∃ e ∈ L.notified, L.task e = some tsk
  waits : ∀ c tsk, (c, tsk) ∈ L.waited → L.ready tsk = true
  numbered : ∀ e, (e ∈ L.executed.map Prod.snd ∨ e ∈ L.completed ∨ e ∈ L.notified) →
    e < L.popped.length

/-- Whoever has an entry in hand keeps it in hand when worker `w` gets further with its own. -/
theorem in_hand_of_stage {hand : ω → Option (InHand τ)} {w : ω} {e : Nat} {tsk : τ} {old new : Stage}
    (holds : hand w = some ⟨e, tsk, old⟩) {f : Nat} (held : ∃ v h, hand v = some h ∧ h.entry = f) :
    ∃ v h, Function.update hand w (some ⟨e, tsk, new⟩) v = some h ∧ h.entry = f := by
  obtain ⟨v, h, mine, same⟩ := held
  rcases eq_or_ne v w with rfl | other
  · rw [holds, Option.some.injEq] at mine
    exact ⟨v, _, Function.update_self .., by rw [← same, ← mine]⟩
  · exact ⟨v, h, by rw [Function.update_of_ne other, mine], same⟩

theorem Sound.pop {L : Ledger τ ω κ} (sound : L.Sound) {w : ω} {tsk : τ} {rest : List τ}
    (front : L.queue = tsk :: rest) (free : L.hand w = none) :
    Sound { L with
      queue := rest
      hand := Function.update L.hand w (some ⟨L.popped.length, tsk, .popped⟩)
      popped := L.popped ++ [(w, tsk)] } := by
  obtain ⟨order, own, executor, executedOnce, completedOnce, notifiedOnce, stages, finished,
    accounted, promise, waits, numbered⟩ := sound
  refine ⟨?_, ?_, ?_, executedOnce, completedOnce, notifiedOnce, ?_, finished, ?_, ?_, waits, ?_⟩
  · simp [order, front]
  · intro v h
    grind [Function.update_apply]
  · grind
  · intro v h
    grind [Function.update_apply]
  · intro e inside
    rcases Nat.lt_or_eq_of_le (Nat.le_of_lt_succ (by simpa using inside)) with before | rfl
    · rcases accounted e before with notified | ⟨v, h, holds, same⟩
      · exact Or.inl notified
      · have other : v ≠ w := fun same => by simp [same, free] at holds
        exact Or.inr ⟨v, h, (Function.update_of_ne other ..).trans holds, same⟩
    · exact Or.inr ⟨w, _, Function.update_self .., rfl⟩
  · intro t
    grind [task]
  · grind

theorem Sound.execute {L : Ledger τ ω κ} (sound : L.Sound) {w : ω} {e : Nat} {tsk : τ}
    (holds : L.hand w = some ⟨e, tsk, .popped⟩) :
    Sound { L with
      hand := Function.update L.hand w (some ⟨e, tsk, .executing⟩)
      executed := L.executed ++ [(w, e)] } := by
  obtain ⟨order, own, executor, executedOnce, completedOnce, notifiedOnce, stages, finished,
    accounted, promise, waits, numbered⟩ := sound
  refine ⟨order, ?_, ?_, ?_, completedOnce, notifiedOnce, ?_, ?_, ?_, promise, waits, ?_⟩
  · intro v h
    grind [Function.update_apply]
  · grind
  · grind
  · intro v h
    grind [Function.update_apply]
  · grind
  · exact fun f inside => (accounted f inside).imp_right (in_hand_of_stage holds)
  · grind

theorem Sound.complete {L : Ledger τ ω κ} (sound : L.Sound) {w : ω} {e : Nat} {tsk : τ}
    (holds : L.hand w = some ⟨e, tsk, .executing⟩) :
    Sound { L with
      hand := Function.update L.hand w (some ⟨e, tsk, .completed⟩)
      completed := L.completed ++ [e] } := by
  obtain ⟨order, own, executor, executedOnce, completedOnce, notifiedOnce, stages, finished,
    accounted, promise, waits, numbered⟩ := sound
  refine ⟨order, ?_, executor, executedOnce, ?_, notifiedOnce, ?_, ?_, ?_, promise, waits, ?_⟩
  · intro v h
    grind [Function.update_apply]
  · grind
  · intro v h
    grind [Function.update_apply]
  · grind
  · exact fun f inside => (accounted f inside).imp_right (in_hand_of_stage holds)
  · grind

theorem Sound.notify [DecidableEq τ] {L : Ledger τ ω κ} (sound : L.Sound) {w : ω} {e : Nat} {tsk : τ}
    (holds : L.hand w = some ⟨e, tsk, .completed⟩) :
    Sound { L with
      hand := Function.update L.hand w none
      ready := Function.update L.ready tsk true
      notified := L.notified ++ [e] } := by
  obtain ⟨order, own, executor, executedOnce, completedOnce, notifiedOnce, stages, finished,
    accounted, promise, waits, numbered⟩ := sound
  refine ⟨order, ?_, executor, executedOnce, completedOnce, ?_, ?_, ?_, ?_, ?_, ?_, ?_⟩
  · intro v h
    grind [Function.update_apply]
  · grind
  · intro v h
    grind [Function.update_apply]
  · grind
  · intro f inside
    rcases accounted f inside with before | ⟨v, h, mine, same⟩
    · exact Or.inl (List.mem_append_left _ before)
    · rcases eq_or_ne v w with rfl | other
      · rw [holds, Option.some.injEq] at mine
        exact Or.inl (by simp [← same, ← mine])
      · exact Or.inr ⟨v, h, (Function.update_of_ne other ..).trans mine, same⟩
  · intro t
    have here : L.task e = some tsk := by rw [task, own w _ holds]; rfl
    change Function.update L.ready tsk true t = true ↔
      ∃ f ∈ L.notified ++ [e], L.task f = some t
    rcases eq_or_ne t tsk with rfl | other
    · simp only [Function.update_self, true_iff]
      exact ⟨e, by simp, here⟩
    · rw [Function.update_of_ne other, promise t]
      simp [or_and_right, exists_or, here, other.symm]
  · grind [Function.update_apply]
  · grind

theorem Sound.line [DecidableEq τ] {L L' : Ledger τ ω κ} (sound : L.Sound) (line : Line L L') : L'.Sound := by
  cases line with
  | add tsk =>
      obtain ⟨order, own, executor, executedOnce, completedOnce, notifiedOnce, stages, finished,
        accounted, promise, waits, numbered⟩ := sound
      exact ⟨by simp [order], own, executor, executedOnce, completedOnce, notifiedOnce, stages,
        finished, accounted, promise, waits, numbered⟩
  | pop front free => exact sound.pop front free
  | execute holds => exact sound.execute holds
  | complete holds => exact sound.complete holds
  | notify holds => exact sound.notify holds
  | waitReturns satisfied =>
      obtain ⟨order, own, executor, executedOnce, completedOnce, notifiedOnce, stages, finished,
        accounted, promise, waits, numbered⟩ := sound
      exact ⟨order, own, executor, executedOnce, completedOnce, notifiedOnce, stages, finished,
        accounted, promise, by grind, numbered⟩

omit [DecidableEq ω] in
theorem Sound.added_of_task {L : Ledger τ ω κ} (sound : L.Sound) {e : Nat} {tsk : τ}
    (named : L.task e = some tsk) : L.added[e]? = some tsk := by
  obtain ⟨entry, popped, -⟩ := Option.map_eq_some_iff.mp named
  have inside : e < (L.popped.map Prod.snd).length := by
    simpa using (List.getElem?_eq_some_iff.mp popped).1
  rw [sound.order, List.getElem?_append_left inside, List.getElem?_map]
  exact named

omit [DecidableEq ω] in
theorem Sound.task_of_hand {L : Ledger τ ω κ} (sound : L.Sound) {w : ω} {h : InHand τ}
    (holds : L.hand w = some h) : L.task h.entry = some h.tsk := by
  rw [task, sound.own w h holds]
  rfl

omit [DecidableEq ω] in
/-- The promise of a task that was added once is satisfied by its one entry. -/
theorem Sound.notified_of_ready {L : Ledger τ ω κ} (sound : L.Sound) (distinct : L.added.Nodup)
    {e : Nat} {tsk : τ} (here : L.added[e]? = some tsk) (satisfied : L.ready tsk = true) :
    e ∈ L.notified := by
  obtain ⟨f, notified, named⟩ := (sound.promise tsk).mp satisfied
  have there := sound.added_of_task named
  have inside : f < L.added.length := (List.getElem?_eq_some_iff.mp there).1
  rwa [← (List.getElem?_inj inside distinct).mp (there.trans here.symm)]

omit [DecidableEq ω] in
theorem Sound.not_ready {L : Ledger τ ω κ} (sound : L.Sound) (distinct : L.added.Nodup) {w : ω}
    {h : InHand τ} (holds : L.hand w = some h) : L.ready h.tsk = false := by
  by_contra satisfied
  exact (sound.stages w h holds).2.2 (sound.notified_of_ready distinct
    (sound.added_of_task (sound.task_of_hand holds)) (Bool.of_not_eq_false satisfied))

omit [DecidableEq ω] in
/-- When every task is ready and was added once, nobody has anything to do. -/
theorem Sound.settled {L : Ledger τ ω κ} (sound : L.Sound) (distinct : L.added.Nodup)
    (all : ∀ tsk ∈ L.added, L.ready tsk = true) : L.queue = [] ∧ ∀ w, L.hand w = none := by
  constructor
  · by_contra stored
    obtain ⟨tsk, rest, front⟩ := List.exists_cons_of_ne_nil stored
    have waiting : L.added[L.popped.length]? = some tsk := by simp [sound.order, front]
    have notified := sound.notified_of_ready distinct waiting
      (all tsk (List.mem_of_getElem? waiting))
    exact absurd (sound.numbered _ (Or.inr (Or.inr notified))) (Nat.lt_irrefl _)
  · intro w
    by_contra busy
    obtain ⟨h, holds⟩ := Option.ne_none_iff_exists'.mp busy
    have here := sound.added_of_task (sound.task_of_hand holds)
    have satisfied := all h.tsk (List.mem_of_getElem? here)
    rw [sound.not_ready distinct holds] at satisfied
    cases satisfied

omit [DecidableEq ω] in
theorem Sound.ready_of_idle {L : Ledger τ ω κ} (sound : L.Sound) (empty : L.queue = [])
    (free : ∀ w, L.hand w = none) {tsk : τ} (member : tsk ∈ L.added) : L.ready tsk = true := by
  rw [sound.order, empty, List.append_nil, List.mem_map] at member
  obtain ⟨⟨w, _⟩, popped, rfl⟩ := member
  obtain ⟨e, here⟩ := List.getElem?_of_mem popped
  have named : L.task e = some _ := congrArg (Option.map Prod.snd) here
  rcases sound.accounted e (List.getElem?_eq_some_iff.mp here).1 with notified | ⟨v, h, holds, -⟩
  · exact (sound.promise _).mpr ⟨e, notified, named⟩
  · rw [free v] at holds
    cases holds

end Ledger

/-! ## The pool keeps its books -/

def Worker.hand {τ β : Type} : Worker τ β → Option (InHand τ)
  | .callExecute e tsk => some ⟨e, tsk, .popped⟩
  | .execute e tsk _ => some ⟨e, tsk, .executing⟩
  | .notify e tsk => some ⟨e, tsk, .completed⟩
  | _ => none

namespace Pool

variable {τ ω κ σ β : Type}

def ledger (p : Pool τ ω κ β) : Ledger τ ω κ where
  queue := p.m_tasks.cells
  hand w := (p.worker w).hand
  ready := p.ready
  added := p.added
  popped := p.popped
  executed := p.executed
  completed := p.completed
  notified := p.notified
  waited := p.waited

theorem hand_of_resting {point : Worker τ β} (rests : resting point) : point.hand = none := by
  cases point <;> first | rfl | exact rests.elim

theorem hand_wake (point : Worker τ β) : (wake point).hand = point.hand := by
  cases point <;> rfl

theorem ledger_idle {p : Pool τ ω κ β} (idle : p.Idle) : p.ledger.Sound := by
  have free : ∀ w, (p.worker w).hand = none := fun w => hand_of_resting (idle.worker w)
  constructor <;> simp [ledger, Ledger.task, idle.m_tasks, idle.added, idle.popped, idle.executed,
    idle.completed, idle.notified, idle.waited, idle.ready, free]

variable [DecidableEq ω]

theorem hand_goto (p : Pool τ ω κ β) (w : ω) (point : Worker τ β) :
    (fun v => ((p.goto w point).worker v).hand) =
      Function.update (fun v => (p.worker v).hand) w point.hand := by
  funext v
  exact Function.apply_update (fun _ => Worker.hand) p.worker w point v

/-- Going on with the same thing in hand is no business of the books. -/
theorem ledger_goto {p : Pool τ ω κ β} {w : ω} {point : Worker τ β}
    (same : point.hand = (p.worker w).hand) : (p.goto w point).ledger = p.ledger := by
  have hands := hand_goto p w point
  rw [same, Function.update_eq_self] at hands
  rw [ledger, ledger, hands]
  rfl

theorem ledger_goto_mutex {p : Pool τ ω κ β} {w : ω} {point : Worker τ β} (owner : Option ω)
    (same : point.hand = (p.worker w).hand) :
    ledger { p.goto w point with m_waiting_mutex := owner } = p.ledger := ledger_goto same

variable [DecidableEq τ]

/-- A line is entered when worker `w` goes on and its hand is what the line says. -/
theorem line_of_goto {p p' : Pool τ ω κ β} {w : ω} {point : Worker τ β}
    (moved : p'.worker = (p.goto w point).worker) (line : Ledger.Line p.ledger
      { p'.ledger with hand := Function.update p.ledger.hand w point.hand }) :
    Ledger.Line p.ledger p'.ledger := by
  have hands : Function.update p.ledger.hand w point.hand = p'.ledger.hand := by
    refine (hand_goto p w point).symm.trans ?_
    rw [← moved]
    rfl
  rw [hands] at line
  exact line

variable {code : TaskCode τ σ β}

theorem Work.ledger {w : ω} {p p' : Pool τ ω κ β} {x x' : σ} (work : Work code w p x p' x') :
    p'.ledger = p.ledger ∨ Ledger.Line p.ledger p'.ledger := by
  cases work with
  | running at_w _ | notRunning at_w _ | notEmpty at_w _ | empty at_w _ | popFails at_w _ =>
      exact Or.inl (ledger_goto (by rw [at_w]; rfl))
  | wakeUp at_w => exact Or.inl (ledger_goto (by rw [at_w]; rfl))
  | execute at_w _ => exact Or.inl (ledger_goto (by rw [at_w]; rfl))
  | lockWaiting at_w _ | wait at_w | relockWaiting at_w _ | unlockWaiting at_w =>
      exact Or.inl (ledger_goto_mutex _ (by rw [at_w]; rfl))
  | pop at_w popped =>
      refine Or.inr (line_of_goto (w := w) rfl ?_)
      exact .pop (BlockingList.pop_front_eq_some popped) (by simp only [Pool.ledger, at_w]; rfl)
  | callExecute at_w =>
      refine Or.inr (line_of_goto (w := w) rfl ?_)
      exact .execute (by simp only [Pool.ledger, at_w]; rfl)
  | returns at_w _ =>
      refine Or.inr (line_of_goto (w := w) rfl ?_)
      exact .complete (by simp only [Pool.ledger, at_w]; rfl)
  | notify at_w set =>
      obtain ⟨-, rfl⟩ := CTask.Notify_eq_some.mp set
      refine Or.inr (line_of_goto (w := w) rfl ?_)
      exact .notify (by simp only [Pool.ledger, at_w]; rfl)
  | @notifyThrows e tsk at_w throws =>
      have satisfied : p.ready tsk = true := CTask.Notify_eq_none.mp throws
      have line := Ledger.Line.notify (L := p.ledger) (w := w) (e := e)
        (by simp only [Pool.ledger, at_w]; rfl)
      have still : Function.update p.ledger.ready tsk true = p.ledger.ready :=
        Function.update_eq_self_iff.mpr satisfied.symm
      rw [still] at line
      exact Or.inr (line_of_goto (w := w) rfl line)

theorem Work.caller {w : ω} {p p' : Pool τ ω κ β} {x x' : σ} (work : Work code w p x p' x') :
    p'.caller = p.caller := by
  cases work <;> rfl

theorem Work.added {w : ω} {p p' : Pool τ ω κ β} {x x' : σ} (work : Work code w p x p' x') :
    p'.added = p.added := by
  cases work <;> rfl

theorem Work.ready {w : ω} {p p' : Pool τ ω κ β} {x x' : σ} (work : Work code w p x p' x')
    {tsk : τ} (satisfied : p.ready tsk = true) : p'.ready tsk = true := by
  cases work with
  | @notify _ done value _ set =>
      obtain ⟨-, rfl⟩ := CTask.Notify_eq_some.mp set
      change Function.update p.ready done true tsk = true
      rw [Function.update_apply]
      split
      · rfl
      · exact satisfied
  | _ => exact satisfied

theorem Work.still {w : ω} {p p' : Pool τ ω κ β} {x x' : σ} (work : Work code w p x p' x')
    (free : p.ledger.hand w = none) : x' = x := by
  cases work with
  | execute at_w _ =>
      have busy : (p.worker w).hand = none := free
      rw [at_w] at busy
      cases busy
  | _ => rfl

variable [DecidableEq κ]

theorem Call.ledger {c : κ} {p p' : Pool τ ω κ β} (call : Call c p p') :
    p'.ledger = p.ledger ∨ Ledger.Line p.ledger p'.ledger := by
  cases call with
  | pushBack tsk _ => exact Or.inr (.add tsk)
  | notifyOne w _ at_w =>
      have same : (p.goto w .relockWaiting).ledger = p.ledger := ledger_goto (by rw [at_w]; rfl)
      exact Or.inl same
  | notifyNobody _ _ | callWait _ _ => exact Or.inl rfl
  | waitReturns _ satisfied => exact Or.inr (.waitReturns satisfied)

omit [DecidableEq τ] in
theorem Call.ready {c : κ} {p p' : Pool τ ω κ β} (call : Call c p p') : p'.ready = p.ready := by
  cases call <;> rfl

/-! The four calls, by where the thread is before and after them. -/

omit [DecidableEq τ] in
theorem Call.pushed {c : κ} {tsk : τ} {p p' : Pool τ ω κ β} (call : Call c p p')
    (before : p.caller c = .outside) (after : p'.caller c = .notifyOne tsk) :
    p'.added = p.added ++ [tsk] := by
  cases call with
  | pushBack added _ =>
      have same := (Function.update_self ..).symm.trans after
      rw [Caller.notifyOne.inj same]
  | notifyOne _ at_c _ | notifyNobody at_c _ | waitReturns at_c _ =>
      rw [before] at at_c
      cases at_c
  | callWait tsk _ =>
      have other := (Function.update_self ..).symm.trans after
      cases other

omit [DecidableEq τ] in
theorem Call.notified {c : κ} {tsk : τ} {p p' : Pool τ ω κ β} (call : Call c p p')
    (before : p.caller c = .notifyOne tsk) : p'.caller c = .outside ∧ p'.added = p.added := by
  cases call with
  | notifyOne _ _ _ | notifyNobody _ _ => exact ⟨Function.update_self .., rfl⟩
  | pushBack _ at_c | callWait _ at_c | waitReturns at_c _ =>
      rw [before] at at_c
      cases at_c

omit [DecidableEq τ] in
theorem Call.waits {c : κ} {tsk : τ} {p p' : Pool τ ω κ β} (call : Call c p p')
    (after : p'.caller c = .waitFor tsk) : p'.added = p.added := by
  cases call with
  | pushBack _ _ =>
      have other := (Function.update_self ..).symm.trans after
      cases other
  | _ => rfl

omit [DecidableEq τ] in
theorem Call.waited {c : κ} {tsk : τ} {p p' : Pool τ ω κ β} (call : Call c p p')
    (before : p.caller c = .waitFor tsk) :
    p'.caller c = .outside ∧ p'.added = p.added ∧ p.ready tsk = true := by
  cases call with
  | waitReturns at_c satisfied =>
      rw [before] at at_c
      obtain rfl := Caller.waitFor.inj at_c
      exact ⟨Function.update_self .., rfl, satisfied⟩
  | pushBack _ at_c | notifyOne _ at_c _ | notifyNobody at_c _ | callWait _ at_c =>
      rw [before] at at_c
      cases at_c

omit [DecidableEq ω] [DecidableEq τ] [DecidableEq κ] in
theorem Close.ledger {p p' : Pool τ ω κ β} (close : Close p p') : p'.ledger = p.ledger := by
  cases close with
  | stop _ | join _ _ => rfl
  | notifyAll _ => simp only [Pool.ledger, hand_wake]

theorem Step.ledger {s s' : Pool τ ω κ β × σ} (step : Step code s s') :
    s'.1.ledger = s.1.ledger ∨ Ledger.Line s.1.ledger s'.1.ledger := by
  cases step with
  | work work => exact work.ledger
  | call call => exact call.ledger
  | close close => exact Or.inl close.ledger
  | outside => exact Or.inl rfl

/-- The books are sound in every reachable state. -/
theorem sound_reachable {s : Pool τ ω κ β × σ} (reached : Reachable (system code) s) :
    s.1.ledger.Sound := by
  refine reached.invariant (fun _ idle => ledger_idle idle) ?_
  rintro s s' sound ⟨-, step⟩
  rcases step.ledger with still | line
  · rw [still]
    exact sound
  · exact sound.line line

end Pool

end KMeans
