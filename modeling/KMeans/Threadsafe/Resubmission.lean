import Mathlib.Logic.Relation
import KMeans.Threadsafe.PoolShutdown

/-! # A task that is added again

The promise of a task can be satisfied once, and every entry of the queue ends in a call
of `Notify`. So a sequence of `AddTask` calls is harmless in all interleavings exactly
if no task occurs in it twice.
-/

namespace KMeans

open Transition Relation

variable {τ ω κ σ β : Type}

/-- From every state of what the tasks work on, each `Execute` can run to its end. -/
def TaskCode.CanReturn (code : TaskCode τ σ β) : Prop := ∀ tsk x, ∃ b x',
  ReflTransGen (fun s s' => code.act tsk s.1 s.2 s'.1 s'.2) (code.start tsk, x) (b, x') ∧
    code.returns tsk b x'

namespace Pool

variable [DecidableEq τ] [DecidableEq ω] [DecidableEq κ] {code : TaskCode τ σ β}
  {s s' : Pool τ ω κ β × σ}

/-! ## Tasks that are added once -/

omit [DecidableEq κ] in
theorem Work.throws {w : ω} {p p' : Pool τ ω κ β} {x x' : σ} (work : Work code w p x p' x')
    (running : p.terminated = false) (dead : p'.terminated = true) :
    ∃ e tsk, p.worker w = .notify e tsk ∧ p.ready tsk = true := by
  cases work with
  | notifyThrows at_w throws => exact ⟨_, _, at_w, CTask.Notify_eq_none.mp throws⟩
  | _ => exact absurd (running.symm.trans dead) (by simp)

/-- Only `Notify` on a satisfied promise ends the process. -/
theorem Step.throws (step : Step code s s') (running : s.1.terminated = false)
    (dead : s'.1.terminated = true) :
    ∃ w e tsk, s.1.worker w = .notify e tsk ∧ s.1.ready tsk = true := by
  cases step with
  | work work => exact ⟨_, work.throws running dead⟩
  | call call => cases call <;> exact absurd (running.symm.trans dead) (by simp)
  | close close => cases close <;> exact absurd (running.symm.trans dead) (by simp)
  | outside => exact absurd (running.symm.trans dead) (by simp)

theorem Step.added (step : Step code s s') : s.1.added <+: s'.1.added := by
  cases step with
  | work work =>
      rw [work.added]
  | call call =>
      cases call with
      | pushBack tsk _ => exact List.prefix_append _ _
      | _ => exact List.prefix_rfl
  | close close => cases close <;> exact List.prefix_rfl
  | outside => exact List.prefix_rfl

theorem not_terminated (reached : Reachable (system code) s) (distinct : s.1.added.Nodup) :
    s.1.terminated = false := by
  induction reached with
  | init idle => exact Idle.terminated idle
  | step before move _ =>
      by_contra dead
      obtain ⟨w, e, tsk, at_w, satisfied⟩ := move.2.throws move.1 (by simpa using dead)
      have sound := sound_reachable before
      have unsatisfied := sound.not_ready (distinct.sublist move.2.added.sublist) (w := w)
        (h := ⟨e, tsk, .completed⟩) (by simp only [ledger, at_w]; rfl)
      simp [ledger, satisfied] at unsatisfied

/-! ## A task that is added twice -/

/-- Worker `w` has done all that was added, the others have not yet begun. -/
structure Served (w : ω) (c : κ) (done : List τ) (p : Pool τ ω κ β) : Prop where
  running : p.terminated = false
  worker : p.worker = Function.update (fun _ => .testRunning) w .testEmpty
  caller : p.caller c = .outside
  m_tasks : p.m_tasks.cells = []
  added : p.added = done

/-- The worker has executed a further task `tsk`, and is about to notify it. -/
structure Notifying (w : ω) (c : κ) (done : List τ) (tsk : τ) (e : Nat) (p : Pool τ ω κ β) : Prop where
  running : p.terminated = false
  worker : p.worker = Function.update (fun _ => .testRunning) w (.notify e tsk)
  caller : p.caller c = .outside
  m_tasks : p.m_tasks.cells = []
  added : p.added = done ++ [tsk]
  ready : p.ready tsk = true ↔ tsk ∈ done

variable {w : ω} {c : κ}

omit [DecidableEq τ] [DecidableEq κ] in
theorem goto_goto (p : Pool τ ω κ β) (w : ω) (here there : Worker τ β) :
    (p.goto w here).goto w there = p.goto w there := by
  simp only [goto, Function.update_idem]

theorem execute_path {p : Pool τ ω κ β} {x : σ} (reached : Reachable (system code) (p, x))
    (running : p.terminated = false) {e : Nat} {tsk : τ} {b b' : β} {x' : σ}
    (at_w : p.worker w = .execute e tsk b)
    (path : ReflTransGen (fun s s' => code.act tsk s.1 s.2 s'.1 s'.2) (b, x) (b', x')) :
    Reachable (system code) (p.goto w (.execute e tsk b'), x') := by
  generalize target : (b', x') = t at path
  induction path generalizing b' x' with
  | refl =>
      cases target
      rw [goto, ← at_w, Function.update_eq_self]
      exact reached
  | @tail s t _ act ih =>
      cases target
      have next := (ih rfl).step ⟨running, .work (.execute (goto_self p w _) act)⟩
      rwa [goto_goto] at next

omit [DecidableEq τ] [DecidableEq κ] in
theorem Served.ready_iff {done : List τ} {p : Pool τ ω κ β} (served : p.Served w c done)
    (sound : p.ledger.Sound) (tsk : τ) : p.ready tsk = true ↔ tsk ∈ done := by
  rw [← served.added]
  constructor
  · intro satisfied
    obtain ⟨e, -, named⟩ := (sound.promise tsk).mp satisfied
    exact List.mem_of_getElem? (sound.added_of_task named)
  · intro member
    apply sound.ready_of_idle served.m_tasks _ member
    intro v
    simp only [ledger, served.worker, Function.update_apply]
    split <;> rfl

/-- The next task is added and executed. -/
theorem Served.executes (finishes : code.CanReturn) {done : List τ} {p : Pool τ ω κ β} {x : σ}
    (reached : Reachable (system code) (p, x)) (served : p.Served w c done) (tsk : τ) :
    ∃ e p' x', Reachable (system code) (p', x') ∧ p'.Notifying w c done tsk e := by
  have ready := served.ready_iff (sound_reachable reached) tsk
  obtain ⟨running, worker, caller, empty, added⟩ := served
  have at_w : p.worker w = .testEmpty := by
    rw [worker]
    exact Function.update_self ..
  have awake : ∀ v, p.worker v ≠ .blocked := by
    intro v
    rw [worker, Function.update_apply]
    split <;> simp
  have pushed := reached.step ⟨running, .call (.pushBack (c := c) tsk caller)⟩
  have notified := pushed.step
    ⟨running, .call (.notifyNobody (c := c) (Function.update_self ..) awake)⟩
  have stored : (p.m_tasks.push_back tsk).cells = [tsk] := by simp [empty]
  obtain ⟨left, popped, rest⟩ := BlockingList.pop_front_of_cons stored
  have testing := notified.step
    ⟨running, .work (.notEmpty (w := w) at_w (BlockingList.empty_of_singleton stored))⟩
  have popping := testing.step ⟨running, .work (.pop (w := w) (goto_self ..) popped)⟩
  have called := popping.step ⟨running, .work (.callExecute (w := w) (goto_self ..))⟩
  obtain ⟨b, x', path, ends⟩ := finishes tsk x
  have executed := execute_path called running (goto_self ..) path
  have returned := executed.step ⟨running, .work (.returns (w := w) (goto_self ..) ends)⟩
  refine ⟨p.popped.length, _, x', returned, running, ?_, Function.update_self .., rest,
    congrArg (· ++ [tsk]) added, ?_⟩
  · simp only [goto, worker, Function.update_idem]
  · exact ready

/-- The next task is notified as well, if it is a new one. -/
theorem Served.next (finishes : code.CanReturn) {done : List τ} {p : Pool τ ω κ β} {x : σ}
    (reached : Reachable (system code) (p, x)) (served : p.Served w c done) {tsk : τ}
    (fresh : tsk ∉ done) :
    ∃ p' x', Reachable (system code) (p', x') ∧ p'.Served w c (done ++ [tsk]) := by
  obtain ⟨e, p', x', next, running, worker, caller, empty, added, ready⟩ :=
    served.executes finishes reached tsk
  have unsatisfied : p'.ready tsk = false := by simpa using mt ready.mp fresh
  have at_w : p'.worker w = .notify e tsk := by
    rw [worker]
    exact Function.update_self ..
  have notified := next.step
    ⟨running, .work (.notify at_w (CTask.Notify_eq_some.mpr ⟨unsatisfied, rfl⟩))⟩
  refine ⟨_, x', notified, running, ?_, caller, empty, added⟩
  simp only [goto, worker, Function.update_idem]

theorem exists_served [Nonempty σ] (finishes : code.CanReturn) (w : ω) (c : κ) {done : List τ}
    (distinct : done.Nodup) :
    ∃ p x, Reachable (system code) (p, x) ∧ p.Served w c done := by
  induction done using List.reverseRecOn with
  | nil =>
      have start : Reachable (system code) ((fresh : Pool τ ω κ β), Classical.arbitrary σ) :=
        .init idle_fresh
      have testing := start.step ⟨rfl, .work (.running (w := w) rfl rfl)⟩
      exact ⟨_, _, testing, rfl, rfl, rfl, rfl, rfl⟩
  | append_singleton done tsk ih =>
      obtain ⟨p, x, reached, served⟩ := ih (distinct.sublist (List.sublist_append_left ..))
      exact served.next finishes reached fun member =>
        absurd rfl (List.nodup_append.mp distinct |>.2.2 _ member _ (List.mem_singleton_self _))

/-- The shortest prefix with a repetition. -/
theorem exists_repetition {tasks : List τ} (repeats : ¬ tasks.Nodup) :
    ∃ done tsk, done.Nodup ∧ tsk ∈ done ∧ done ++ [tsk] <+: tasks := by
  induction tasks using List.reverseRecOn with
  | nil => exact absurd List.nodup_nil repeats
  | append_singleton done tsk ih =>
      by_cases distinct : done.Nodup
      · refine ⟨done, tsk, distinct, ?_, List.prefix_rfl⟩
        by_contra fresh
        refine repeats (distinct.append (List.nodup_singleton tsk) fun other member same => ?_)
        exact fresh (List.mem_singleton.mp same ▸ member)
      · obtain ⟨before, again, distinct, member, within⟩ := ih distinct
        exact ⟨before, again, distinct, member, within.trans (List.prefix_append ..)⟩

/-- The calls of `AddTask` may be those of `tasks`, in this order, exactly if these are
    different tasks: no interleaving then calls `Notify` on a satisfied promise. -/
theorem resubmission_iff [Nonempty ω] [Nonempty κ] [Nonempty σ] (finishes : code.CanReturn)
    (tasks : List τ) : (∀ s : Pool τ ω κ β × σ, Reachable (system code) s → s.1.added <+: tasks →
      s.1.terminated = false) ↔ tasks.Nodup := by
  constructor
  · intro safe
    by_contra repeats
    obtain ⟨done, tsk, distinct, member, within⟩ := exists_repetition repeats
    obtain ⟨p, x, reached, served⟩ :=
      exists_served finishes (Classical.arbitrary ω) (Classical.arbitrary κ) distinct
    obtain ⟨e, p', x', next, running, worker, -, -, added, ready⟩ :=
      served.executes finishes reached tsk
    have at_w : p'.worker (Classical.arbitrary ω) = .notify e tsk := by
      rw [worker]
      exact Function.update_self ..
    have thrown := next.step
      ⟨running, .work (.notifyThrows at_w (CTask.Notify_eq_none.mpr (ready.mpr member)))⟩
    have alive := safe _ thrown (by simpa only [goto, added] using within)
    cases alive
  · intro distinct s reached within
    exact not_terminated reached (distinct.sublist within.sublist)

theorem resubmission_iff_two_tasks :
    (∀ s : Pool Bool Unit Unit Unit × Unit,
      Reachable (system ⟨fun _ => (), fun _ _ _ _ _ => False, fun _ _ _ => True⟩) s →
      s.1.added <+: [true, false] → s.1.terminated = false) ∧
    ¬ ∀ s : Pool Bool Unit Unit Unit × Unit,
      Reachable (system ⟨fun _ => (), fun _ _ _ _ _ => False, fun _ _ _ => True⟩) s →
      s.1.added <+: [true, true] → s.1.terminated = false := by
  constructor
  · exact (resubmission_iff (fun _ x => ⟨(), x, .refl, trivial⟩) [true, false]).mpr (by decide)
  · intro safe
    have distinct := (resubmission_iff (fun _ x => ⟨(), x, .refl, trivial⟩) [true, true]).mp safe
    revert distinct
    decide

/-- One task that is added twice. -/
theorem resubmission_throws : ¬ ∀ s : Single × Unit,
    Reachable (system returnsAtOnce) s → s.1.terminated = false := by
  intro claim
  obtain ⟨p, x, reached, served⟩ : ∃ p x, Reachable (system returnsAtOnce) (p, x) ∧
      Served () () [()] p :=
    exists_served (fun _ x => ⟨(), x, .refl, trivial⟩) () () (by decide)
  obtain ⟨e, p', x', next, running, worker, -, -, -, ready⟩ :=
    served.executes (fun _ x => ⟨(), x, .refl, trivial⟩) reached ()
  have thrown := next.step ⟨running, .work (.notifyThrows (w := ())
    (by rw [worker, Function.update_self]) (CTask.Notify_eq_none.mpr (ready.mpr (by simp))))⟩
  cases claim _ thrown

end Pool

end KMeans
