import KMeans.MultiThread.OneWorker
import KMeans.Threadsafe.PoolGuarantees

/-! # The lifetime of the tasks

The pool has pointers to `CKMTask` objects that belong to `m_tasks`. When `m_tasks.clear()`
destroys them, the pool is done with each of them and has no pointer to it left. Nothing
is assumed of the points here, so the data of an iteration play no part.
-/

namespace KMeans

open Transition

/-! ## Tasks that the pool is done with -/

namespace Pool

variable {τ ω κ β : Type} [DecidableEq τ]

/-- The pool has executed the task and notified it, once each, and it is gone from the
    queue and from all hands. -/
structure Retired (p : Pool τ ω κ β) (tsk : τ) : Prop where
  executed : (p.executed.filter fun call => p.task call.2 = some tsk).length = 1
  notified : (p.notified.filter fun e => p.task e = some tsk).length = 1
  queue : tsk ∉ p.m_tasks.cells
  hand : ∀ w h, (p.worker w).hand = some h → h.tsk ≠ tsk

omit [DecidableEq τ] in
theorem not_queued {L : Ledger τ ω κ} (sound : L.Sound) (distinct : L.added.Nodup) {tsk : τ}
    (ready : L.ready tsk = true) : tsk ∉ L.queue := by
  intro stored
  obtain ⟨e, notified, named⟩ := (sound.promise tsk).mp ready
  obtain ⟨entry, popped, same⟩ := Option.map_eq_some_iff.mp named
  have earlier : tsk ∈ L.popped.map Prod.snd := by
    rw [← same]
    exact List.mem_map_of_mem (List.mem_of_getElem? popped)
  rw [sound.order] at distinct
  exact (List.nodup_append.mp distinct).2.2 tsk earlier tsk stored rfl

theorem retired_of_ready {p : Pool τ ω κ β} (sound : p.ledger.Sound) (distinct : p.added.Nodup)
    {tsk : τ} (ready : p.ready tsk = true) : p.Retired tsk := by
  obtain ⟨e, notified, named⟩ := (sound.promise tsk).mp ready
  have named : p.task e = some tsk := named
  have only : ∀ f, p.task f = some tsk → f = e := by
    intro f there
    have first := sound.added_of_task there
    have second := sound.added_of_task named
    have inside := (List.getElem?_eq_some_iff.mp first).1
    exact (List.getElem?_inj inside distinct).mp (first.trans second.symm)
  constructor
  · apply Nat.le_antisymm
    · rw [← List.length_map (f := Prod.snd)]
      apply length_le_one_of_eq
      · exact sound.executedOnce.sublist (List.filter_sublist.map _)
      · intro i first j second
        obtain ⟨_, member, rfl⟩ := List.mem_map.mp first
        obtain ⟨_, member', rfl⟩ := List.mem_map.mp second
        rw [only _ (of_decide_eq_true (List.mem_filter.mp member).2),
          only _ (of_decide_eq_true (List.mem_filter.mp member').2)]
    · obtain ⟨call, executed, rfl⟩ := List.mem_map.mp (sound.finished e notified).1
      exact List.length_pos_of_mem (List.mem_filter.mpr ⟨executed, decide_eq_true named⟩)
  · apply Nat.le_antisymm
    · apply length_le_one_of_eq (sound.notifiedOnce.filter _)
      intro i first j second
      rw [only _ (of_decide_eq_true (List.mem_filter.mp first).2),
        only _ (of_decide_eq_true (List.mem_filter.mp second).2)]
    · exact List.length_pos_of_mem (List.mem_filter.mpr ⟨notified, decide_eq_true named⟩)
  · exact not_queued sound distinct ready
  · intro w h holds same
    have waiting := sound.not_ready distinct holds
    rw [same] at waiting
    exact absurd (ready.symm.trans waiting) (by simp)

end Pool

/-! ## Where the tasks of an iteration are -/

namespace multiThread

variable {N : Nat} {ω : Type}

/-- The tasks of iteration `m + 1` are in `m_tasks`, and those of the iterations before are done. -/
structure Created (size m : Nat) (pool : Pool TaskObject ω Unit Nat) (vars : LoopState N)
    (m_tasks : List TaskObject) : Prop where
  numIterations : vars.numIterations = m + 1
  m_tasks : m_tasks = taskObjects size (m + 1)
  ready : ∀ tsk ∈ history size m, pool.ready tsk = true

/-- `makeClusters` has returned `m` times, and the tasks of all iterations are done. -/
structure Rests (size m : Nat) (pool : Pool TaskObject ω Unit Nat) (vars : LoopState N) : Prop where
  settled : Settled size m pool
  numIterations : vars.numIterations = m

/-- What holds at the program points of the main thread when `makeClusters` has returned `m` times. -/
def Place (size m : Nat) (pool : Pool TaskObject ω Unit Nat) (vars : LoopState N)
    (m_tasks : List TaskObject) : Point N → Prop
  | .seed => Settled size 0 pool ∧ m_tasks = []
  | .createTasks => Settled size m pool ∧ vars.numIterations = m + 1 ∧ m_tasks = []
  | .resize => Settled size m pool ∧ Created size m pool vars m_tasks
  | .addTask i => Created size m pool vars m_tasks ∧ Adding size m i pool
  | .notifyOne i => Created size m pool vars m_tasks ∧ Notifying size m i pool
  | .callWait i => Created size m pool vars m_tasks ∧ Waiting size m i pool
  | .waitFor i => Created size m pool vars m_tasks ∧ InWait size m i pool
  | .clear => Rests size m pool vars ∧ m_tasks = taskObjects size m ∧ 1 ≤ m
  | .testCost | .accumulate _ | .update _ | .group _ _ | .returned _ =>
      Rests size m pool vars ∧ m_tasks = []

section Steps

variable [DecidableEq ω] {size m : Nat} {m_vpnts : List (CPoint N)}
  {pool pool' : Pool TaskObject ω Unit Nat} {vars vars' : LoopState N} {m_tasks : List TaskObject}

theorem Work.numIterations {w : ω} (work : pool.Work (code m_vpnts) w vars pool' vars') :
    vars'.numIterations = vars.numIterations := by
  cases work with
  | execute _ act =>
      obtain ⟨_, _, _, _, rfl⟩ := act
      rfl
  | _ => rfl

theorem Created.work {w : ω} (created : Created size m pool vars m_tasks)
    (work : pool.Work (code m_vpnts) w vars pool' vars') : Created size m pool' vars' m_tasks where
  numIterations := (Work.numIterations work).trans created.numIterations
  m_tasks := created.m_tasks
  ready := fun tsk member => work.ready (created.ready tsk member)

theorem Rests.work {w : ω} (rests : Rests size m pool vars) (sound : pool.ledger.Sound)
    (work : pool.Work (code m_vpnts) w vars pool' vars') : Rests size m pool' vars' where
  settled := (rests.settled.work sound work).1
  numIterations := (Work.numIterations work).trans rests.numIterations

theorem Place.work {point : Point N} {w : ω} (place : Place size m pool vars m_tasks point)
    (sound : pool.ledger.Sound) (work : pool.Work (code m_vpnts) w vars pool' vars') :
    Place size m pool' vars' m_tasks point := by
  cases point with
  | seed => exact ⟨(place.1.work sound work).1, place.2⟩
  | createTasks =>
      exact ⟨(place.1.work sound work).1, (Work.numIterations work).trans place.2.1, place.2.2⟩
  | resize => exact ⟨(place.1.work sound work).1, place.2.work work⟩
  | addTask _ => exact ⟨place.1.work work, Adding.work work place.2⟩
  | notifyOne _ => exact ⟨place.1.work work, Notifying.work work place.2⟩
  | callWait _ => exact ⟨place.1.work work, Waiting.work work place.2⟩
  | waitFor _ => exact ⟨place.1.work work, InWait.work work place.2⟩
  | clear | testCost | accumulate _ | update _ | group _ _ | returned _ =>
      exact ⟨place.1.work sound work, place.2⟩

theorem Created.call (created : Created size m pool vars m_tasks) (call : pool.Call () pool') :
    Created size m pool' vars m_tasks where
  numIterations := created.numIterations
  m_tasks := created.m_tasks
  ready := fun tsk member => by rw [call.ready, created.ready tsk member]

theorem Main.place {RAND_MAX : Nat} {rand : Nat → Nat} {m_numClusters : Nat} {s s' : Machine N ω}
    (main : Main m_vpnts RAND_MAX rand m_numClusters s s')
    (place : Place m_vpnts.length m s.pool s.vars s.m_tasks s.point) :
    ∃ m', Place m_vpnts.length m' s'.pool s'.vars s'.m_tasks s'.point := by
  cases main with
  | seed at_s _ =>
      rw [at_s] at place
      exact ⟨0, ⟨place.1, rfl⟩, place.2⟩
  | goOn at_s _ =>
      rw [at_s] at place
      obtain ⟨rests, none⟩ := place
      exact ⟨m, rests.settled, congrArg (· + 1) rests.numIterations, none⟩
  | createTasks at_s =>
      rw [at_s] at place
      obtain ⟨settled, numIterations, none⟩ := place
      refine ⟨m, settled, numIterations, ?_, settled.ready⟩
      rw [none, numIterations]
      rfl
  | resize at_s =>
      rw [at_s] at place
      obtain ⟨settled, created⟩ := place
      exact ⟨m, ⟨created.numIterations, created.m_tasks, created.ready⟩, settled.adding⟩
  | addTask at_s there call after =>
      rw [at_s] at place
      obtain ⟨created, adding⟩ := place
      rw [created.m_tasks] at there
      exact ⟨m, created.call call, adding.push there call after⟩
  | notifyOne at_s call =>
      rw [at_s] at place
      exact ⟨m, place.1.call call, place.2.notify call⟩
  | addedAll at_s none =>
      rw [at_s] at place
      obtain ⟨created, adding⟩ := place
      rw [created.m_tasks] at none
      exact ⟨m, created, adding.all none⟩
  | callWait at_s there call after =>
      rw [at_s] at place
      obtain ⟨created, waiting⟩ := place
      rw [created.m_tasks] at there
      exact ⟨m, created.call call, waiting.call there call after⟩
  | waitReturns at_s call =>
      rw [at_s] at place
      exact ⟨m, place.1.call call, place.2.returns call⟩
  | waitedForAll at_s none =>
      rw [at_s] at place
      obtain ⟨created, waiting⟩ := place
      rw [created.m_tasks] at none
      exact ⟨m + 1, ⟨waiting.settled none created.ready, created.numIterations⟩, created.m_tasks,
        Nat.le_add_left 1 m⟩
  | clear at_s =>
      rw [at_s] at place
      exact ⟨m, place.1, rfl⟩
  | accumulate at_s _ _ | update at_s _ _ =>
      rw [at_s] at place
      exact ⟨m, ⟨place.1.settled, place.1.numIterations⟩, place.2⟩
  | accumulatedAll at_s _ | updatedAll at_s _ | leave at_s _ | group at_s _ _ | returns at_s _ =>
      rw [at_s] at place
      exact ⟨m, place⟩

omit [DecidableEq ω] in
/-- No task is ever added twice. -/
theorem Place.nodup {point : Point N} (place : Place size m pool vars m_tasks point) :
    pool.added.Nodup := by
  cases point with
  | seed =>
      rw [place.1.added]
      exact nodup_history size 0
  | createTasks | resize =>
      rw [place.1.added]
      exact nodup_history size m
  | clear | testCost | accumulate _ | update _ | group _ _ | returned _ =>
      rw [place.1.settled.added]
      exact nodup_history size m
  | addTask _ => exact place.2.nodup
  | notifyOne _ => exact place.2.nodup
  | callWait _ => exact place.2.nodup
  | waitFor _ => exact place.2.nodup

end Steps

section Schedules

variable [DecidableEq ω] {m_vpnts : List (CPoint N)} {RAND_MAX : Nat} {rand : Nat → Nat}
  {m_numClusters : Nat} {members : Members N} {s t : Machine N ω}

theorem place_reachable (reached :
    Reachable (schedules m_vpnts RAND_MAX rand m_numClusters members) s) :
    ∃ m, Place m_vpnts.length m s.pool s.vars s.m_tasks s.point := by
  induction reached with
  | @init s start =>
      obtain ⟨idle, _, _, none, at_s⟩ := start
      rw [at_s]
      exact ⟨0, ⟨idle.added, fun tsk member => absurd member List.not_mem_nil, idle.caller ()⟩, none⟩
  | step before move ih =>
      obtain ⟨m, place⟩ := ih
      cases move.2 with
      | main main => exact main.place place
      | work w work =>
          exact ⟨m, place.work (Pool.sound_reachable (pool_reachable before)) work⟩

theorem Step.ready (step : Step m_vpnts RAND_MAX rand m_numClusters s t) {tsk : TaskObject}
    (ready : s.pool.ready tsk = true) : t.pool.ready tsk = true := by
  cases step with
  | work w work => exact work.ready ready
  | main main =>
      cases main with
      | addTask _ _ call _ | notifyOne _ call | callWait _ _ call _ | waitReturns _ call =>
          rw [call.ready]
          exact ready
      | _ => exact ready

theorem ready_later {tsk : TaskObject} (ready : s.pool.ready tsk = true)
    (path : Relation.ReflTransGen
      (schedules (ω := ω) m_vpnts RAND_MAX rand m_numClusters members).step s t) :
    t.pool.ready tsk = true := by
  induction path with
  | refl => exact ready
  | tail _ move ih => exact move.2.ready ih

/-- When `m_tasks.clear()` is called, the pool is done with the tasks of the iteration, now
    and for ever, and until more tasks are added no worker is in `Execute`. -/
theorem task_lifetime
    (reached : Reachable (schedules m_vpnts RAND_MAX rand m_numClusters members) s)
    (at_s : s.point = .clear) :
    s.m_tasks = taskObjects m_vpnts.length s.vars.numIterations ∧
    ∀ t, Relation.ReflTransGen
      (schedules (ω := ω) m_vpnts RAND_MAX rand m_numClusters members).step s t →
      (∀ tsk ∈ s.m_tasks, t.pool.Retired tsk) ∧
      (t.pool.added = s.pool.added → (∀ w e tsk i, t.pool.worker w ≠ .execute e tsk i) ∧
        ∀ w pool vars, t.pool.Work (code m_vpnts) w t.vars pool vars → vars = t.vars) := by
  obtain ⟨m, place⟩ := place_reachable reached
  rw [at_s] at place
  obtain ⟨rests, created, positive⟩ := place
  refine ⟨by rw [created, rests.numIterations], ?_⟩
  intro t path
  have reached' := reached.later path
  have sound := Pool.sound_reachable (pool_reachable reached')
  obtain ⟨_, place'⟩ := place_reachable reached'
  have all : ∀ tsk ∈ s.pool.added, t.pool.ready tsk = true := by
    intro tsk member
    rw [rests.settled.added] at member
    exact ready_later (rests.settled.ready tsk member) path
  constructor
  · intro tsk member
    apply Pool.retired_of_ready sound place'.nodup
    apply all
    rw [created] at member
    rw [rests.settled.added]
    cases m with
    | zero => exact absurd positive (Nat.lt_irrefl 0)
    | succ m => exact List.mem_append_right _ member
  · intro same
    have free := (sound.settled place'.nodup (by
      intro tsk member
      exact all tsk (same ▸ member))).2
    constructor
    · intro w e tsk i at_w
      have none : (t.pool.worker w).hand = none := free w
      rw [at_w] at none
      cases none
    · intro w pool vars work
      exact work.still (free w)

/-- Two workers, and the points 0 and 2 in two clusters. -/
theorem task_lifetime_two_points : ∃ s : Machine 1 (Fin 2),
    Reachable (schedules [⟨![0]⟩, ⟨![2]⟩] 32767 (fun n => n) 2 .fresh) s ∧
    s.m_tasks.length = 12 ∧ ∀ tsk ∈ s.m_tasks, s.pool.Retired tsk := by
  obtain ⟨s, reached, at_s⟩ := some_schedule_clears (ω := Fin 2)
    [⟨![0]⟩, (⟨![2]⟩ : CPoint 1)] (by simp) (by simp) 32767 (fun n => n) (by decide : 1 ≤ 2) .fresh
  obtain ⟨created, retired⟩ := task_lifetime reached at_s
  refine ⟨s, reached, ?_, (retired s .refl).1⟩
  rw [created]
  rfl

end Schedules

end multiThread

end KMeans
