import KMeans.MultiThread.MainProgress

/-! # When `Run` returns

No interleaving goes on for ever, unless workers keep waking up for no reason. And from every
state that the threads come to there is a way to the end of `Run`.
-/

namespace KMeans.multiThread

open Loops Arrays Lloyd Transition

variable {N : Nat} {ω : Type}

/-! ## The end of a run -/

theorem code_bounded (m_vpnts : List (CPoint N)) :
    (code m_vpnts).Bounded (fun tsk i => toUnsigned tsk.range.m_end - i) 4294967296 where
  start := by
    intro tsk
    simp only [code, toUnsigned]
    omega
  act := by
    intro tsk i s i' s' act
    obtain ⟨inside, _, _, rfl, _⟩ := act
    omega

/-- The actions that all threads have left, at most, without spurious wake-ups. -/
def Machine.rank [Fintype ω] (turns n k : Nat) (s : Machine N ω) : Nat :=
  s.left turns n k * (Pool.perEntry ω 4294967296 + 8) +
    s.pool.rank (fun tsk i => toUnsigned tsk.range.m_end - i) 4294967296

section Ends

variable [DecidableEq ω] {n k : Nat} [NeZero k] {x : Fin n → CPoint N} {c : Fin k → CPoint N}
  {RAND_MAX : Nat} {rand : Nat → Nat} {m_numClusters turns : Nat} {members : Members N}
  {s s' : Machine N ω}

theorem Main.pool_rank_le [Fintype ω] {m_vpnts : List (CPoint N)}
    (main : Main m_vpnts RAND_MAX rand m_numClusters s s') (left : TaskObject → Nat → Nat)
    (most : Nat) :
    s'.pool.rank left most ≤ s.pool.rank left most + Pool.perEntry ω most + 7 := by
  cases main with
  | addTask _ _ call _ | notifyOne _ call | callWait _ _ call _ | waitReturns _ call =>
      exact call.rank_le
  | _ => exact Nat.le_add_right_of_le (Nat.le_add_right _ _)

theorem Machine.left_of_work (turns k : Nat) {pool : Pool TaskObject ω Unit Nat}
    {vars : LoopState N} {w : ω}
    (work : s.pool.Work (code (List.ofFn x)) w s.vars pool vars) :
    ({ s with pool, vars } : Machine N ω).left turns n k = s.left turns n k := by
  obtain ⟨m_indexes, rfl⟩ := Work.vars work
  rfl

variable (seeds : kmeansPP RAND_MAX rand (List.ofFn x) m_numClusters members.m_centers =
  some (List.ofFn c)) (small : n < 2 ^ 32) (ends : ∀ m, Entered x c members m → m ≤ turns)
include seeds small ends

theorem Main.left_falls (main : Main (List.ofFn x) RAND_MAX rand m_numClusters s s')
    (reached : Reachable (schedules (List.ofFn x) RAND_MAX rand m_numClusters members) s) :
    s'.left turns n k < s.left turns n k := by
  have after := reached.step ⟨alive_reachable seeds small reached, .main main⟩
  have less := main.left_lt (bounded_reachable seeds small ends reached)
    (bounded_reachable seeds small ends after) (m_tasks_le reached)
  rwa [List.length_ofFn] at less

theorem Prompted.rank_lt [Fintype ω]
    (step : Prompted (List.ofFn x) RAND_MAX rand m_numClusters s s')
    (reached : Reachable (schedules (List.ofFn x) RAND_MAX rand m_numClusters members) s) :
    s'.rank turns n k < s.rank turns n k := by
  cases step with
  | main main =>
      have less := main.left_falls seeds small ends reached
      have more := main.pool_rank_le (fun tsk i => toUnsigned tsk.range.m_end - i) 4294967296
      have factor := Nat.mul_le_mul_right (Pool.perEntry ω 4294967296 + 8) less
      rw [Nat.succ_mul] at factor
      unfold Machine.rank
      omega
  | work w awake work =>
      have less := work.rank_lt (code_bounded (List.ofFn x)) awake
      unfold Machine.rank
      rw [Machine.left_of_work turns k work]
      exact Nat.add_lt_add_left less _

theorem exists_end [Fintype ω]
    (reached : Reachable (schedules (List.ofFn x) RAND_MAX rand m_numClusters members) s) : ∃ t,
      Relation.ReflTransGen (prompted (List.ofFn x) RAND_MAX rand m_numClusters members).step s t ∧
      (Returned t ∨ Hangs t) := by
  have falls : ∀ s s',
      Reachable (prompted (ω := ω) (List.ofFn x) RAND_MAX rand m_numClusters members) s →
      (prompted (List.ofFn x) RAND_MAX rand m_numClusters members).step s s' →
      s'.rank turns n k < s.rank turns n k :=
    fun _ _ before move => move.2.rank_lt seeds small ends (reachable_of_prompted before)
  exact exists_done falls (fun _ before => exists_prompted seeds small before) (.init reached)

end Ends

/-! ## With spurious wake-ups -/

/-- What holds until the main thread acts again, after a worker has woken up. -/
structure Resumes (turns n k : Nat) (start s : Machine N ω) : Prop where
  left : s.left turns n k ≤ start.left turns n k
  same : s.left turns n k = start.left turns n k →
    s.pool.m_tasks.cells.length ≤ 12 ∧ s.pool.InSight

section Returning

variable [DecidableEq ω] {n k : Nat} [NeZero k] {x : Fin n → CPoint N} {c : Fin k → CPoint N}
  {RAND_MAX : Nat} {rand : Nat → Nat} {m_numClusters m turns : Nat} {members : Members N}
  {s t u : Machine N ω}

omit [DecidableEq ω] in
theorem length_queue_le {pool : Pool TaskObject ω Unit Nat} {some_tasks : List TaskObject}
    (sound : pool.ledger.Sound) (distinct : pool.added.Nodup)
    (added : pool.added = history n m ++ some_tasks)
    (ready : ∀ tsk ∈ history n m, pool.ready tsk = true) :
    pool.m_tasks.cells.length ≤ some_tasks.length := by
  have order : pool.added = pool.popped.map Prod.snd ++ pool.m_tasks.cells := sound.order
  have queued : pool.m_tasks.cells.Nodup := by
    rw [order] at distinct
    exact (List.nodup_append.mp distinct).2.1
  apply (List.subperm_of_subset queued _).length_le
  intro tsk stored
  have member : tsk ∈ history n m ++ some_tasks := by
    rw [← added, order]
    exact List.mem_append_right _ stored
  cases List.mem_append.mp member with
  | inl earlier => exact absurd stored (Pool.not_queued sound distinct (ready tsk earlier))
  | inr last => exact last

omit [DecidableEq ω] in
/-- A hanging run has at most the twelve tasks of the pass in its queue. -/
theorem At.queue_le {i : Nat} (here : At x c members m s.pool s.vars s.m_tasks (.waitFor i))
    (sound : s.pool.ledger.Sound) : s.pool.m_tasks.cells.length ≤ 12 := by
  have distinct := here.nodup
  obtain ⟨passing, _, added, _⟩ := here
  rw [← length_taskObjects n (m + 1)]
  exact length_queue_le sound distinct added passing.ready

variable (seeds : kmeansPP RAND_MAX rand (List.ofFn x) m_numClusters members.m_centers =
  some (List.ofFn c)) (small : n < 2 ^ 32) (ends : ∀ m, Entered x c members m → m ≤ turns)
include seeds small ends

theorem Resumes.next {start : Machine N ω} (resumes : Resumes turns n k start s)
    (reached : Reachable (schedules (List.ofFn x) RAND_MAX rand m_numClusters members) s)
    (step : Prompted (List.ofFn x) RAND_MAX rand m_numClusters s t) :
    Resumes turns n k start t := by
  have later := reached.step ⟨alive_reachable seeds small reached, step.step⟩
  have alive := alive_reachable seeds small later
  cases step with
  | main main =>
      have less := main.left_falls seeds small ends reached
      have before := resumes.left
      exact ⟨by omega, fun same => by omega⟩
  | work w _ work =>
      have still := Machine.left_of_work turns k work
      refine ⟨still.trans_le resumes.left, ?_⟩
      intro same
      obtain ⟨short, inSight⟩ := resumes.same (still.symm.trans same)
      refine ⟨work.length_le.trans short, ?_⟩
      exact work.inSight (running_reachable reached) (by omega) alive inSight

theorem Resumes.path {start : Machine N ω} (resumes : Resumes turns n k start s)
    (reached : Reachable (schedules (List.ofFn x) RAND_MAX rand m_numClusters members) s)
    (path : Relation.ReflTransGen
      (prompted (List.ofFn x) RAND_MAX rand m_numClusters members).step s t) :
    Resumes turns n k start t := by
  induction path with
  | refl => exact resumes
  | tail before move ih =>
      exact ih.next seeds small ends (reached.later (path_of_prompted before)) move.2

/-- A worker that wakes up takes the tasks, so that the main thread goes on. -/
theorem Hangs.exists_resumed [Fintype ω] [Nonempty ω]
    (reached : Reachable (schedules (List.ofFn x) RAND_MAX rand m_numClusters members) s)
    (hangs : Hangs s) : ∃ t,
      Relation.ReflTransGen (schedules (List.ofFn x) RAND_MAX rand m_numClusters members).step s t ∧
      (Returned t ∨ Hangs t ∧ t.left turns n k < s.left turns n k) := by
  obtain ⟨w⟩ := ‹Nonempty ω›
  obtain ⟨⟨i, _, at_s, _⟩, _, asleep⟩ := hangs
  have sound := Pool.sound_reachable (pool_reachable reached)
  obtain ⟨m, here⟩ := at_reachable seeds small reached
  rw [at_s] at here
  have wakes : (schedules (List.ofFn x) RAND_MAX rand m_numClusters members).step s
      { s with pool := s.pool.goto w .relockWaiting } :=
    ⟨alive_reachable seeds small reached, .work w (.wakeUp (asleep w))⟩
  have awake := reached.step wakes
  have resumes : Resumes turns n k s { s with pool := s.pool.goto w .relockWaiting } := by
    refine ⟨Nat.le_refl _, ?_⟩
    intro _
    refine ⟨here.queue_le sound, Or.inr ⟨w, ?_⟩⟩
    simp [Worker.looks]
  obtain ⟨t, path, done⟩ := exists_end seeds small ends awake
  refine ⟨t, .head wakes (path_of_prompted path), ?_⟩
  cases done with
  | inl returned => exact Or.inl returned
  | inr hangs =>
      refine Or.inr ⟨hangs, ?_⟩
      have later := resumes.path seeds small ends awake path
      by_contra more
      have same : t.left turns n k = s.left turns n k := by
        have less := later.left
        omega
      cases (later.same same).2 with
      | inl empty => exact hangs.stored empty
      | inr looks =>
          obtain ⟨v, looks⟩ := looks
          rw [hangs.asleep v] at looks
          exact looks

theorem exists_returned [Fintype ω] [Nonempty ω]
    (reached : Reachable (schedules (List.ofFn x) RAND_MAX rand m_numClusters members) s) : ∃ t,
      Relation.ReflTransGen (schedules (List.ofFn x) RAND_MAX rand m_numClusters members).step s t ∧
      Returned t := by
  obtain ⟨t, path, done⟩ := exists_end seeds small ends reached
  have path' := path_of_prompted path
  cases done with
  | inl returned => exact ⟨t, path', returned⟩
  | inr hangs =>
      clear path
      -- By induction on what the main thread has left.
      induction steps : t.left turns n k using Nat.strong_induction_on generalizing t with
      | _ left ih =>
          obtain ⟨u, resumed, done⟩ :=
            hangs.exists_resumed seeds small ends (reached.later path')
          cases done with
          | inl returned => exact ⟨u, path'.trans resumed, returned⟩
          | inr again => exact ih _ (steps ▸ again.2) u (path'.trans resumed) again.1 rfl

end Returning

/-! ## The results -/

section Results

variable [DecidableEq ω] {m_vpnts : List (CPoint N)} {RAND_MAX : Nat} {rand : Nat → Nat}
  {m_numClusters : Nat} {members : Members N}

/-- The loop makes a bounded number of iterations. -/
theorem exists_turns {n k : Nat} [NeZero k] (x : Fin n → CPoint N) (c : Fin k → CPoint N)
    (members : Members N) : ∃ turns, ∀ m, Entered x c members m → m ≤ turns := by
  obtain ⟨turns, stop⟩ := exists_stopsAt x _ c CPoint.normSq_posDef bounded_id
  obtain ⟨stops, _⟩ := (stopsAt_iff_looping x c members.m_indexes turns).mp stop
  refine ⟨turns + 1, ?_⟩
  intro m entered
  by_contra more
  have goes := entered (turns + 1) (by omega)
  simp [stops] at goes

/-- Unless workers keep waking up spuriously, every run of `Run` ends after a bounded number of
    actions, wherever it starts. It has then returned, or it hangs. -/
theorem Run_ends [Fintype ω] (some_point : m_vpnts ≠ []) (small : m_vpnts.length < 2 ^ 32)
    (some_cluster : 1 ≤ m_numClusters) : ∃ turns k,
      Ends (prompted (ω := ω) m_vpnts RAND_MAX rand m_numClusters members)
        (Machine.rank turns m_vpnts.length k) fun s => Returned s ∨ Hangs s := by
  obtain ⟨n, k, _, x, c, rfl, seeds⟩ := exists_seeds RAND_MAX rand some_point some_cluster members
  rw [List.length_ofFn] at small
  obtain ⟨turns, ends⟩ := exists_turns x c members
  refine ⟨turns, k, ?_⟩
  rw [List.length_ofFn]
  apply Ends.of_rank
  · intro s s' reached move
    exact move.2.rank_lt seeds small ends (reachable_of_prompted reached)
  · intro s reached more
    exact exists_prompted seeds small reached more

theorem Run_ends_two_points : ∃ turns k,
    Ends (prompted (ω := Fin 8) [⟨![0]⟩, (⟨![2]⟩ : CPoint 1)] 32767 (fun _ => 0) 1 .fresh)
      (Machine.rank turns 2 k) fun s => Returned s ∨ Hangs s :=
  Run_ends (by simp) (by decide) (Nat.le_refl 1)

/-- From every state that the threads can come to, whatever has happened, `Run` can return: at
    worst a worker has to wake up spuriously. -/
theorem Run_can_return [Fintype ω] [Nonempty ω] (some_point : m_vpnts ≠ [])
    (small : m_vpnts.length < 2 ^ 32) (some_cluster : 1 ≤ m_numClusters) {s : Machine N ω}
    (reached : Reachable (schedules m_vpnts RAND_MAX rand m_numClusters members) s) : ∃ t,
      Relation.ReflTransGen (schedules m_vpnts RAND_MAX rand m_numClusters members).step s t ∧
      ∃ result, t.point = .returned result := by
  obtain ⟨n, k, _, x, c, rfl, seeds⟩ := exists_seeds RAND_MAX rand some_point some_cluster members
  rw [List.length_ofFn] at small
  obtain ⟨turns, ends⟩ := exists_turns x c members
  exact exists_returned seeds small ends reached

theorem Run_can_return_two_points : ∃ s t : Machine 1 (Fin 8),
    Reachable (schedules [⟨![0]⟩, ⟨![2]⟩] 32767 (fun _ => 0) 1 .fresh) s ∧
    Relation.ReflTransGen (schedules [⟨![0]⟩, ⟨![2]⟩] 32767 (fun _ => 0) 1 .fresh).step s t ∧
    ∃ result, t.point = .returned result := by
  let start : Machine 1 (Fin 8) := ⟨.fresh, ⟨[], [], [], [], 0, 0, 0⟩, [], .seed⟩
  have reached : Reachable (schedules [⟨![0]⟩, ⟨![2]⟩] 32767 (fun _ => 0) 1 .fresh) start :=
    .init ⟨Pool.idle_fresh, rfl, rfl, rfl, rfl⟩
  obtain ⟨t, path, returned⟩ := Run_can_return (by simp) (by decide) (Nat.le_refl 1) reached
  exact ⟨start, t, reached, path, returned⟩

end Results

end KMeans.multiThread
