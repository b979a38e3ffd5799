import KMeans.Threadsafe.LockInvariant

/-! # What an `index_locker` guarantees

At most one thread holds an index, whatever the threads call. If no thread locks an
index twice, the counter of an entry is the number of its threads, no thread uses a
node that has been erased, and nothing is left behind.
-/

namespace KMeans.IndexLocker

open Transition

variable {τ ι A : Type} [Fintype τ] [DecidableEq τ] [DecidableEq ι] [DecidableEq A]
  {calls : Local ι A → ι → Prop} {s : Shared τ ι A × (τ → Local ι A)}

omit [DecidableEq τ] [DecidableEq A] in
theorem inv_initial {g : Shared τ ι A} {l : τ → Local ι A} (start : initial g l) : Inv (g, l) := by
  obtain ⟨free, empty, -, outside⟩ := start
  have absent : ∀ i, g.m_lockers.lookup i = none := by simp [empty]
  have wf : g.WellFormed := ⟨by simp [absent], by simp [absent]⟩
  have bystander : ∀ t i, (l t).role i = Role.bystander := fun t i => by
    simp [outside t, Local.role, Point.role]
  refine ⟨wf, fun t => ?_, fun t i => ?_, fun i => ?_⟩
  · simp [free, outside t, Local.inGlobal, Point.inGlobal]
  · simp [outside t, Point.role, Role.bystander]
  · simp only [(slot_eq_none wf).mpr (absent i), bystander]
    exact ⟨fun _ => rfl, fun _ => rfl⟩

theorem inv_reachable (reached : Reachable (system calls) s) : Inv s := by
  refine reached.invariant (fun s start => inv_initial start) ?_
  rintro ⟨g, l⟩ _ inv ⟨t, g', next, move, rfl⟩
  exact inv.move move

omit [Fintype τ] in
/-- A thread that is alone comes to `try_lock` for any index. -/
theorem can_try (t : τ) (i : ι) (a : A) : ∃ s : Shared τ ι A × (τ → Local ι A),
    Reachable (system matched) s ∧ s.2 t = ⟨.tryLock i a, ∅⟩ ∧
      s.1.m_lockers.lookup i = some a ∧ ∃ o, s.1.node a = some o ∧ o.mtx = none := by
  have start : Reachable (system matched)
      ((⟨none, ∅, fun _ => none⟩ : Shared τ ι A), fun _ : τ => (⟨.outside, ∅⟩ : Local ι A)) :=
    .init ⟨rfl, rfl, fun _ => rfl, fun _ => rfl⟩
  have called := start.move (t := t) rfl (.callLock (i := i) (by simp [matched]))
  have inside := called.move (t := t) (Function.update_self ..) (.lockGlobal rfl)
  have created := inside.move (t := t) (Function.update_self ..) (.insert (a := a) (by simp) rfl)
  have counted := created.move (t := t) (Function.update_self ..) (.increment (Function.update_self ..))
  exact ⟨_, counted, Function.update_self .., Finmap.lookup_insert _, _, Function.update_self .., rfl⟩

omit [Fintype τ] in
/-- A thread that is alone can lock any index. -/
theorem can_lock (t : τ) (i : ι) (a : A) : ∃ s : Shared τ ι A × (τ → Local ι A),
    Reachable (system matched) s ∧ i ∈ (s.2 t).held ∧ i ∈ s.1.m_lockers := by
  obtain ⟨s, counted, here, found, o, object, free⟩ := can_try t i a
  have locked := counted.move here (.tryLock object free)
  have returned := locked.move (t := t) (Function.update_self ..) .enter
  refine ⟨_, returned, ?_, ?_⟩
  · simp only [Function.update_self, Finset.mem_insert_self]
  · exact Finmap.mem_iff.mpr ⟨a, found⟩

/-- At most one thread is between the return of `lock(i)` and its call of `unlock(i)`. -/
theorem mutual_exclusion (reached : Reachable (system calls) s) (i : ι) (t u : τ)
    (mine : i ∈ (s.2 t).held) (yours : i ∈ (s.2 u).held) : t = u := by
  have owns : ∀ v, i ∈ (s.2 v).held → ((s.2 v).role i).owns = true := fun v holds => by
    simp [Local.role, holds]
  have inv := inv_reachable reached
  have consistent := inv.index i
  cases entry : s.1.slot i with
  | none =>
      simp only [entry] at consistent
      have none := consistent.uses t
      have some := uses_pos_of_owns (owns t mine)
      omega
  | some e =>
      obtain ⟨a, o⟩ := e
      simp only [entry] at consistent
      exact consistent.owner.unique (owns t mine) (owns u yours)

theorem mutual_exclusion_two_threads : ∃ s : Shared (Fin 2) Nat Nat × (Fin 2 → Local Nat Nat),
    Reachable (system matched) s ∧ 7 ∈ (s.2 0).held ∧ ∀ u, 7 ∈ (s.2 u).held → 0 = u := by
  obtain ⟨s, reached, holds, -⟩ := can_lock (0 : Fin 2) 7 0
  exact ⟨s, reached, holds, fun u => mutual_exclusion reached 7 0 u holds⟩

/-! ## Reference counting -/

/-- What a locker with matched calls keeps to. -/
structure Counting (s : Shared τ ι A × (τ → Local ι A)) : Prop where
  /-- While `m_global` is free, the entries are those with a positive counter. -/
  present : s.1.m_global = none → ∀ i, i ∈ s.1.m_lockers ↔
    ∃ a o, s.1.m_lockers.lookup i = some a ∧ s.1.node a = some o ∧ 0 < o.catch_cnt
  /-- The counter of an entry is the number of threads that it counts. -/
  counter : ∀ i a o, s.1.m_lockers.lookup i = some a → s.1.node a = some o →
    o.catch_cnt = (Finset.univ.filter fun t => (s.2 t).counted i).card
  /-- Where there is no entry, there is nothing to count. -/
  uncounted : ∀ i, i ∉ s.1.m_lockers → ∀ t, ¬ (s.2 t).counted i
  /-- A node that a thread uses or is blocked on is that of the present entry. -/
  live : ∀ t i a, (s.2 t).point.reference i = some a →
    s.1.m_lockers.lookup i = some a ∧ (s.1.node a).isSome
  /-- An entry about to be erased has a free mutex, and no other thread refers to it. -/
  erased : ∀ t i a, (s.2 t).point = .erase i a →
    (∃ o, s.1.node a = some o ∧ o.mtx = none) ∧ ∀ u ≠ t, (s.2 u).point.reference i = none
  /-- `m_lockers.size()` is zero when no thread is inside or between calls. -/
  empty : (∀ t, (s.2 t).idle) → s.1.m_lockers.keys.card = 0

omit [Fintype τ] in
theorem not_held_of_index (reached : Reachable (system matched) s) (t : τ) :
    ∀ i, (s.2 t).point.index = some i → i ∉ (s.2 t).held := by
  refine threads_local (P := fun p => ∀ i, p.point.index = some i → i ∉ p.held) ?_ ?_ reached t
  · intro g l start t i _
    simp [start.2.2.2 t]
  · intro t g p g' p' move before
    cases move <;> grind [Point.index, matched]

omit [Fintype τ] [DecidableEq τ] [DecidableEq A] in
theorem uses_eq_counted {p : Local ι A} {i : ι} (apart : p.point.index = some i → i ∉ p.held) :
    (p.role i).uses = if p.counted i then 1 else 0 := by
  obtain ⟨point, held⟩ := p
  cases point <;> grind [Local.role, Point.role, Role.bystander, Local.counted, Point.index]

omit [Fintype τ] [DecidableEq τ] [DecidableEq A] in
theorem role_of_reference {p : Local ι A} {i : ι} {a : A} (refers : p.point.reference i = some a) :
    (p.role i).node = some a := by
  obtain ⟨point, held⟩ := p
  cases point <;> grind [Local.role, Point.role, Point.reference]

omit [Fintype τ] [DecidableEq τ] [DecidableEq A] in
theorem role_of_idle {p : Local ι A} (idle : p.idle) (i : ι) : p.role i = .bystander := by
  obtain ⟨point, held⟩ := p
  cases point <;> grind [Local.role, Point.role, Local.idle, Point.index]

section Entry

variable {i : ι} {a : A} {o : SyncObject τ}

omit [DecidableEq τ] [DecidableEq A] in
theorem Inv.used (inv : Inv s) (found : s.1.m_lockers.lookup i = some a)
    (object : s.1.node a = some o) : Used a o fun t => (s.2 t).role i := by
  have consistent := inv.index i
  simp only [slot_eq_some.mpr ⟨found, object⟩] at consistent
  exact consistent

omit [DecidableEq τ] [DecidableEq A] in
theorem Inv.zero_or_pos (inv : Inv s) (found : s.1.m_lockers.lookup i = some a)
    (object : s.1.node a = some o) : o.catch_cnt = 0 ∨ 0 < o.catch_cnt := by
  have counted : 0 ≤ o.catch_cnt := by
    rw [(inv.used found object).count]
    exact Finset.sum_nonneg fun t _ => uses_nonneg i (s.2 t)
  omega

theorem counter_eq (reached : Reachable (system matched) s)
    (found : s.1.m_lockers.lookup i = some a) (object : s.1.node a = some o) :
    o.catch_cnt = (Finset.univ.filter fun t => (s.2 t).counted i).card := by
  rw [((inv_reachable reached).used found object).count, Finset.sum_congr rfl fun t _ =>
    uses_eq_counted (not_held_of_index reached t i), Finset.sum_boole]

omit [DecidableEq τ] [DecidableEq A] in
/-- An entry with a zero counter is somebody's business inside `m_global`. -/
theorem Inv.pos_of_free (inv : Inv s) (free : s.1.m_global = none)
    (found : s.1.m_lockers.lookup i = some a) (object : s.1.node a = some o) :
    0 < o.catch_cnt := by
  rcases inv.zero_or_pos found object with zero | positive
  · obtain ⟨t, settles⟩ := (inv.used found object).settled zero
    have owner := (inv.global t).mpr (inGlobal_of_settles settles)
    simp [free] at owner
  · exact positive

theorem not_counted_of_absent (reached : Reachable (system matched) s) (absent : i ∉ s.1.m_lockers)
    (t : τ) : ¬ (s.2 t).counted i := by
  intro counted
  have inv := inv_reachable reached
  have unused := inv.index i
  simp only [(slot_eq_none inv.wellFormed).mpr (Finmap.lookup_eq_none.mpr absent)] at unused
  have none := unused.uses t
  simp [uses_eq_counted (not_held_of_index reached t i), counted] at none

omit [DecidableEq τ] [DecidableEq A] in
theorem Inv.lookup_of_idle (inv : Inv s) (idle : ∀ t, (s.2 t).idle) (i : ι) :
    s.1.m_lockers.lookup i = none := by
  refine Option.eq_none_iff_forall_ne_some.mpr fun a found => ?_
  obtain ⟨o, object⟩ := inv.wellFormed.object found
  have used := inv.used found object
  simp only [role_of_idle (idle _)] at used
  obtain ⟨t, settles⟩ := used.settled (by simp [used.count, Role.bystander])
  simp [Role.bystander] at settles

end Entry

theorem reference_counting (reached : Reachable (system matched) s) : Counting s := by
  have inv := inv_reachable reached
  refine ⟨fun free i => ?_, fun i a o => counter_eq reached, fun i absent =>
    not_counted_of_absent reached absent, fun t i a refers => ?_, fun t i a erasing => ?_,
    fun idle => ?_⟩
  · constructor
    · intro present
      obtain ⟨a, found⟩ := Finmap.mem_iff.mp present
      obtain ⟨o, object⟩ := inv.wellFormed.object found
      exact ⟨a, o, found, object, inv.pos_of_free free found object⟩
    · rintro ⟨a, o, found, -⟩
      exact Finmap.mem_iff.mpr ⟨a, found⟩
  · obtain ⟨o, entry, -⟩ := inv.slot_of_node (l := s.2) (role_of_reference refers)
    obtain ⟨found, object⟩ := slot_eq_some.mp entry
    exact ⟨found, by rw [object]; rfl⟩
  · obtain ⟨o, entry, free, -, others⟩ := inv.alone (l := s.2) erasing
    refine ⟨⟨o, (slot_eq_some.mp entry).2, free⟩, fun u other => ?_⟩
    refine Option.eq_none_iff_forall_ne_some.mpr fun b refers => ?_
    simpa [others u other] using role_of_reference refers
  · have empty : s.1.m_lockers = ∅ := Finmap.ext_lookup fun i => by
      rw [inv.lookup_of_idle idle i, Finmap.lookup_empty]
    rw [empty, Finmap.keys_empty, Finset.card_empty]

theorem reference_counting_two_threads :
    ∃ s : Shared (Fin 2) Nat Nat × (Fin 2 → Local Nat Nat),
      Reachable (system matched) s ∧ 7 ∈ (s.2 0).held ∧ Counting s := by
  obtain ⟨s, reached, holds, -⟩ := can_lock (0 : Fin 2) 7 0
  exact ⟨s, reached, holds, reference_counting reached⟩

end KMeans.IndexLocker
