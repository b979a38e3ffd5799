import Mathlib.Data.Finset.Max
import Mathlib.Data.Finset.Option
import KMeans.Threadsafe.LockProgress

/-! # Threads that hold several indexes

A thread that holds indexes may call `lock` for another one. If each thread asks for its
indexes in ascending order, the threads do not block each other for good: the one that
waits for the greatest index waits for a thread that gets on. And as no action of `lock`,
`unlock` and `size` is ever repeated, every run comes to its end.
-/

namespace KMeans.IndexLocker

open Transition

variable {τ ι A : Type}

/-! ## Who is waited for -/

/-- The index whose mutex a thread waits for, or is about to lock. -/
def Point.waits : Point ι A → Option ι
  | .lockMtx i _ => some i
  | _ => none

theorem locking_of_waits {point : Point ι A} {i : ι} (waits : point.waits = some i) :
    point.locking = some i := by
  cases point <;> simp_all [Point.waits, Point.locking]

section Waiting

variable [Fintype τ] [LinearOrder ι] {s : Shared τ ι A × (τ → Local ι A)}

/-- Each thread that waits for an index holds smaller ones only. -/
def Ascending (s : Shared τ ι A × (τ → Local ι A)) : Prop :=
  ∀ t i, (s.2 t).point.waits = some i → ∀ j ∈ (s.2 t).held, j < i

omit [Fintype τ] in
theorem owns_of_inside {l : Local ι A} {i : ι} (owns : (l.role i).owns = true) :
    i ∈ l.held ∨ l.point ≠ .outside ∧ l.point.waits = none := by
  obtain ⟨point, held⟩ := l
  by_cases holds : i ∈ held
  · exact Or.inl holds
  · cases point <;> grind [Local.role, Point.role, Role.bystander, Point.waits]

variable [DecidableEq A]

/-- A thread in a call can step, unless it waits for an index or for `m_global`. -/
theorem canStep_of_waits (inv : Inv s) (room : ∃ a, s.1.node a = none) (free : s.1.m_global = none)
    {t : τ} (apart : (s.2 t).point.waits = none) : CanStep matched s t := by
  cases (inv.canStep_or room t : CanStep matched s t ∨ _) with
  | inl can => exact can
  | inr blocked =>
      cases blocked with
      | inl wants => exact absurd free wants.2
      | inr waits =>
          obtain ⟨i, a, u, at_t, _⟩ := waits
          rw [at_t] at apart
          cases apart

theorem waits_of_stuck (inv : Inv s) (room : ∃ a, s.1.node a = none) (free : s.1.m_global = none)
    {t : τ} (stuck : ¬ CanStep matched s t) :
    ∃ i u, (s.2 t).point.waits = some i ∧ ((s.2 u).role i).owns = true := by
  cases (inv.canStep_or room t : CanStep matched s t ∨ _) with
  | inl can => exact absurd can stuck
  | inr blocked =>
      cases blocked with
      | inl wants => exact absurd free wants.2
      | inr waits =>
          obtain ⟨i, a, u, at_t, b, o, found, there, owner⟩ := waits
          exact ⟨i, u, by rw [at_t]; rfl, ((inv.used found there).owner u).mp owner⟩

/-- If a thread is in a call, then one in a call can step or one in no call holds an index. -/
theorem inside_steps (inv : Inv s) (room : ∃ a, s.1.node a = none) (ascending : Ascending s)
    (inside : ∃ t, (s.2 t).point ≠ .outside) :
    (∃ u, (s.2 u).point ≠ .outside ∧ CanStep matched s u) ∨
      ∃ u, (s.2 u).point = .outside ∧ (s.2 u).held.Nonempty := by
  by_contra none_can
  obtain ⟨stuck, outside⟩ := not_or.mp none_can
  simp only [not_exists, not_and] at stuck outside
  have free : s.1.m_global = none := by
    cases owner : s.1.m_global with
    | none => rfl
    | some u =>
        have global : (s.2 u).point.inGlobal = true := (inv.global u).mp owner
        have away : (s.2 u).point ≠ .outside := by
          intro same
          rw [same] at global
          cases global
        exact absurd (inv.owner_canStep room owner) (stuck u away)
  -- of the threads that wait, take one that waits for the greatest index
  obtain ⟨t, away⟩ := inside
  obtain ⟨first, _, waits, _⟩ := waits_of_stuck inv room free (stuck t away)
  let waited := (Finset.univ.image fun u => (s.2 u).point.waits).eraseNone
  have member : ∀ u i, (s.2 u).point.waits = some i → i ∈ waited := by
    intro u i waiting
    exact Finset.mem_eraseNone.mpr (Finset.mem_image.mpr ⟨u, Finset.mem_univ u, waiting⟩)
  have some_waited : waited.Nonempty := ⟨first, member t first waits⟩
  obtain ⟨v, _, greatest⟩ :=
    Finset.mem_image.mp (Finset.mem_eraseNone.mp (waited.max'_mem some_waited))
  have away_v : (s.2 v).point ≠ .outside := by
    intro same
    simp [same, Point.waits] at greatest
  obtain ⟨i, u, waits_v, owns⟩ := waits_of_stuck inv room free (stuck v away_v)
  obtain rfl := Option.some.inj (waits_v.symm.trans greatest)
  -- its owner waits too, and for a greater index
  cases owns_of_inside owns with
  | inr gets_on => exact stuck u gets_on.1 (canStep_of_waits inv room free gets_on.2)
  | inl holds =>
      have away_u : (s.2 u).point ≠ .outside := fun same => outside u same ⟨_, holds⟩
      obtain ⟨j, _, waits_u, _⟩ := waits_of_stuck inv room free (stuck u away_u)
      have greater := ascending u j waits_u _ holds
      exact absurd greater (waited.le_max' j (member u j waits_u)).not_gt

end Waiting

/-! ## No action is repeated -/

/-- How many actions a call has left, at most. -/
def Point.rank : Point ι A → Nat
  | .outside => 0
  | .enter .. | .lockMtx .. | .leave | .sizeReturn _ => 1
  | .giveWay .. | .erase .. | .sizeRead => 2
  | .tryLock .. | .compare .. | .sizeLock => 3
  | .increment .. | .decrement .. => 4
  | .subscript _ | .relockGlobal .. => 5
  | .lockGlobal _ | .unlockMtx .. => 6
  | .find _ => 7

theorem Move.rank_lt [DecidableEq ι] [DecidableEq A] {t : τ} {g g' : Shared τ ι A} {calls : Local ι A → ι → Prop} 
    {l l' : Local ι A} (move : Move calls t g l g' l') (away : l.point ≠ .outside) :
    l'.point.rank < l.point.rank := by
  cases move <;> first | exact absurd rfl away | simp [Point.rank]

/-! ## Calls in ascending order -/

section Order

variable [LinearOrder ι]

/-- With the given indexes held, each `lock` is for a greater index than those held, each
    `unlock` for one of them, and none is held at the end. -/
def Ordered : Finset ι → List (Request ι) → Prop
  | held, [] => held = ∅
  | held, .lock index :: rest => (∀ j ∈ held, j < index) ∧ Ordered (insert index held) rest
  | held, .unlock index :: rest => index ∈ held ∧ Ordered (held.erase index) rest
  | held, .size :: rest => Ordered held rest

/-- The calls to come are in order, once the one under way has returned. -/
def InOrder (p : Local ι A × List (Request ι)) : Prop :=
  match p.1.point.locking with
  | some i => (∀ j ∈ p.1.held, j < i) ∧ Ordered (insert i p.1.held) p.2
  | none => Ordered p.1.held p.2

variable [DecidableEq A] {t : τ} {g g' : Shared τ ι A} {p p' : Local ι A × List (Request ι)}

theorem Act.inOrder (act : Act t g p g' p') (order : InOrder p) : InOrder p' := by
  cases act with
  | lock => exact order
  | unlock => exact order.2
  | size => exact order
  | inside away move => cases move <;> first | exact order | exact order.2 | exact absurd rfl away

theorem Act.matched_move (act : Act t g p g' p') (order : InOrder p) :
    Move matched t g p.1 g' p'.1 := by
  cases act with
  | lock =>
      apply Move.callLock
      intro held
      exact lt_irrefl _ (order.1 _ held)
  | unlock => exact .callUnlock order.1
  | size => exact .callSize
  | inside _ move => exact move

/-- How many actions a thread has left, at most. -/
def actsLeft (p : Local ι A × List (Request ι)) : Nat := p.1.point.rank + 8 * p.2.length

theorem Act.actsLeft_lt (act : Act t g p g' p') : actsLeft p' < actsLeft p := by
  unfold actsLeft
  cases act with
  | lock | unlock | size =>
      simp only [Point.rank, List.length_cons]
      omega
  | inside away move =>
      exact Nat.add_lt_add_right (move.rank_lt away) _

variable [DecidableEq τ] {requests : τ → List (Request ι)}
  {r : Shared τ ι A × (τ → Local ι A × List (Request ι))}

theorem inOrder_of_reachable (ordered : ∀ t, Ordered ∅ (requests t))
    (reached : Reachable (programs requests) r) (t : τ) : InOrder (r.2 t) := by
  apply threads_local (P := InOrder) _ _ reached t
  · intro g l start t
    obtain ⟨⟨_, _, _, outside⟩, calls⟩ := start
    have outside : (l t).1 = ⟨.outside, ∅⟩ := outside t
    unfold InOrder
    rw [outside, calls t]
    exact ordered t
  · intro t g p g' p' act order
    exact act.inOrder order

/-- What the threads do to the locker are matched calls. -/
theorem locker_of_programs (ordered : ∀ t, Ordered ∅ (requests t))
    (reached : Reachable (programs requests) r) :
    Reachable (system matched) (r.1, fun t => (r.2 t).1) := by
  induction reached with
  | init start => exact .init start.1
  | @step r _ before step ih =>
      obtain ⟨t, g, next, act, rfl⟩ := step
      have order := inOrder_of_reachable ordered before t
      have same : (fun u => (Function.update r.2 t next u).1) =
          Function.update (fun u => (r.2 u).1) t next.1 := by
        funext u
        exact Function.apply_update (fun _ => Prod.fst) r.2 t next u
      refine ih.step ⟨t, g, next.1, act.matched_move order, ?_⟩
      rw [same]

/-- While a thread has not finished, one can act. -/
theorem ordered_acts [Fintype τ] [Infinite A] (ordered : ∀ t, Ordered ∅ (requests t))
    (reached : Reachable (programs requests) r) (unfinished : ¬ ∀ t, Finished (r.2 t)) :
    ∃ r', (programs requests).step r r' := by
  have locker := locker_of_programs ordered reached
  have order := inOrder_of_reachable ordered reached
  have ascending : Ascending (r.1, fun t => (r.2 t).1) := by
    intro t i waits
    have here := order t
    unfold InOrder at here
    rw [locking_of_waits waits] at here
    exact here.1
  -- a thread outside of any call acts if it has calls left
  have outside_acts : ∀ u, (r.2 u).1.point = .outside → (r.2 u).2 ≠ [] →
      ∃ r', (programs requests).step r r' := by
    intro u outside more
    obtain ⟨g, next, act⟩ : ∃ g next, Act u r.1 (r.2 u) g next := by
      generalize r.2 u = p at outside more
      obtain ⟨⟨point, held⟩, rest⟩ := p
      obtain rfl : point = .outside := outside
      cases rest with
      | nil => exact absurd rfl more
      | cons request rest =>
          cases request with
          | lock index => exact ⟨_, _, .lock⟩
          | unlock index => exact ⟨_, _, .unlock⟩
          | size => exact ⟨_, _, .size⟩
    exact ⟨_, u, g, next, act, rfl⟩
  obtain ⟨t, unfinished⟩ := not_forall.mp unfinished
  by_cases inside : ∃ u, (r.2 u).1.point ≠ .outside
  · cases inside_steps (inv_reachable locker) (exists_free locker) ascending inside with
    | inl steps =>
        obtain ⟨u, away, g, next, move⟩ := steps
        exact ⟨_, u, g, (next, (r.2 u).2), .inside away move, rfl⟩
    | inr holds =>
        obtain ⟨u, outside, i, held⟩ := holds
        apply outside_acts u outside
        intro nothing
        have here := order u
        unfold InOrder at here
        rw [outside, nothing] at here
        have none : (r.2 u).1.held = ∅ := here
        rw [none] at held
        cases held
  · have outside : (r.2 t).1.point = .outside := by
      by_contra away
      exact inside ⟨t, away⟩
    exact outside_acts t outside fun nothing => unfinished ⟨outside, nothing⟩

/-- Threads that ask for their indexes in ascending order all come to the end of their calls,
    in whatever order they act. -/
theorem ordered_programs_end [Fintype τ] [Infinite A] (ordered : ∀ t, Ordered ∅ (requests t)) :
    Ends (@programs τ ι A _ _ _ requests) (fun r => ∑ t, actsLeft (r.2 t))
      fun r => ∀ t, Finished (r.2 t) :=
  .of_rank (fun _ _ _ => threads_falls (fun _ _ _ _ _ act => act.actsLeft_lt) _ _)
    fun _ reached unfinished => ordered_acts ordered reached unfinished

/-- Two threads that both hold indexes 1 and 2 at a time. -/
theorem ordered_programs_end_two_threads :
    Ends (@programs (Fin 2) Nat Nat _ _ _ fun _ => [.lock 1, .lock 2, .unlock 1, .unlock 2])
      (fun r => ∑ t, actsLeft (r.2 t)) fun r => ∀ t, Finished (r.2 t) :=
  ordered_programs_end fun _ => by
    simp only [Ordered]
    decide

end Order

end KMeans.IndexLocker
