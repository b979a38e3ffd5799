import Mathlib.Data.Set.Finite.Lattice
import Mathlib.Data.Nat.ModEq
import KMeans.Threadsafe.ListCells

/-! # The counter of `blocking::list<T>`

`m_size` has 32 bits, and `empty` looks at nothing else. Each operation changes it before the
statement that may throw, so a call that exits with an exception leaves it wrong. Nothing else
of the list depends on it.
-/

namespace KMeans

open Memory Transition

variable {A α : Type} [DecidableEq A]

/-! ## Long lists -/

section Long

variable {s : ListState A α} {objects : List (A × ListCell A α)}

/-- How many values are in the list, by the calls that were made. -/
def ListState.stored (s : ListState A α) : Nat := s.pushed.length - s.popped.length

/-- `empty` returns `true` exactly when a `pop_front` right after it returns `false`. -/
def Agree (s : ListState A α) : Prop :=
  s.list.empty = true ↔ ∃ list memory, s.list.pop_front s.memory = some (none, list, memory)

omit [DecidableEq A] in
theorem Queued.stored (queued : Queued s objects) : s.stored = objects.length := by
  have order := congrArg List.length queued.2
  rw [List.length_append, cellValues, List.length_map] at order
  unfold ListState.stored
  omega

theorem Queued.pop_front_false (queued : Queued s objects) :
    (∃ list memory, s.list.pop_front s.memory = some (none, list, memory)) ↔
      objects.length = 0 := by
  obtain ⟨result, list, memory, run, none⟩ := queued.calls.pop_front
  rw [List.length_eq_zero_iff, ← none]
  constructor
  · intro popped
    obtain ⟨list', memory', run'⟩ := popped
    rw [run] at run'
    cases run'
    rfl
  · intro nothing
    subst nothing
    exact ⟨list, memory, run⟩

/-- `empty` looks at the counter, `pop_front` at the chain. -/
theorem Queued.agree (queued : Queued s objects) :
    Agree s ↔ (objects.length % 4294967296 = 0 → objects.length = 0) := by
  have empty : s.list.empty = true ↔ objects.length % 4294967296 = 0 := by
    unfold CellList.empty
    rw [queued.1.counted]
    simp
  unfold Agree
  rw [queued.pop_front_false, empty]
  constructor
  · intro same
    exact same.mp
  · intro only
    constructor
    · exact only
    · intro none
      rw [none]

/-- The counter and the front pointer agree but for lists whose length is a positive multiple of
    `2 ^ 32`. -/
theorem empty_agrees_iff (reached : Reachable (listCalls A α) s) :
    Agree s ↔ (2 ^ 32 ∣ s.stored → s.stored = 0) := by
  obtain ⟨objects, queued⟩ := queued_of_reachable reached
  rw [queued.agree, queued.stored, Nat.dvd_iff_mod_eq_zero]
  exact Iff.rfl

theorem empty_agrees_iff_one : ∃ s : ListState Nat Nat, s.pushed = [7] ∧ s.popped = [] ∧
    (Agree s ↔ (2 ^ 32 ∣ s.stored → s.stored = 0)) := by
  have start : Reachable (listCalls Nat Nat) ⟨.make, .make, [], []⟩ := .init rfl
  have first := start.step (@Call.push_back Nat Nat _ _ 7 0 _ _ rfl)
  exact ⟨_, rfl, rfl, empty_agrees_iff first⟩

omit [DecidableEq A] in
/-- There is always an address for another cell. -/
theorem Holds.room [Infinite A] {list : CellList A} {memory : Heap A (ListCell A α)}
    (holds : Holds list memory objects) : ∃ cell, memory.object cell = none := by
  obtain ⟨cell, new⟩ := (objects.map Prod.fst).finite_toSet.exists_notMem
  exact ⟨cell, not_not.mp (mt (holds.live cell) new)⟩

theorem exists_pushes [Infinite A] (value : α) (n : Nat) : ∃ s : ListState A α,
    Reachable (listCalls A α) s ∧ s.pushed = List.replicate n value ∧ s.popped = [] := by
  induction n with
  | zero => exact ⟨_, .init rfl, rfl, rfl⟩
  | succ n ih =>
      obtain ⟨s, reached, pushed, popped⟩ := ih
      obtain ⟨objects, holds, _⟩ := queued_of_reachable reached
      obtain ⟨cell, free⟩ := holds.room
      obtain ⟨list, memory, _, run, _⟩ := holds.push_back free value
      exact ⟨_, reached.step (.push_back run), by rw [pushed, List.replicate_succ'], popped⟩

/-- After `2 ^ 32` pushes `empty` says that there is nothing, and `pop_front` takes a value. -/
theorem wrapped_counter_disagrees : ∃ s : ListState Nat Nat, Reachable (listCalls Nat Nat) s ∧
    s.pushed = List.replicate (2 ^ 32) 0 ∧ s.popped = [] ∧ ¬ Agree s := by
  obtain ⟨s, reached, pushed, popped⟩ :=
    (exists_pushes 0 (2 ^ 32) : ∃ s : ListState Nat Nat, _)
  obtain ⟨objects, queued⟩ := queued_of_reachable reached
  have length : objects.length = 4294967296 := by
    rw [← queued.stored, ListState.stored, pushed, popped, List.length_replicate]
    rfl
  refine ⟨s, reached, pushed, popped, ?_⟩
  rw [queued.agree, length]
  decide

end Long

/-! ## Calls that exit with an exception -/

namespace CellList

/-- The same list with another value of the counter. -/
def recount (self : CellList A) (n : Nat) : CellList A := { self with m_size := n }

omit [DecidableEq A]

@[simp] theorem m_front_recount (self : CellList A) (n : Nat) :
    (self.recount n).m_front = self.m_front := rfl

@[simp] theorem m_back_recount (self : CellList A) (n : Nat) :
    (self.recount n).m_back = self.m_back := rfl

@[simp] theorem m_size_recount (self : CellList A) (n : Nat) : (self.recount n).m_size = n := rfl

@[simp] theorem recount_m_size (self : CellList A) : self.recount self.m_size = self := rfl

/-- What `push_back` leaves when `new listCell` throws, because there is no memory or because
    the copy of the value throws: the counter has been raised. -/
def push_back_throws (self : CellList A) : CellList A :=
  self.recount ((self.m_size + 1) % 4294967296)

/-- What `pop_front` leaves when the assignment of `m_front->m_val` to `_result` throws, if it
    gets there: the counter has been lowered. -/
def pop_front_throws (self : CellList A) (memory : Heap A (ListCell A α)) : Option (CellList A) := do
  let front ← self.m_front
  let _ ← memory.load front
  some (self.recount ((self.m_size + 4294967295) % 4294967296))

end CellList

theorem push_back_recount (list : CellList A) (memory : Heap A (ListCell A α)) (other : α) (cell : A)
    (n : Nat) : (list.recount n).push_back memory other cell =
      (list.push_back memory other cell).map fun r => (r.1.recount ((n + 1) % 4294967296), r.2) := by
  unfold CellList.push_back
  simp only [CellList.m_front_recount, CellList.m_back_recount, CellList.m_size_recount,
    Option.bind_eq_bind]
  cases memory.new cell ⟨none, other⟩ with
  | none => rfl
  | some placed =>
      cases list.m_front with
      | none => rfl
      | some front =>
          cases list.m_back with
          | none => rfl
          | some back =>
              simp only [Option.bind_some]
              cases placed.load back with
              | none => rfl
              | some last =>
                  simp only [Option.bind_some]
                  cases placed.store back { last with m_next := some cell } with
                  | none => rfl
                  | some linked => rfl

theorem pop_front_recount (list : CellList A) (memory : Heap A (ListCell A α)) (n : Nat) :
    (list.recount n).pop_front memory = (list.pop_front memory).map fun r =>
      (r.1, r.2.1.recount (if r.1.isSome then (n + 4294967295) % 4294967296 else n), r.2.2) := by
  obtain ⟨m_front, m_back, m_size⟩ := list
  change CellList.pop_front ⟨m_front, m_back, n⟩ memory = _
  unfold CellList.pop_front
  simp only [Option.bind_eq_bind]
  cases m_front with
  | none => rfl
  | some front =>
      simp only
      cases memory.load front with
      | none => rfl
      | some cell =>
          simp only [Option.bind_some]
          rcases Decidable.em (some front = m_back) with last | more
          · simp only [if_pos last]
            cases memory.delete front with
            | none => rfl
            | some freed => simp [CellList.recount]
          · simp only [if_neg more]
            cases memory.delete front with
            | none => rfl
            | some freed => simp [CellList.recount]

/-- A list with its memory, and the calls made so far: the values of those that returned, the
    numbers of those that exited with an exception. -/
structure FaultyState (A α : Type) extends ListState A α where
  failedPushes : Nat
  failedPops : Nat

/-- A call that exits with an exception. -/
inductive Fails (s : FaultyState A α) : FaultyState A α → Prop
  | push_back : Fails s
      ⟨⟨s.list.push_back_throws, s.memory, s.pushed, s.popped⟩, s.failedPushes + 1, s.failedPops⟩
  | pop_front {list} : s.list.pop_front_throws s.memory = some list → Fails s
      ⟨⟨list, s.memory, s.pushed, s.popped⟩, s.failedPushes, s.failedPops + 1⟩

inductive FaultyCall (s : FaultyState A α) : FaultyState A α → Prop
  | returns {t} : Call s.toListState t → FaultyCall s ⟨t, s.failedPushes, s.failedPops⟩
  | fails {t} : Fails s t → FaultyCall s t

def faultyCalls (A α : Type) [DecidableEq A] : System (FaultyState A α) where
  init s := s = ⟨⟨CellList.make, Heap.make, [], []⟩, 0, 0⟩
  step := FaultyCall

section Failures

/-- The state with another value of the counter. -/
def ListState.recount (s : ListState A α) (n : Nat) : ListState A α :=
  ⟨s.list.recount n, s.memory, s.pushed, s.popped⟩

omit [DecidableEq A] in
theorem CellList.m_size_of_recount {list : CellList A} {n : Nat} (same : list = list.recount n) :
    list.m_size = n := congrArg m_size same

/-- A call that returns adds to the counter what it would add to any other value of it. -/
theorem Call.recount {s t : ListState A α} (call : Call s t) (small : s.list.m_size < 4294967296) :
    ∃ d, t.list.m_size = (s.list.m_size + d) % 4294967296 ∧
      ∀ n < 4294967296, Call (s.recount n) (t.recount ((n + d) % 4294967296)) := by
  cases call with
  | @push_back other cell list memory run =>
      have moved : ∀ n, (s.list.recount n).push_back s.memory other cell =
          some (list.recount ((n + 1) % 4294967296), memory) := fun n => by
        rw [push_back_recount, run, Option.map_some]
      refine ⟨1, ?_, fun n _ => .push_back (moved n)⟩
      have same := moved s.list.m_size
      rw [CellList.recount_m_size, run, Option.some.injEq, Prod.mk.injEq] at same
      exact CellList.m_size_of_recount same.1
  | @pop_front value list memory run =>
      have moved : ∀ n, (s.list.recount n).pop_front s.memory =
          some (some value, list.recount ((n + 4294967295) % 4294967296), memory) := fun n => by
        rw [pop_front_recount, run, Option.map_some, Option.isSome_some, if_pos rfl]
      refine ⟨4294967295, ?_, fun n _ => .pop_front (moved n)⟩
      have same := moved s.list.m_size
      rw [CellList.recount_m_size, run, Option.some.injEq, Prod.mk.injEq, Prod.mk.injEq] at same
      exact CellList.m_size_of_recount same.2.1
  | @pop_front_false list memory run =>
      have moved : ∀ n, (s.list.recount n).pop_front s.memory =
          some (none, list.recount n, memory) := fun n => by
        rw [pop_front_recount, run, Option.map_some, Option.isSome_none, if_neg Bool.false_ne_true]
      refine ⟨0, ?_, fun n lt => ?_⟩
      · have same := moved s.list.m_size
        rw [CellList.recount_m_size, run, Option.some.injEq, Prod.mk.injEq, Prod.mk.injEq] at same
        rw [Nat.add_zero, Nat.mod_eq_of_lt small]
        exact CellList.m_size_of_recount same.2.1
      · rw [Nat.add_zero, Nat.mod_eq_of_lt lt]
        exact .pop_front_false (moved n)
  | look =>
      refine ⟨0, by rw [Nat.add_zero, Nat.mod_eq_of_lt small], fun n lt => ?_⟩
      rw [Nat.add_zero, Nat.mod_eq_of_lt lt]
      exact .look

variable {s t : FaultyState A α} {objects : List (A × ListCell A α)}

/-- The list is what the calls that returned made of it, but for its counter, which also counts
    those that did not. -/
structure Miscounted (s : FaultyState A α) (objects : List (A × ListCell A α)) : Prop where
  queued : Queued (s.toListState.recount (objects.length % 4294967296)) objects
  small : s.list.m_size < 4294967296
  counted : (s.list.m_size + s.failedPops) % 4294967296 =
    (objects.length + s.failedPushes) % 4294967296

theorem Miscounted.returns (miscounted : Miscounted s objects) {t : ListState A α}
    (call : Call s.toListState t) :
    ∃ left, Miscounted ⟨t, s.failedPushes, s.failedPops⟩ left := by
  obtain ⟨queued, small, counted⟩ := miscounted
  obtain ⟨d, changed, moved⟩ := call.recount small
  obtain ⟨left, queued'⟩ := queued.call (moved _ (Nat.mod_lt _ (by omega)))
  have length : (objects.length % 4294967296 + d) % 4294967296 = left.length % 4294967296 :=
    queued'.1.counted
  rw [length] at queued'
  refine ⟨left, queued', ?_, ?_⟩
  · change t.list.m_size < 4294967296
    rw [changed]
    exact Nat.mod_lt _ (by omega)
  · change (t.list.m_size + s.failedPops) % 4294967296 =
      (left.length + s.failedPushes) % 4294967296
    rw [changed]
    omega

omit [DecidableEq A] in
/-- A call that exits with an exception changes the counter, and only that. -/
theorem Fails.changes (fails : Fails s t) (_ : s.list.m_size < 4294967296) :
    ∃ n < 4294967296, t.toListState = s.toListState.recount n ∧ n ≠ s.list.m_size ∧
      (n + t.failedPops + s.failedPushes) % 4294967296 =
        (s.list.m_size + s.failedPops + t.failedPushes) % 4294967296 := by
  cases fails with
  | push_back =>
      refine ⟨(s.list.m_size + 1) % 4294967296, by omega, rfl, by omega, ?_⟩
      simp only
      omega
  | pop_front run =>
      unfold CellList.pop_front_throws at run
      simp only [Option.bind_eq_bind, Option.bind_eq_some_iff, Option.some.injEq] at run
      obtain ⟨_, _, _, _, rfl⟩ := run
      refine ⟨(s.list.m_size + 4294967295) % 4294967296, by omega, rfl, by omega, ?_⟩
      simp only
      omega

omit [DecidableEq A] in
theorem Miscounted.fails (miscounted : Miscounted s objects) (fails : Fails s t) :
    Miscounted t objects := by
  obtain ⟨queued, small, counted⟩ := miscounted
  obtain ⟨n, small', same, _, shifted⟩ := fails.changes small
  have m_size : t.list.m_size = n := by rw [same]; rfl
  refine ⟨?_, by rwa [m_size], ?_⟩
  · rw [same]
    exact queued
  · rw [m_size]
    omega

theorem miscounted_of_reachable (reached : Reachable (faultyCalls A α) s) :
    ∃ objects, Miscounted s objects := by
  apply Reachable.invariant _ _ reached
  · intro s start
    subst start
    exact ⟨[], ⟨holds_make, rfl⟩, Nat.succ_pos _, rfl⟩
  · intro s t holds call
    obtain ⟨objects, miscounted⟩ := holds
    cases call with
    | returns call => exact miscounted.returns call
    | fails fails => exact ⟨objects, miscounted.fails fails⟩

/-- A call that exits with an exception keeps the pointers and the cells and always leaves another
    counter. So the counter is right when as many calls of either kind have failed, modulo
    `2 ^ 32`, and at no other time. -/
theorem failed_calls_miscount (reached : Reachable (faultyCalls A α) s) :
    (∀ t, Fails s t → t.list.m_front = s.list.m_front ∧ t.list.m_back = s.list.m_back ∧
      t.memory = s.memory ∧ t.list.m_size ≠ s.list.m_size) ∧
    ∃ objects, Chain s.memory ListCell.m_next s.list.m_front objects none ∧
      s.popped ++ cellValues objects = s.pushed ∧
      (s.list.m_size = objects.length % 2 ^ 32 ↔ s.failedPushes ≡ s.failedPops [MOD 2 ^ 32]) := by
  obtain ⟨objects, queued, small, counted⟩ := miscounted_of_reachable reached
  refine ⟨fun t fails => ?_, objects, queued.1.chain, queued.2, ?_⟩
  · obtain ⟨n, _, same, other, _⟩ := fails.changes small
    rw [same]
    exact ⟨rfl, rfl, rfl, other⟩
  · unfold Nat.ModEq
    omega

/-- The first `push_back` finds no memory: the list is empty and its counter is not. -/
theorem failed_push_miscounts : ∃ s t : FaultyState Nat Nat,
    Reachable (faultyCalls Nat Nat) s ∧ Fails s t ∧ Reachable (faultyCalls Nat Nat) t ∧
    s.list = ⟨none, none, 0⟩ ∧ t.list = ⟨none, none, 1⟩ ∧ t.list.empty = false ∧
    t.list.pop_front t.memory = some (none, t.list, t.memory) := by
  have start : Reachable (faultyCalls Nat Nat) ⟨⟨.make, .make, [], []⟩, 0, 0⟩ := .init rfl
  exact ⟨_, _, start, .push_back, start.step (.fails .push_back), rfl, rfl, rfl, rfl⟩

/-- The second `push_back` throws, and then the assignment in `pop_front`. -/
theorem failed_calls_miscount_twice : ∃ s : FaultyState Nat Nat,
    s.pushed = [7] ∧ s.failedPushes = 1 ∧ s.failedPops = 1 ∧
    (∀ t, Fails s t → t.list.m_front = s.list.m_front ∧ t.list.m_back = s.list.m_back ∧
      t.memory = s.memory ∧ t.list.m_size ≠ s.list.m_size) ∧
    ∃ objects, Chain s.memory ListCell.m_next s.list.m_front objects none ∧
      s.popped ++ cellValues objects = s.pushed ∧
      (s.list.m_size = objects.length % 2 ^ 32 ↔ s.failedPushes ≡ s.failedPops [MOD 2 ^ 32]) := by
  have start : Reachable (faultyCalls Nat Nat) ⟨⟨.make, .make, [], []⟩, 0, 0⟩ := .init rfl
  have first := start.step (.returns (@Call.push_back Nat Nat _ _ 7 0 _ _ rfl))
  have second := first.step (.fails .push_back)
  have third := second.step (.fails (.pop_front rfl))
  exact ⟨_, rfl, rfl, rfl, failed_calls_miscount third⟩

end Failures

end KMeans
