import KMeans.General.Memory
import KMeans.General.Transition
import KMeans.Threadsafe.BlockingList

/-! # The cells of `blocking::list<T>`

The list with its pointers: cells allocated by `new`, linked by `m_next`, and freed by
`delete`. What `push_back` and `pop_front` do to the pointers is what `BlockingList`
says of the values. `new` may return any free address.
-/

namespace KMeans

open Memory Transition

variable {A α : Type}

/-- `struct listCell`. -/
structure ListCell (A α : Type) where
  m_next : Option A
  m_val : α
  deriving DecidableEq

/-- The fields of `class list<T>` but for the mutex. -/
structure CellList (A : Type) where
  m_front : Option A
  m_back : Option A
  m_size : Nat

namespace CellList

/-- `list()`. -/
def make : CellList A := ⟨none, none, 0⟩

/-- `empty`. -/
def empty (self : CellList A) : Bool := !decide (self.m_size > 0)

/-- `size`. -/
def size (self : CellList A) : Nat := self.m_size

variable [DecidableEq A]

/-- `push_back`, when `new` returns the address `cell`. -/
def push_back (self : CellList A) (memory : Heap A (ListCell A α)) (other : α) (cell : A) :
    Option (CellList A × Heap A (ListCell A α)) := do
  -- `m_size++`
  let m_size := (self.m_size + 1) % 4294967296
  let memory ← memory.new cell ⟨none, other⟩
  match self.m_front with
  | none => some (⟨some cell, some cell, m_size⟩, memory)
  | some front =>
      -- `m_back->m_next = cell`
      let back ← self.m_back
      let last ← memory.load back
      let memory ← memory.store back { last with m_next := some cell }
      some (⟨some front, some cell, m_size⟩, memory)

/-- `pop_front`: the value that was written to the argument, `none` for the result `false`. -/
def pop_front (self : CellList A) (memory : Heap A (ListCell A α)) :
    Option (Option α × CellList A × Heap A (ListCell A α)) :=
  match self.m_front with
  | none => some (none, self, memory)
  | some front => do
      -- `m_size--`
      let m_size := (self.m_size + 4294967295) % 4294967296
      let cell ← memory.load front
      if self.m_front = self.m_back then
        let memory ← memory.delete front
        some (some cell.m_val, ⟨none, none, m_size⟩, memory)
      else
        let memory ← memory.delete front
        some (some cell.m_val, ⟨cell.m_next, self.m_back, m_size⟩, memory)

/-- `~list()`: `pop_front` until it returns `false`. The values are those `tmpVal` took. -/
def destroy : Nat → CellList A → Heap A (ListCell A α) →
    Option (List α × CellList A × Heap A (ListCell A α))
  | 0, _, _ => none
  | fuel + 1, self, memory => do
      let (tmpVal, self, memory) ← self.pop_front memory
      match tmpVal with
      | none => some ([], self, memory)
      | some value =>
          let (values, self, memory) ← destroy fuel self memory
          some (value :: values, self, memory)

end CellList

/-- The values in cells. -/
def cellValues (objects : List (A × ListCell A α)) : List α := objects.map fun o => o.2.m_val

/-- The list holds the cells `objects`, front first, and the memory nothing else. -/
structure Holds (list : CellList A) (memory : Heap A (ListCell A α))
    (objects : List (A × ListCell A α)) : Prop where
  sound : Sound memory
  chain : Chain memory ListCell.m_next list.m_front objects none
  distinct : (objects.map Prod.fst).Nodup
  live : ∀ a, memory.object a ≠ none → a ∈ objects.map Prod.fst
  back : list.m_back = (objects.map Prod.fst).getLast?
  counted : list.m_size = objects.length % 4294967296

theorem holds_make : Holds CellList.make (Heap.make : Heap A (ListCell A α)) [] where
  sound := sound_make
  chain := .nil
  distinct := List.nodup_nil
  live := fun _ there => absurd rfl there
  back := rfl
  counted := rfl

section Operations

variable {list : CellList A} {memory : Heap A (ListCell A α)} {objects : List (A × ListCell A α)}

theorem Holds.object (holds : Holds list memory objects) {a : A} {c : ListCell A α}
    (member : (a, c) ∈ objects) : ∃ number, memory.object a = some (number, c) := by
  have loaded : memory.load a = some c := holds.chain.load member
  unfold Heap.load at loaded
  cases there : memory.object a with
  | none => simp [there] at loaded
  | some entry =>
      simp only [there, Option.map_some, Option.some.injEq] at loaded
      exact ⟨entry.1, by rw [← loaded]⟩

/-- A cell at a free address is none of the list's. -/
theorem Holds.fresh (holds : Holds list memory objects) {a : A} (free : memory.object a = none) :
    a ∉ objects.map Prod.fst := by
  intro member
  obtain ⟨⟨b, c⟩, there, same⟩ := List.mem_map.mp member
  obtain ⟨number, object⟩ := holds.object there
  have same : b = a := same
  rw [same, free] at object
  cases object

/-- The only cell has `m_front == m_back`, and no other one. -/
theorem front_eq_back_iff {a : A} {c : ListCell A α} {rest : List (A × ListCell A α)}
    (holds : Holds list memory ((a, c) :: rest)) : list.m_front = list.m_back ↔ rest = [] := by
  have distinct := holds.distinct
  rw [holds.chain.uncons.1, holds.back]
  cases List.eq_nil_or_concat' rest with
  | inl none => simp [none]
  | inr some =>
      obtain ⟨front, ⟨b, last⟩, rfl⟩ := some
      have other : a ≠ b := by
        intro same
        simp [same] at distinct
      simp [List.getLast?_cons, other]

variable [DecidableEq A]

theorem push_back_empty (holds : Holds list memory []) {cell : A}
    (free : memory.object cell = none) (other : α) :
    ∃ list' memory', list.push_back memory other cell = some (list', memory') ∧
      Holds list' memory' [(cell, ⟨none, other⟩)] := by
  obtain ⟨memory', placed, sound, _, object⟩ := holds.sound.new free (⟨none, other⟩ : ListCell A α)
  have front : list.m_front = none := holds.chain.eq_of_nil
  have counted : list.m_size = 0 := holds.counted
  refine ⟨⟨some cell, some cell, 1⟩, memory', ?_, sound, ?_, List.nodup_singleton cell, ?_, rfl, rfl⟩
  · unfold CellList.push_back
    simp only [placed, front, counted, Option.bind_eq_bind, Option.bind_some]
  · apply Chain.cons _ .nil
    simp [Heap.load, object]
  · intro a there
    by_cases same : a = cell
    · simp [same]
    · rw [object, Function.update_of_ne same] at there
      exact absurd (holds.live a there) List.not_mem_nil

theorem push_back_append {front : List (A × ListCell A α)} {b : A} {last : ListCell A α}
    (holds : Holds list memory (front ++ [(b, last)])) {cell : A}
    (free : memory.object cell = none) (other : α) :
    ∃ list' memory', list.push_back memory other cell = some (list', memory') ∧
      Holds list' memory'
        (front ++ [(b, { last with m_next := some cell }), (cell, ⟨none, other⟩)]) := by
  have fresh : cell ∉ front.map Prod.fst ++ [b] := by simpa using holds.fresh free
  have distinct : (front.map Prod.fst ++ [b]).Nodup := by simpa using holds.distinct
  have back : list.m_back = some b := by simp [holds.back]
  have counted := holds.counted
  obtain ⟨number, there⟩ := holds.object (a := b) (c := last) (by simp)
  obtain ⟨p, start⟩ : ∃ p, list.m_front = some p := by
    cases front with
    | nil => exact ⟨_, holds.chain.uncons.1⟩
    | cons entry front => exact ⟨_, holds.chain.uncons.1⟩
  obtain ⟨memory₁, placed, sound₁, _, object₁⟩ :=
    holds.sound.new free (⟨none, other⟩ : ListCell A α)
  have apart : b ≠ cell := fun same => fresh (by simp [same])
  have kept : memory₁.object b = some (number, last) := by
    rw [object₁, Function.update_of_ne apart]
    exact there
  obtain ⟨memory₂, linked, sound₂, _, object₂⟩ := sound₁.store kept { last with m_next := some cell }
  have elsewhere : ∀ a, a ≠ cell → a ≠ b → memory₂.object a = memory.object a := by
    intro a other_cell other_back
    rw [object₂, Function.update_of_ne other_back, object₁, Function.update_of_ne other_cell]
  refine ⟨⟨some p, some cell, (list.m_size + 1) % 4294967296⟩, memory₂, ?_, sound₂, ?_, ?_, ?_, ?_, ?_⟩
  · unfold CellList.push_back
    simp only [placed, start, back, Option.bind_eq_bind, Option.bind_some]
    simp only [Heap.load, kept, Option.map_some, Option.bind_some, linked]
  · have chain := holds.chain
    rw [start] at chain
    apply chain.link
    · intro a member
      unfold Heap.load
      rw [elsewhere a]
      · intro same
        exact fresh (by simp [← same, member])
      · intro same
        exact (List.nodup_append.mp distinct).2.2 a member b (List.mem_singleton_self b) same
    · simp [Heap.load, object₂]
    · rfl
    · simp [Heap.load, object₂, object₁, apart.symm]
  · have grown := List.nodup_append.mpr ⟨distinct, List.nodup_singleton cell, fun a member c new =>
      fun same => fresh (List.mem_singleton.mp new ▸ same ▸ member)⟩
    simpa using grown
  · intro a here
    by_cases new : a = cell
    · simp [new]
    · by_cases last : a = b
      · simp [last]
      · rw [elsewhere a new last] at here
        have member := holds.live a here
        simp only [List.map_append, List.map_cons, List.map_nil, List.mem_append] at member ⊢
        cases member with
        | inl member => exact Or.inl member
        | inr same => exact absurd (List.mem_singleton.mp same) last
  · simp
  · simp only [List.length_append, List.length_cons, List.length_nil] at counted ⊢
    omega

theorem Holds.push_back (holds : Holds list memory objects) {cell : A}
    (free : memory.object cell = none) (other : α) :
    ∃ list' memory' objects', list.push_back memory other cell = some (list', memory') ∧
      Holds list' memory' objects' ∧ cellValues objects' = cellValues objects ++ [other] := by
  cases List.eq_nil_or_concat' objects with
  | inl none =>
      subst none
      obtain ⟨list', memory', run, holds'⟩ := push_back_empty holds free other
      exact ⟨list', memory', _, run, holds', rfl⟩
  | inr some =>
      obtain ⟨front, ⟨b, last⟩, rfl⟩ := some
      obtain ⟨list', memory', run, holds'⟩ := push_back_append holds free other
      exact ⟨list', memory', _, run, holds', by simp [cellValues]⟩

theorem pop_front_empty (holds : Holds list memory []) :
    list.pop_front memory = some (none, list, memory) := by
  have front : list.m_front = none := holds.chain.eq_of_nil
  simp only [CellList.pop_front, front]

theorem Holds.pop_front {a : A} {c : ListCell A α}
    (holds : Holds list memory ((a, c) :: objects)) :
    ∃ list' memory', list.pop_front memory = some (some c.m_val, list', memory') ∧
      Holds list' memory' objects ∧ memory'.allocated = memory.allocated := by
  obtain ⟨start, loaded, chain⟩ := holds.chain.uncons
  obtain ⟨number, there⟩ := holds.object List.mem_cons_self
  obtain ⟨memory', freed, sound, allocated, object⟩ := holds.sound.delete there
  have alone := front_eq_back_iff holds
  have counted : (list.m_size + 4294967295) % 4294967296 = objects.length % 4294967296 := by
    have before := holds.counted
    rw [List.length_cons] at before
    omega
  have distinct := holds.distinct
  rw [List.map_cons, List.nodup_cons] at distinct
  have left : Chain memory' ListCell.m_next c.m_next objects none := by
    apply chain.frame
    intro b member
    have other : b ≠ a := fun same => distinct.1 (same ▸ member)
    unfold Heap.load
    rw [object, Function.update_of_ne other]
  have live : ∀ b, memory'.object b ≠ none → b ∈ objects.map Prod.fst := by
    intro b here
    have other : b ≠ a := by
      intro same
      simp [object, same] at here
    rw [object, Function.update_of_ne other] at here
    exact List.mem_of_ne_of_mem other (holds.live b here)
  have run : list.pop_front memory = if list.m_front = list.m_back
      then some (some c.m_val, ⟨none, none, (list.m_size + 4294967295) % 4294967296⟩, memory')
      else some (some c.m_val, ⟨c.m_next, list.m_back, (list.m_size + 4294967295) % 4294967296⟩,
        memory') := by
    unfold CellList.pop_front
    simp only [start, loaded, freed, Option.bind_eq_bind, Option.bind_some]
  cases objects with
  | nil =>
      rw [run, if_pos (alone.mpr rfl)]
      exact ⟨_, memory', rfl, ⟨sound, .nil, List.nodup_nil, live, rfl, counted⟩, allocated⟩
  | cons second rest =>
      rw [run, if_neg (mt alone.mp (List.cons_ne_nil second rest))]
      refine ⟨_, memory', rfl, ⟨sound, left, distinct.2, live, ?_, counted⟩, allocated⟩
      rw [holds.back]
      simp [List.getLast?_cons]

/-- The destructor's loop takes one turn for each cell and one to find the list empty. -/
theorem Holds.destroy (holds : Holds list memory objects) {fuel : Nat}
    (enough : objects.length < fuel) :
    ∃ list' memory', list.destroy fuel memory = some (cellValues objects, list', memory') ∧
      Holds list' memory' [] ∧ memory'.allocated = memory.allocated := by
  induction objects generalizing list memory fuel with
  | nil =>
      cases fuel with
      | zero => exact absurd enough (Nat.lt_irrefl _)
      | succ fuel =>
          refine ⟨list, memory, ?_, holds, rfl⟩
          simp only [CellList.destroy, pop_front_empty holds, Option.bind_eq_bind, Option.bind_some]
          rfl
  | cons cell objects ih =>
      cases fuel with
      | zero => exact absurd enough (Nat.not_lt_zero _)
      | succ fuel =>
          obtain ⟨list₁, memory₁, popped, holds₁, allocated₁⟩ := holds.pop_front
          obtain ⟨list₂, memory₂, rest, holds₂, allocated₂⟩ := ih holds₁ (Nat.lt_of_succ_lt_succ enough)
          refine ⟨list₂, memory₂, ?_, holds₂, allocated₂.trans allocated₁⟩
          simp only [CellList.destroy, popped, rest, Option.bind_eq_bind, Option.bind_some]
          rfl

end Operations

/-! ## The list as a sequence -/

/-- The pointers and the memory of a list with the given values. -/
def Represents (list : CellList A) (memory : Heap A (ListCell A α)) (whole : BlockingList α) : Prop :=
  ∃ objects, Holds list memory objects ∧ whole.cells = cellValues objects

section Refinement

variable {list : CellList A} {memory : Heap A (ListCell A α)} {whole : BlockingList α}

theorem represents_make : Represents CellList.make (Heap.make : Heap A (ListCell A α)) .make :=
  ⟨[], holds_make, rfl⟩

theorem Represents.size (same : Represents list memory whole) : list.size = whole.size := by
  obtain ⟨objects, holds, cells⟩ := same
  unfold CellList.size BlockingList.size
  rw [holds.counted, whole.counted, cells, cellValues, List.length_map]

theorem Represents.empty (same : Represents list memory whole) : list.empty = whole.empty := by
  have size : list.m_size = whole.m_size := same.size
  unfold CellList.empty BlockingList.empty
  rw [size]

variable [DecidableEq A]

theorem Represents.push_back (same : Represents list memory whole) {cell : A}
    (free : memory.object cell = none) (other : α) :
    ∃ list' memory', list.push_back memory other cell = some (list', memory') ∧
      Represents list' memory' (whole.push_back other) := by
  obtain ⟨objects, holds, cells⟩ := same
  obtain ⟨list', memory', objects', run, holds', values⟩ := holds.push_back free other
  refine ⟨list', memory', run, objects', holds', ?_⟩
  rw [BlockingList.cells_push_back, cells, values]

theorem Represents.pop_front (same : Represents list memory whole) :
    ∃ list' memory', list.pop_front memory =
        some (whole.pop_front.map Prod.fst, list', memory') ∧
      Represents list' memory' ((whole.pop_front.map Prod.snd).getD whole) := by
  obtain ⟨objects, holds, cells⟩ := same
  cases objects with
  | nil =>
      have none := BlockingList.pop_front_eq_none.mpr cells
      rw [none]
      exact ⟨list, memory, pop_front_empty holds, [], holds, cells⟩
  | cons cell objects =>
      obtain ⟨rest, popped, left⟩ := BlockingList.pop_front_of_cons cells
      obtain ⟨list', memory', run, holds', _⟩ := holds.pop_front
      rw [popped]
      exact ⟨list', memory', run, objects, holds', left⟩

end Refinement

/-! ## Any sequence of calls -/

/-- A list with its memory and the values pushed and popped so far. -/
structure ListState (A α : Type) where
  list : CellList A
  memory : Heap A (ListCell A α)
  pushed : List α
  popped : List α

/-- One call by some thread, which holds `m_mutex` from its start to its end. -/
inductive Call [DecidableEq A] (s : ListState A α) : ListState A α → Prop
  | push_back {other cell list memory} :
      s.list.push_back s.memory other cell = some (list, memory) →
      Call s ⟨list, memory, s.pushed ++ [other], s.popped⟩
  | pop_front {value list memory} :
      s.list.pop_front s.memory = some (some value, list, memory) →
      Call s ⟨list, memory, s.pushed, s.popped ++ [value]⟩
  | pop_front_false {list memory} :
      s.list.pop_front s.memory = some (none, list, memory) →
      Call s ⟨list, memory, s.pushed, s.popped⟩
  /-- `empty` or `size` -/
  | look : Call s s

def listCalls (A α : Type) [DecidableEq A] : System (ListState A α) where
  init s := s = ⟨CellList.make, Heap.make, [], []⟩
  step := Call

/-- The cells hold what was pushed and not popped. -/
def Queued (s : ListState A α) (objects : List (A × ListCell A α)) : Prop :=
  Holds s.list s.memory objects ∧ s.popped ++ cellValues objects = s.pushed

/-- What the list guarantees of its pointers and cells between two calls. -/
structure Fifo (s : ListState A α) (objects : List (A × ListCell A α)) : Prop where
  chain : Chain s.memory ListCell.m_next s.list.m_front objects none
  order : s.popped ++ cellValues objects = s.pushed
  ends : (s.list.m_front = none ∧ s.list.m_back = none) ∨
    ∃ a c, objects.getLast? = some (a, c) ∧ s.list.m_back = some a ∧ c.m_next = none
  counted : s.list.m_size = objects.length % 2 ^ 32
  once : s.memory.deleted.Nodup
  accounted : ∀ number < s.memory.allocated, Xor (number ∈ s.memory.deleted)
    (∃ a c, (a, c) ∈ objects ∧ s.memory.object a = some (number, c))

section Calls

variable {s t : ListState A α} {objects : List (A × ListCell A α)}

theorem Queued.fifo (queued : Queued s objects) : Fifo s objects where
  chain := queued.1.chain
  order := queued.2
  ends := by
    obtain ⟨holds, _⟩ := queued
    cases List.eq_nil_or_concat' objects with
    | inl none =>
        subst none
        exact Or.inl ⟨holds.chain.eq_of_nil, holds.back⟩
    | inr some =>
        obtain ⟨front, ⟨a, c⟩, rfl⟩ := some
        obtain ⟨q, _, last⟩ := holds.chain.split
        exact Or.inr ⟨a, c, by simp, by simp [holds.back], last.uncons.2.2.eq_of_nil⟩
  counted := queued.1.counted
  once := queued.1.sound.once
  accounted := by
    obtain ⟨⟨sound, chain, _, live, _, _⟩, _⟩ := queued
    intro number lt
    cases (sound.numbered number).mp lt with
    | inl gone =>
        refine Or.inl ⟨gone, ?_⟩
        intro stored
        obtain ⟨a, c, _, there⟩ := stored
        exact sound.gone a number c there gone
    | inr there =>
        obtain ⟨a, c, there⟩ := there
        refine Or.inr ⟨⟨a, c, ?_, there⟩, sound.gone a number c there⟩
        have member := live a (by simp [there])
        obtain ⟨⟨b, d⟩, entry, same⟩ := List.mem_map.mp member
        have loaded : s.memory.load b = some d := chain.load entry
        have same : b = a := same
        subst same
        simp only [Heap.load, there, Option.map_some, Option.some.injEq] at loaded
        exact loaded ▸ entry

variable [DecidableEq A]

/-- `new` returns free addresses only. -/
theorem free_of_push_back {list list' : CellList A} {memory memory' : Heap A (ListCell A α)}
    {other : α} {cell : A} (run : list.push_back memory other cell = some (list', memory')) :
    memory.object cell = none := by
  by_contra taken
  simp [CellList.push_back, Heap.new, taken] at run

theorem Queued.call (queued : Queued s objects) (call : Call s t) : ∃ left, Queued t left := by
  obtain ⟨holds, order⟩ := queued
  cases call with
  | push_back run =>
      obtain ⟨_, _, left, run', holds', values⟩ := holds.push_back (free_of_push_back run) _
      cases run.symm.trans run'
      exact ⟨left, holds', by rw [values, ← List.append_assoc, order]⟩
  | pop_front run =>
      cases objects with
      | nil => cases run.symm.trans (pop_front_empty holds)
      | cons cell objects =>
          obtain ⟨_, _, run', holds', _⟩ := holds.pop_front
          cases run.symm.trans run'
          exact ⟨objects, holds', by simpa [cellValues] using order⟩
  | pop_front_false run =>
      cases objects with
      | nil =>
          cases run.symm.trans (pop_front_empty holds)
          exact ⟨[], holds, order⟩
      | cons cell objects =>
          obtain ⟨_, _, run', _, _⟩ := holds.pop_front
          cases run.symm.trans run'
  | look => exact ⟨objects, holds, order⟩

theorem queued_of_reachable (reached : Reachable (listCalls A α) s) :
    ∃ objects, Queued s objects := by
  apply Reachable.invariant _ _ reached
  · intro s start
    subst start
    exact ⟨[], holds_make, rfl⟩
  · intro s t holds call
    obtain ⟨objects, queued⟩ := holds
    exact queued.call call

/-- No call is undefined, `pop_front` returns `false` for an empty list only, and the
    destructor leaves no cell. -/
structure CallsDefined (s : ListState A α) (objects : List (A × ListCell A α)) : Prop where
  push_back : ∀ other cell, s.memory.object cell = none →
    (s.list.push_back s.memory other cell).isSome
  pop_front : ∃ result list memory, s.list.pop_front s.memory = some (result, list, memory) ∧
    (result = none ↔ objects = [])
  destroy : ∀ fuel > objects.length, ∃ values list memory,
    s.list.destroy fuel s.memory = some (values, list, memory) ∧
    Fifo ⟨list, memory, s.pushed, s.popped ++ values⟩ [] ∧
    memory.deleted.Perm (List.range s.memory.allocated)

theorem Queued.calls (queued : Queued s objects) : CallsDefined s objects where
  push_back := by
    intro other cell free
    obtain ⟨_, _, _, run, _⟩ := queued.1.push_back free other
    rw [run]
    rfl
  pop_front := by
    obtain ⟨holds, _⟩ := queued
    cases objects with
    | nil => exact ⟨none, _, _, pop_front_empty holds, by simp⟩
    | cons cell objects =>
        obtain ⟨list, memory, run, _⟩ := holds.pop_front
        exact ⟨_, list, memory, run, by simp⟩
  destroy := by
    obtain ⟨holds, order⟩ := queued
    intro fuel enough
    obtain ⟨list, memory, run, empty, allocated⟩ := holds.destroy enough
    have queued : Queued ⟨list, memory, s.pushed, s.popped ++ cellValues objects⟩ [] :=
      ⟨empty, by rw [order]; exact List.append_nil _⟩
    refine ⟨_, list, memory, run, queued.fifo, ?_⟩
    apply (List.perm_ext_iff_of_nodup empty.sound.once List.nodup_range).mpr
    intro number
    rw [List.mem_range, ← allocated, empty.sound.numbered number]
    constructor
    · intro gone
      exact Or.inl gone
    · intro known
      cases known with
      | inl gone => exact gone
      | inr there =>
          obtain ⟨a, c, there⟩ := there
          exact absurd (empty.live a (by simp [there])) List.not_mem_nil

/-- After any calls by any threads the list is first in first out, its pointers are those of
    a chain, and every cell allocated is in the chain or was freed once. -/
theorem fifo_of_reachable (reached : Reachable (listCalls A α) s) :
    ∃ objects, Fifo s objects ∧ CallsDefined s objects := by
  obtain ⟨objects, queued⟩ := queued_of_reachable reached
  exact ⟨objects, queued.fifo, queued.calls⟩

/-- Two values pushed, one popped, and its address used again. -/
theorem fifo_of_reachable_refilled : ∃ s : ListState Nat Nat,
    s.pushed = [7, 8, 9] ∧ s.popped = [7] ∧ s.list = ⟨some 1, some 0, 2⟩ ∧
    ∃ objects, Fifo s objects ∧ CallsDefined s objects := by
  have start : Reachable (listCalls Nat Nat) ⟨.make, .make, [], []⟩ := .init rfl
  have first := start.step (@Call.push_back Nat Nat _ _ 7 0 _ _ rfl)
  have second := first.step (@Call.push_back Nat Nat _ _ 8 1 _ _ rfl)
  have popped := second.step (.pop_front rfl)
  have third := popped.step (@Call.push_back Nat Nat _ _ 9 0 _ _ rfl)
  exact ⟨_, rfl, rfl, rfl, fifo_of_reachable third⟩

end Calls

end KMeans
