import KMeans.General.Monitor
import KMeans.Threadsafe.ListCells

/-! # `blocking::list<T>` action by action

Every read and write of the fields and cells of the list, `new` and `delete` is an action
of its own, between the locking and the unlocking of `m_mutex`. For its callers, which
may be any threads, the list is `BlockingList`, whose operations are single actions.
-/

namespace KMeans

open Memory Transition Monitor

variable {A α : Type}

/-- A method of the list with its arguments. -/
inductive ListRequest (α : Type)
  | push_back (other : α)
  | pop_front
  | empty
  | size
  deriving DecidableEq

/-- What a method returns. -/
inductive ListReply (α : Type)
  | pushed
  /-- The value written to `_result`, `none` for the result `false`. -/
  | popped (result : Option α)
  | empty (result : Bool)
  | size (result : Nat)
  deriving DecidableEq

/-- What a thread in a method does next, while it has locked `m_mutex`. -/
inductive ListPoint (A α : Type)
  /-- `push_back`: `m_size++` -/
  | count (other : α)
  /-- `auto cell = new listCell(nullptr, _other)` -/
  | allocate (other : α)
  /-- `m_front == nullptr` -/
  | testFront (cell : A)
  /-- `m_back = cell`, of `m_front = m_back = cell` -/
  | firstBack (cell : A)
  /-- `m_front = m_back`, of the same -/
  | firstFront
  /-- `m_back->m_next = cell` -/
  | link (cell : A)
  /-- `m_back = cell` -/
  | moveBack (cell : A)
  /-- `pop_front`: `m_front == nullptr` -/
  | testEmpty
  /-- `m_size--` -/
  | uncount
  /-- `_result = m_front->m_val` -/
  | read
  /-- `m_front == m_back` -/
  | testLast (result : α)
  /-- `delete m_front` -/
  | deleteLast (result : α)
  /-- `m_back = nullptr`, of `m_front = m_back = nullptr` -/
  | clearBack (result : α)
  /-- `m_front = m_back`, of the same -/
  | clearFront (result : α)
  /-- `auto old_front = m_front` -/
  | keepFront (result : α)
  /-- `m_front = m_front->m_next` -/
  | moveFront (old_front : Option A) (result : α)
  /-- `delete old_front` -/
  | deleteFront (old_front : Option A) (result : α)
  /-- `empty`: `!(m_size > 0)` -/
  | readEmpty
  /-- `size`: `m_size` -/
  | readSize
  /-- The end of `lock`. -/
  | done (reply : ListReply α)

/-- The first action of a method. -/
def ListRequest.enter : ListRequest α → ListPoint A α
  | push_back other => .count other
  | pop_front => .testEmpty
  | empty => .readEmpty
  | size => .readSize

namespace ListPoint

/-- What the method returns at its end. -/
def result : ListPoint A α → Option (ListReply α)
  | done reply => some reply
  | _ => none

/-- The number of actions left, at most. -/
def rank : ListPoint A α → Nat
  | done _ => 0
  | firstFront | moveBack _ | clearFront _ | deleteFront .. | readEmpty | readSize => 1
  | firstBack _ | link _ | clearBack _ | moveFront .. => 2
  | testFront _ | deleteLast _ | keepFront _ => 3
  | allocate _ | testLast _ => 4
  | count _ | read => 5
  | uncount => 6
  | testEmpty => 7

variable [DecidableEq A]

/-- One action; `cell` is what `new` returns. To access or delete what is not there is undefined. -/
def step (cell : A) (self : CellList A) (memory : Heap A (ListCell A α)) :
    ListPoint A α → Option ((CellList A × Heap A (ListCell A α)) × ListPoint A α)
  | count other => some (({ self with m_size := (self.m_size + 1) % 4294967296 }, memory),
      .allocate other)
  | allocate other => do
      let memory ← memory.new cell ⟨none, other⟩
      some ((self, memory), .testFront cell)
  | testFront cell =>
      if self.m_front = none then some ((self, memory), .firstBack cell)
      else some ((self, memory), .link cell)
  | firstBack cell => some (({ self with m_back := some cell }, memory), .firstFront)
  | firstFront => some (({ self with m_front := self.m_back }, memory), .done .pushed)
  | link cell => do
      let back ← self.m_back
      let last ← memory.load back
      let memory ← memory.store back { last with m_next := some cell }
      some ((self, memory), .moveBack cell)
  | moveBack cell => some (({ self with m_back := some cell }, memory), .done .pushed)
  | testEmpty =>
      if self.m_front = none then some ((self, memory), .done (.popped none))
      else some ((self, memory), .uncount)
  | uncount => some (({ self with m_size := (self.m_size + 4294967295) % 4294967296 }, memory),
      .read)
  | read => do
      let front ← self.m_front
      let cell ← memory.load front
      some ((self, memory), .testLast cell.m_val)
  | testLast result =>
      if self.m_front = self.m_back then some ((self, memory), .deleteLast result)
      else some ((self, memory), .keepFront result)
  | deleteLast result => do
      let front ← self.m_front
      let memory ← memory.delete front
      some ((self, memory), .clearBack result)
  | clearBack result => some (({ self with m_back := none }, memory), .clearFront result)
  | clearFront result =>
      some (({ self with m_front := self.m_back }, memory), .done (.popped (some result)))
  | keepFront result => some ((self, memory), .moveFront self.m_front result)
  | moveFront old_front result => do
      let front ← self.m_front
      let cell ← memory.load front
      some (({ self with m_front := cell.m_next }, memory), .deleteFront old_front result)
  | deleteFront old_front result => do
      let old_front ← old_front
      let memory ← memory.delete old_front
      some ((self, memory), .done (.popped (some result)))
  | readEmpty => some ((self, memory), .done (.empty self.empty))
  | readSize => some ((self, memory), .done (.size self.size))
  | done _ => none

end ListPoint

namespace ListPoint

variable [DecidableEq A] {list : CellList A} {memory : Heap A (ListCell A α)}

theorem step_testFront {front : A} (pointed : list.m_front = some front) (cell free : A) :
    (testFront cell).step free list memory = some ((list, memory), .link cell) :=
  if_neg (by simp [pointed])

theorem step_testFront_none (empty : list.m_front = none) (cell free : A) :
    (testFront cell).step free list memory = some ((list, memory), .firstBack cell) :=
  if_pos empty

theorem step_testEmpty {front : A} (pointed : list.m_front = some front) (free : A) :
    testEmpty.step free list memory = some ((list, memory), .uncount) :=
  if_neg (by simp [pointed])

theorem step_testEmpty_none (empty : list.m_front = none) (free : A) :
    testEmpty.step free list memory = some ((list, memory), .done (.popped none)) :=
  if_pos empty

theorem step_uncount (free : A) : uncount.step free list memory = some
    (({ list with m_size := (list.m_size + 4294967295) % 4294967296 }, memory), .read) := by
  simp only [step]

theorem step_testLast (last : list.m_front = list.m_back) (v : α) (free : A) :
    (testLast v).step free list memory = some ((list, memory), .deleteLast v) :=
  if_pos last

theorem step_testLast_ne (more : list.m_front ≠ list.m_back) (v : α) (free : A) :
    (testLast v).step free list memory = some ((list, memory), .keepFront v) :=
  if_neg more

end ListPoint

open ListPoint

/-- `class list<T>`. -/
def blockingList (A α : Type) [DecidableEq A] :
    Object (CellList A × Heap A (ListCell A α)) (ListPoint A α) (ListRequest α) (ListReply α) where
  fresh := (CellList.make, Heap.make)
  enter := ListRequest.enter
  act s b s' b' := ∃ cell, b.step cell s.1 s.2 = some (s', b')
  result := ListPoint.result

/-! ## A whole call -/

section Calls

variable [DecidableEq A] {s s' : CellList A × Heap A (ListCell A α)} {reply : ListReply α}

theorem rank_falls (s : CellList A × Heap A (ListCell A α)) (b : ListPoint A α)
    (s' : CellList A × Heap A (ListCell A α)) (b' : ListPoint A α)
    (act : (blockingList A α).act s b s' b') : b'.rank < b.rank := by
  obtain ⟨cell, act⟩ := act
  cases b <;> simp [ListPoint.step, Option.bind_eq_some_iff] at act <;> grind [ListPoint.rank]

variable {list : CellList A} {memory : Heap A (ListCell A α)} {b : ListPoint A α}

/-- What is left to do from a place of a body. -/
abbrev Rest (list : CellList A) (memory : Heap A (ListCell A α)) (b : ListPoint A α)
    (s' : CellList A × Heap A (ListCell A α)) (reply : ListReply α) : Prop :=
  (blockingList A α).Finishes (list, memory) b s' reply

theorem rest_done {r : ListReply α} :
    Rest list memory (.done r) s' reply ↔ r = reply ∧ (list, memory) = s' := by
  rw [Rest, Object.finishes_iff]
  simp [blockingList, ListPoint.result, ListPoint.step]

theorem rest_iff (going : b.result = none) : Rest list memory b s' reply ↔
    ∃ cell s₁ b₁, b.step cell list memory = some (s₁, b₁) ∧ Rest s₁.1 s₁.2 b₁ s' reply := by
  rw [Rest, Object.finishes_iff]
  constructor
  · intro now
    cases now with
    | inl last => exact absurd (going.symm.trans last.1) (by simp)
    | inr first =>
        obtain ⟨s₁, b₁, ⟨cell, act⟩, rest⟩ := first
        exact ⟨cell, s₁, b₁, act, rest⟩
  · intro next
    obtain ⟨cell, s₁, b₁, act, rest⟩ := next
    exact Or.inr ⟨s₁, b₁, ⟨cell, act⟩, rest⟩

variable [Nonempty A]

theorem rest_of_step {list₁ : CellList A} {memory₁ : Heap A (ListCell A α)} {b₁ : ListPoint A α}
    (act : ∀ cell, b.step cell list memory = some ((list₁, memory₁), b₁)) :
    Rest list memory b s' reply ↔ Rest list₁ memory₁ b₁ s' reply := by
  have going : b.result = none := by
    cases b with
    | done => cases act (Classical.arbitrary A)
    | _ => rfl
  rw [rest_iff going]
  simp [act]

theorem rest_firstBack {cell : A} : Rest list memory (.firstBack cell) s' reply ↔
    .pushed = reply ∧ ({ list with m_front := some cell, m_back := some cell }, memory) = s' := by
  rw [rest_of_step fun _ => rfl, rest_of_step fun _ => rfl, rest_done]

theorem rest_moveBack {cell : A} : Rest list memory (.moveBack cell) s' reply ↔
    .pushed = reply ∧ ({ list with m_back := some cell }, memory) = s' := by
  rw [rest_of_step fun _ => rfl, rest_done]

theorem rest_link {cell : A} : Rest list memory (.link cell) s' reply ↔
    .pushed = reply ∧ (do
      let back ← list.m_back
      let last ← memory.load back
      let memory ← memory.store back { last with m_next := some cell }
      some ({ list with m_back := some cell }, memory)) = some s' := by
  rw [rest_iff rfl]
  simp [ListPoint.step, rest_moveBack, Option.bind_eq_some_iff]
  grind

theorem rest_testFront {cell : A} : Rest list memory (.testFront cell) s' reply ↔
    if list.m_front = none then Rest list memory (.firstBack cell) s' reply
    else Rest list memory (.link cell) s' reply := by
  rw [rest_iff rfl]
  simp only [ListPoint.step]
  split <;> simp

/-- The actions of `push_back` are what `CellList.push_back` does in one. -/
theorem performs_push_back {other : α} :
    (blockingList A α).Performs (list, memory) (.push_back other) s' reply ↔
      .pushed = reply ∧ ∃ cell, list.push_back memory other cell = some s' := by
  change Rest list memory (.count other) s' reply ↔ _
  rw [rest_of_step fun _ => rfl, rest_iff rfl]
  unfold CellList.push_back
  by_cases same : .pushed = reply <;> cases front : list.m_front <;>
    simp [ListPoint.step, rest_testFront, rest_firstBack, rest_link, Option.bind_eq_some_iff, *]

theorem rest_clearBack {v : α} : Rest list memory (.clearBack v) s' reply ↔
    .popped (some v) = reply ∧ ({ list with m_front := none, m_back := none }, memory) = s' := by
  rw [rest_of_step fun _ => rfl, rest_of_step fun _ => rfl, rest_done]

theorem rest_deleteLast {v : α} : Rest list memory (.deleteLast v) s' reply ↔
    .popped (some v) = reply ∧ (do
      let front ← list.m_front
      let memory ← memory.delete front
      some ({ list with m_front := none, m_back := none }, memory)) = some s' := by
  rw [rest_iff rfl]
  simp [ListPoint.step, rest_clearBack, Option.bind_eq_some_iff]
  grind

theorem rest_deleteFront {old_front : Option A} {v : α} :
    Rest list memory (.deleteFront old_front v) s' reply ↔
      .popped (some v) = reply ∧ (do
        let old_front ← old_front
        let memory ← memory.delete old_front
        some (list, memory)) = some s' := by
  rw [rest_iff rfl]
  by_cases same : .popped (some v) = reply <;>
    simp [ListPoint.step, rest_done, Option.bind_eq_some_iff, same]

theorem rest_keepFront {v : α} : Rest list memory (.keepFront v) s' reply ↔
    .popped (some v) = reply ∧ (do
      let front ← list.m_front
      let cell ← memory.load front
      let memory ← memory.delete front
      some ({ list with m_front := cell.m_next }, memory)) = some s' := by
  rw [rest_of_step fun _ => rfl, rest_iff rfl]
  simp [ListPoint.step, rest_deleteFront, Option.bind_eq_some_iff]
  grind

theorem rest_testLast {v : α} : Rest list memory (.testLast v) s' reply ↔
    if list.m_front = list.m_back then Rest list memory (.deleteLast v) s' reply
    else Rest list memory (.keepFront v) s' reply := by
  rw [rest_iff rfl]
  simp only [ListPoint.step]
  split <;> simp

/-- The actions of `pop_front` are what `CellList.pop_front` does in one. -/
theorem performs_pop_front :
    (blockingList A α).Performs (list, memory) .pop_front s' reply ↔
      ∃ result, .popped result = reply ∧ list.pop_front memory = some (result, s') := by
  change Rest list memory .testEmpty s' reply ↔ _
  unfold CellList.pop_front
  cases front : list.m_front with
  | none =>
      rw [rest_iff rfl]
      simp [ListPoint.step, rest_done, front]
  | some a =>
      rw [rest_of_step (step_testEmpty front), rest_of_step step_uncount, rest_iff rfl]
      generalize (list.m_size + 4294967295) % 4294967296 = m_size
      by_cases last : some a = list.m_back <;>
        simp [ListPoint.step, rest_testLast, rest_deleteLast, rest_keepFront, front, last,
          Option.bind_eq_some_iff] <;> grind

theorem performs_empty : (blockingList A α).Performs (list, memory) .empty s' reply ↔
    .empty list.empty = reply ∧ (list, memory) = s' := by
  change Rest list memory .readEmpty s' reply ↔ _
  rw [rest_of_step fun _ => rfl, rest_done]

theorem performs_size : (blockingList A α).Performs (list, memory) .size s' reply ↔
    .size list.size = reply ∧ (list, memory) = s' := by
  change Rest list memory .readSize s' reply ↔ _
  rw [rest_of_step fun _ => rfl, rest_done]

end Calls

/-! ## No call gets stuck -/

section Safe

variable [DecidableEq A] {list : CellList A} {memory : Heap A (ListCell A α)} {b : ListPoint A α}

abbrev Defined (list : CellList A) (memory : Heap A (ListCell A α)) (b : ListPoint A α) : Prop :=
  (blockingList A α).Safe (list, memory) b

theorem defined_done {reply : ListReply α} : Defined list memory (.done reply) := by
  apply Object.safe_iff.mpr
  simp [blockingList, ListPoint.result, ListPoint.step]

theorem store_of_object {a : A} (here : memory.object a ≠ none) (c : ListCell A α) :
    ∃ memory', memory.store a c = some memory' := by
  obtain ⟨entry, there⟩ := Option.ne_none_iff_exists'.mp here
  simp [Heap.store, there]

omit [DecidableEq A] in
theorem load_of_object {a : A} (here : memory.object a ≠ none) : ∃ c, memory.load a = some c := by
  obtain ⟨entry, there⟩ := Option.ne_none_iff_exists'.mp here
  simp [Heap.load, there]

theorem delete_of_object {a : A} (here : memory.object a ≠ none) :
    ∃ memory', memory.delete a = some memory' := by
  obtain ⟨entry, there⟩ := Option.ne_none_iff_exists'.mp here
  simp [Heap.delete, there]

variable [Nonempty A]

theorem defined_of_step {list₁ : CellList A} {memory₁ : Heap A (ListCell A α)}
    {b₁ : ListPoint A α} (act : ∀ cell, b.step cell list memory = some ((list₁, memory₁), b₁))
    (later : Defined list₁ memory₁ b₁) : Defined list memory b := by
  apply Object.safe_iff.mpr
  constructor
  · exact Or.inr ⟨(list₁, memory₁), b₁, Classical.arbitrary A, act _⟩
  · intro s₂ b₂ act'
    obtain ⟨cell, act'⟩ := act'
    have same := (act cell).symm.trans act'
    cases same
    exact later

theorem defined_firstBack {cell : A} : Defined list memory (.firstBack cell) := by
  apply defined_of_step fun _ => rfl
  apply defined_of_step fun _ => rfl
  exact defined_done

theorem defined_link {cell back : A} (pointed : list.m_back = some back)
    (here : memory.object back ≠ none) : Defined list memory (.link cell) := by
  obtain ⟨last, loaded⟩ := load_of_object here
  obtain ⟨memory', stored⟩ := store_of_object here { last with m_next := some cell }
  have link : ∀ free, (ListPoint.link cell).step free list memory =
      some ((list, memory'), .moveBack cell) := by
    simp [ListPoint.step, pointed, loaded, stored]
  apply defined_of_step link
  apply defined_of_step fun _ => rfl
  exact defined_done

theorem defined_testFront {cell : A}
    (ends : list.m_front ≠ none → ∃ back, list.m_back = some back ∧ memory.object back ≠ none) :
    Defined list memory (.testFront cell) := by
  cases front : list.m_front with
  | none =>
      apply defined_of_step (step_testFront_none front cell)
      exact defined_firstBack
  | some a =>
      obtain ⟨back, pointed, here⟩ := ends (by simp [front])
      apply defined_of_step (step_testFront front cell)
      exact defined_link pointed here

omit [Nonempty A] in
theorem object_of_new {memory' : Heap A (ListCell A α)} {cell a : A} {c : ListCell A α}
    (allocated : memory.new cell c = some memory') (here : memory.object a ≠ none) :
    memory'.object a ≠ none := by
  unfold Heap.new at allocated
  split at allocated
  · cases allocated
    simp only [Function.update_apply]
    split <;> simp [here]
  · cases allocated

theorem defined_push_back {other : α} {free : A} (unused : memory.object free = none)
    (ends : list.m_front ≠ none → ∃ back, list.m_back = some back ∧ memory.object back ≠ none) :
    Defined list memory (.count other) := by
  apply defined_of_step fun _ => rfl
  apply Object.safe_iff.mpr
  constructor
  · have allocate : ∃ s₁ b₁, (ListPoint.allocate other).step free
        { list with m_size := (list.m_size + 1) % 4294967296 } memory = some (s₁, b₁) := by
      simp [ListPoint.step, Heap.new, unused]
    obtain ⟨s₁, b₁, act⟩ := allocate
    exact Or.inr ⟨s₁, b₁, free, act⟩
  · intro s₁ b₁ allocate
    obtain ⟨cell, allocate⟩ := allocate
    simp only [ListPoint.step, Option.bind_eq_bind, Option.bind_eq_some_iff, Option.some.injEq,
      Prod.mk.injEq] at allocate
    obtain ⟨memory', allocated, rfl, rfl⟩ := allocate
    apply defined_testFront
    intro front
    obtain ⟨back, pointed, here⟩ := ends front
    exact ⟨back, pointed, object_of_new allocated here⟩

theorem defined_deleteLast {v : α} {front : A} (pointed : list.m_front = some front)
    (here : memory.object front ≠ none) : Defined list memory (.deleteLast v) := by
  obtain ⟨memory', deleted⟩ := delete_of_object here
  have delete : ∀ free, (ListPoint.deleteLast v).step free list memory =
      some ((list, memory'), .clearBack v) := by
    simp [ListPoint.step, pointed, deleted]
  apply defined_of_step delete
  apply defined_of_step fun _ => rfl
  apply defined_of_step fun _ => rfl
  exact defined_done

theorem defined_keepFront {v : α} {front : A} (pointed : list.m_front = some front)
    (here : memory.object front ≠ none) : Defined list memory (.keepFront v) := by
  obtain ⟨cell, loaded⟩ := load_of_object here
  obtain ⟨memory', deleted⟩ := delete_of_object here
  have keep : ∀ free, (ListPoint.keepFront v).step free list memory =
      some ((list, memory), .moveFront (some front) v) := by
    simp [ListPoint.step, pointed]
  have move : ∀ free, (ListPoint.moveFront (some front) v).step free list memory =
      some (({ list with m_front := cell.m_next }, memory), .deleteFront (some front) v) := by
    simp [ListPoint.step, pointed, loaded]
  have delete : ∀ free, (ListPoint.deleteFront (some front) v).step free
      { list with m_front := cell.m_next } memory =
        some (({ list with m_front := cell.m_next }, memory'), .done (.popped (some v))) := by
    simp [ListPoint.step, deleted]
  apply defined_of_step keep
  apply defined_of_step move
  apply defined_of_step delete
  exact defined_done

theorem defined_testLast {v : α} {front : A} (pointed : list.m_front = some front)
    (here : memory.object front ≠ none) : Defined list memory (.testLast v) := by
  by_cases last : list.m_front = list.m_back
  · apply defined_of_step (step_testLast last v)
    exact defined_deleteLast pointed here
  · apply defined_of_step (step_testLast_ne last v)
    exact defined_keepFront pointed here

theorem defined_pop_front (ends : ∀ front, list.m_front = some front → memory.object front ≠ none) :
    Defined list memory .testEmpty := by
  cases pointed : list.m_front with
  | none =>
      apply defined_of_step (step_testEmpty_none pointed)
      exact defined_done
  | some front =>
      have here := ends front pointed
      obtain ⟨cell, loaded⟩ := load_of_object here
      have read : ∀ free, ListPoint.read.step free
          { list with m_size := (list.m_size + 4294967295) % 4294967296 } memory =
            some (({ list with m_size := (list.m_size + 4294967295) % 4294967296 }, memory),
              .testLast cell.m_val) := by
        simp [ListPoint.step, pointed, loaded]
      apply defined_of_step (step_testEmpty pointed)
      apply defined_of_step step_uncount
      apply defined_of_step read
      exact defined_testLast pointed here

omit [DecidableEq A] [Nonempty A] in
theorem Holds.front_object {objects : List (A × ListCell A α)} (holds : Holds list memory objects)
    {front : A} (pointed : list.m_front = some front) : memory.object front ≠ none := by
  cases objects with
  | nil =>
      have empty : list.m_front = none := holds.chain.eq_of_nil
      rw [empty] at pointed
      cases pointed
  | cons entry objects =>
      obtain ⟨a, c⟩ := entry
      obtain ⟨number, there⟩ := holds.object List.mem_cons_self
      have same : a = front := Option.some.inj (holds.chain.uncons.1.symm.trans pointed)
      rw [← same, there]
      simp

omit [DecidableEq A] [Nonempty A] in
theorem Holds.back_object {objects : List (A × ListCell A α)} (holds : Holds list memory objects)
    (pointed : list.m_front ≠ none) :
    ∃ back, list.m_back = some back ∧ memory.object back ≠ none := by
  cases List.eq_nil_or_concat' objects with
  | inl none =>
      subst none
      exact absurd holds.chain.eq_of_nil pointed
  | inr some =>
      obtain ⟨front, ⟨b, last⟩, rfl⟩ := some
      obtain ⟨number, there⟩ := holds.object (a := b) (c := last) (by simp)
      exact ⟨b, by simp [holds.back], by simp [there]⟩

/-- A list that holds its cells, with an address left for one more, can do any call. -/
theorem Holds.defined {objects : List (A × ListCell A α)} (holds : Holds list memory objects)
    {free : A} (unused : memory.object free = none) (request : ListRequest α) :
    Defined list memory request.enter := by
  cases request with
  | push_back other => exact defined_push_back unused holds.back_object
  | pop_front => exact defined_pop_front fun front pointed => holds.front_object pointed
  | empty =>
      apply defined_of_step fun _ => rfl
      exact defined_done
  | size =>
      apply defined_of_step fun _ => rfl
      exact defined_done

omit [DecidableEq A] [Nonempty A] in
/-- Memory never runs out where there are infinitely many addresses. -/
theorem Holds.unused [Infinite A] {objects : List (A × ListCell A α)}
    (holds : Holds list memory objects) : ∃ free, memory.object free = none := by
  classical
  obtain ⟨free, other⟩ := Infinite.exists_notMem_finset (objects.map Prod.fst).toFinset
  refine ⟨free, ?_⟩
  by_contra taken
  exact other (List.mem_toFinset.mpr (holds.live free taken))

end Safe

end KMeans
