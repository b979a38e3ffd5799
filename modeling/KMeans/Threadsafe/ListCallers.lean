import KMeans.Threadsafe.ListActions

/-! # What the callers of `blocking::list<T>` see

The callers are any threads that share one list. To them the list with its mutex, its
pointers and its cells is `BlockingList`, each method one action, and no call meets
another one, a null pointer, a freed cell or an endless loop.
-/

namespace KMeans

open Memory Transition Monitor

variable {A α : Type}

/-! ## The methods, each in one action -/

namespace BlockingList

/-- The methods, each in one action. -/
def call (self : BlockingList α) : ListRequest α → BlockingList α × ListReply α
  | .push_back other => (self.push_back other, .pushed)
  | .pop_front => ((self.pop_front.map Prod.snd).getD self, .popped (self.pop_front.map Prod.fst))
  | .empty => (self, .empty self.empty)
  | .size => (self, .size self.size)

def Calls (self : BlockingList α) (request : ListRequest α) (self' : BlockingList α)
    (reply : ListReply α) : Prop :=
  self.call request = (self', reply)

end BlockingList

section Refinement

variable [DecidableEq A] [Infinite A] {list : CellList A} {memory : Heap A (ListCell A α)}
  {whole whole' : BlockingList α} {request : ListRequest α} {reply : ListReply α}
  {s' : CellList A × Heap A (ListCell A α)}

theorem Represents.performs (same : Represents list memory whole)
    (performed : (blockingList A α).Performs (list, memory) request s' reply) :
    ∃ whole', whole.Calls request whole' reply ∧ Represents s'.1 s'.2 whole' := by
  cases request with
  | push_back other =>
      obtain ⟨rfl, cell, run⟩ := performs_push_back.mp performed
      obtain ⟨_, _, run', same'⟩ := same.push_back (free_of_push_back run) other
      cases run.symm.trans run'
      exact ⟨_, rfl, same'⟩
  | pop_front =>
      obtain ⟨result, rfl, run⟩ := performs_pop_front.mp performed
      obtain ⟨_, _, run', same'⟩ := same.pop_front
      cases run.symm.trans run'
      exact ⟨_, rfl, same'⟩
  | empty =>
      obtain ⟨rfl, rfl⟩ := performs_empty.mp performed
      exact ⟨whole, by rw [same.empty]; rfl, same⟩
  | size =>
      obtain ⟨rfl, rfl⟩ := performs_size.mp performed
      exact ⟨whole, by rw [same.size]; rfl, same⟩

theorem Represents.performed (same : Represents list memory whole)
    (called : whole.Calls request whole' reply) : ∃ s',
    (blockingList A α).Performs (list, memory) request s' reply ∧ Represents s'.1 s'.2 whole' := by
  cases request with
  | push_back other =>
      cases called
      obtain ⟨objects, holds, _⟩ := id same
      obtain ⟨cell, free⟩ := holds.unused
      obtain ⟨list', memory', run, same'⟩ := same.push_back free other
      exact ⟨(list', memory'), performs_push_back.mpr ⟨rfl, cell, run⟩, same'⟩
  | pop_front =>
      cases called
      obtain ⟨list', memory', run, same'⟩ := same.pop_front
      exact ⟨(list', memory'), performs_pop_front.mpr ⟨_, rfl, run⟩, same'⟩
  | empty =>
      cases called
      exact ⟨(list, memory), performs_empty.mpr ⟨by rw [same.empty], rfl⟩, same⟩
  | size =>
      cases called
      exact ⟨(list, memory), performs_size.mpr ⟨by rw [same.size], rfl⟩, same⟩

end Refinement

/-! ## Any callers -/

section Callers

variable {τ γ ℓ : Type} [DecidableEq τ] [DecidableEq A] [Infinite A]
  {client : Client τ γ ℓ (ListRequest α) (ListReply α)}

theorem represents_of_reachable {s : (γ × CellList A × Heap A (ListCell A α)) × (τ → ℓ)}
    (reached : Reachable (atomic client (blockingList A α).fresh (blockingList A α).Performs) s) :
    ∃ whole, Reachable (atomic client BlockingList.make BlockingList.Calls) ((s.1.1, whole), s.2) ∧
      Represents s.1.2.1 s.1.2.2 whole := by
  apply atomic_refines (fun s whole => Represents s.1 s.2 whole) represents_make _ reached
  intro s whole request s' reply same performed
  exact same.performs performed

theorem defined_of_reachable {s : (γ × CellList A × Heap A (ListCell A α)) × (τ → ℓ)}
    (reached : Reachable (atomic client (blockingList A α).fresh (blockingList A α).Performs) s)
    (request : ListRequest α) :
    (blockingList A α).Safe s.1.2 ((blockingList A α).enter request) := by
  obtain ⟨whole, _, objects, holds, _⟩ := represents_of_reachable reached
  obtain ⟨free, unused⟩ := holds.unused
  exact holds.defined unused request

theorem whole_of_reachable
    {s : Shared τ γ (CellList A × Heap A (ListCell A α)) × (τ → Point ℓ (ListPoint A α))}
    (reached : Reachable (locked client (blockingList A α)) s) : ∃ whole,
      Reachable (atomic client BlockingList.make BlockingList.Calls)
        ((s.1.client, whole), clients s.2) ∧
      (s.1.lock = none → Represents s.1.object.1 s.1.object.2 whole) := by
  obtain ⟨start, since⟩ := since_of_reachable reached
  obtain ⟨whole, same, represents⟩ := represents_of_reachable since.reached
  refine ⟨whole, same, ?_⟩
  intro free
  rw [since.free free]
  exact represents

/-- What the callers can do with `BlockingList`, they can do with the list. -/
theorem performed_path {s s' : (γ × BlockingList α) × (τ → ℓ)} {list : CellList A}
    {memory : Heap A (ListCell A α)} (represents : Represents list memory s.1.2)
    (path : Relation.ReflTransGen
      (atomic client BlockingList.make BlockingList.Calls).step s s') :
    ∃ list' memory', Represents list' memory' s'.1.2 ∧
      Relation.ReflTransGen (locked client (blockingList A α)).step
        (⟨s.1.1, none, (list, memory)⟩, placed s.2)
        (⟨s'.1.1, none, (list', memory')⟩, placed s'.2) := by
  obtain ⟨⟨list', memory'⟩, path', represents'⟩ := @atomic_path_refines _ _ _ _ _ _ _ client
    BlockingList.make (blockingList A α).fresh BlockingList.Calls (blockingList A α).Performs _
    (fun whole s => Represents s.1 s.2 whole)
    (fun _ _ _ _ _ same called => same.performed called) _ _ (list, memory) represents path
  exact ⟨list', memory', represents', path_of_atomic path'⟩

theorem reachable_of_whole {g : γ} {whole : BlockingList α} {l : τ → ℓ}
    (reached : Reachable (atomic client BlockingList.make BlockingList.Calls) ((g, whole), l)) :
    ∃ list memory, Represents list memory whole ∧
      Reachable (locked client (blockingList A α)) (⟨g, none, (list, memory)⟩, placed l) := by
  obtain ⟨⟨list, memory⟩, same, represents⟩ := @atomic_refines _ _ _ _ _ _ _ client
    BlockingList.make (blockingList A α).fresh BlockingList.Calls _ _
    (fun whole s => Represents s.1 s.2 whole) represents_make
    (fun _ _ _ _ _ same called => same.performed called) _ reached
  exact ⟨list, memory, represents, reachable_iff.mpr same⟩

/-- For callers in any number of threads the list with its pointers is `BlockingList`: the
    states of both programs are the same. -/
theorem list_is_atomic :
    (∀ x p, Reachable (locked client (blockingList A α)) (x, p) → ∃ whole,
      Reachable (atomic client BlockingList.make BlockingList.Calls) ((x.client, whole), clients p) ∧
      (x.lock = none → Represents x.object.1 x.object.2 whole)) ∧
    ∀ g whole l,
      Reachable (atomic client BlockingList.make BlockingList.Calls) ((g, whole), l) →
      ∃ list memory, Represents list memory whole ∧
        Reachable (locked client (blockingList A α)) (⟨g, none, (list, memory)⟩, placed l) :=
  ⟨fun _ _ reached => whole_of_reachable reached, fun _ _ _ reached => reachable_of_whole reached⟩

/-- Two threads that push one value each, after the first one has pushed. -/
theorem list_is_atomic_two_threads :
    ∃ (client : Client (Fin 2) Unit Bool (ListRequest Nat) (ListReply Nat)) (list : CellList Nat)
      (memory : Heap Nat (ListCell Nat Nat)) (whole : BlockingList Nat), whole.cells = [7] ∧
      Represents list memory whole ∧
      Reachable (locked client (blockingList Nat Nat))
        (⟨(), none, (list, memory)⟩, placed fun t => t == 0) := by
  let client : Client (Fin 2) Unit Bool (ListRequest Nat) (ListReply Nat) :=
    ⟨fun _ l => ∀ t, l t = false, fun _ _ _ _ _ => False,
      fun done => if done then none else some (.push_back 7), fun _ _ => true⟩
  have start : Reachable (atomic client BlockingList.make BlockingList.Calls)
      (((), BlockingList.make), fun _ => false) := .init ⟨fun _ => rfl, rfl⟩
  have pushed := start.move (t := (0 : Fin 2)) rfl (.call (i := .push_back 7) rfl rfl)
  have same : Function.update (fun _ => false) (0 : Fin 2) (client.resume false .pushed) =
      fun t => t == 0 := by decide
  rw [same] at pushed
  obtain ⟨list, memory, represents, reached⟩ := (list_is_atomic (A := Nat)).2 _ _ _ pushed
  exact ⟨client, list, memory, _, rfl, represents, reached⟩

/-- What a caller can rely on while others call. -/
structure Undisturbed (client : Client τ γ ℓ (ListRequest α) (ListReply α))
    (s : Shared τ γ (CellList A × Heap A (ListCell A α)) × (τ → Point ℓ (ListPoint A α))) :
    Prop where
  /-- No two threads are at the fields and cells of the list at the same time. -/
  alone : ∀ t u, (s.2 t).isInside = true → (s.2 u).isInside = true → t = u
  /-- The next action of a thread inside is defined. -/
  defined : ∀ t l b, s.2 t = .inside l b → (∃ reply, b.result = some reply) ∨
    ∃ object b', (blockingList A α).act s.1.object b object b'
  /-- A thread inside comes to its `return` on its own. -/
  returns : ∀ t l b, s.2 t = .inside l b → ∃ object reply,
    Relation.ReflTransGen (locked client (blockingList A α)).step s
      (⟨s.1.client, none, object⟩, Function.update s.2 t (.outside (client.resume l reply)))
  /-- A thread at a call can come to return from it. -/
  called : ∀ t l request, s.2 t = .outside l → client.request l = some request →
    ∃ object q reply, Relation.ReflTransGen (locked client (blockingList A α)).step s
      (⟨s.1.client, none, object⟩, q) ∧ q t = .outside (client.resume l reply)

theorem undisturbed_of_reachable
    {s : Shared τ γ (CellList A × Heap A (ListCell A α)) × (τ → Point ℓ (ListPoint A α))}
    (reached : Reachable (locked client (blockingList A α)) s) : Undisturbed client s where
  alone := fun t u mine yours => alone_of_reachable reached mine yours
  defined := by
    intro t l b here
    have safe := safe_of_reachable (fun _ => defined_of_reachable) reached here
    exact safe _ b .refl
  returns := by
    intro t l b here
    exact can_return rank_falls here (safe_of_reachable (fun _ => defined_of_reachable) reached here)
  called := by
    intro t l request here calls
    exact can_call rank_falls (fun _ => defined_of_reachable) reached here calls

/-- A thread after its first action of `push_back`. -/
theorem undisturbed_of_reachable_inside :
    ∃ (client : Client (Fin 2) Unit Bool (ListRequest Nat) (ListReply Nat))
      (s : Shared (Fin 2) Unit (CellList Nat × Heap Nat (ListCell Nat Nat)) ×
        (Fin 2 → Point Bool (ListPoint Nat Nat))),
      Reachable (locked client (blockingList Nat Nat)) s ∧ s.1.object.1.m_size = 1 ∧
      s.2 0 = .inside false (.allocate 7) ∧ Undisturbed client s := by
  let client : Client (Fin 2) Unit Bool (ListRequest Nat) (ListReply Nat) :=
    ⟨fun _ l => ∀ t, l t = false, fun _ _ _ _ _ => False,
      fun done => if done then none else some (.push_back 7), fun _ _ => true⟩
  have start : Reachable (locked client (blockingList Nat Nat))
      (⟨(), none, (blockingList Nat Nat).fresh⟩, placed fun _ => false) :=
    .init ⟨rfl, rfl, fun _ => rfl, fun _ => rfl⟩
  have lock : LockedMove client (blockingList Nat Nat) 0 ⟨(), none, (blockingList Nat Nat).fresh⟩
      (.outside false) ⟨(), some 0, (blockingList Nat Nat).fresh⟩ (.inside false (.count 7)) :=
    .lock (i := ListRequest.push_back 7) rfl
  have count : (blockingList Nat Nat).Runs ((blockingList Nat Nat).fresh, .count 7)
      (({ CellList.make with m_size := 1 }, Heap.make), .allocate 7) := .single ⟨0, rfl⟩
  have counted := (start.move rfl lock).later (path_run count (Function.update_self ..))
  exact ⟨client, _, counted, rfl, by simp, undisturbed_of_reachable counted⟩

end Callers

end KMeans
