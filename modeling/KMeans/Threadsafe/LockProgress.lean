import KMeans.Threadsafe.LockGuarantees

/-! # Independence of the indexes

Nobody waits for an index inside of `m_global`, so whoever owns `m_global` gets on, and a
thread in `lock(j)` waits for the owner of `m_global` or for the owner of index `j` only.
Threads that hold one index at a time therefore never block each other for good. `new`
finds a free address as long as there are infinitely many.
-/

namespace KMeans.IndexLocker

open Transition

variable {τ ι A : Type} [DecidableEq ι] {calls : Local ι A → ι → Prop}
  {s : Shared τ ι A × (τ → Local ι A)}

/-! ## Free addresses -/

theorem Move.finite [DecidableEq A] {t : τ} {g g' : Shared τ ι A} {p p' : Local ι A} (move : Move calls t g p g' p')
    (finite : {a | g.node a ≠ none}.Finite) : {a | g'.node a ≠ none}.Finite := by
  have grows : ∀ (a : A) (o : Option (SyncObject τ)),
      {b | Function.update g.node a o b ≠ none}.Finite := by
    intro a o
    apply (finite.insert a).subset
    intro b there
    by_cases same : b = a
    · exact Or.inl same
    · right
      change Function.update g.node a o b ≠ none at there
      rw [Function.update_of_ne same] at there
      exact there
  cases move with
  | insert _ _ | increment _ | tryLock _ _ | lockMtx _ _ | unlockMtx _ | decrement _ | erase =>
      exact grows _ _
  | _ => exact finite

theorem exists_free [DecidableEq τ] [DecidableEq A] [Infinite A] (reached : Reachable (system calls) s) :
    ∃ a, s.1.node a = none := by
  have finite : {a | s.1.node a ≠ none}.Finite := by
    apply Reachable.invariant _ _ reached
    · intro s start
      simp [start.2.2.1]
    · intro s s' finite step
      obtain ⟨t, g, next, move, rfl⟩ := step
      exact move.finite finite
  obtain ⟨a, free⟩ := finite.exists_notMem
  exact ⟨a, not_not.mp free⟩

/-! ## Who can step -/

/-- Thread `t` has an enabled action. -/
def CanStep [DecidableEq A] (calls : Local ι A → ι → Prop) (s : Shared τ ι A × (τ → Local ι A)) (t : τ) : Prop :=
  ∃ g next, Move calls t s.1 (s.2 t) g next

/-- The thread is about to lock `m_global`. -/
def Point.wantsGlobal : Point ι A → Prop
  | .lockGlobal _ | .relockGlobal _ _ | .sizeLock => True
  | _ => False

/-- Thread `u` owns the mutex of index `j`. -/
def Shared.OwnsMutex (g : Shared τ ι A) (j : ι) (u : τ) : Prop :=
  ∃ a o, g.m_lockers.lookup j = some a ∧ g.node a = some o ∧ o.mtx = some u

/-- The index that a thread inside of `lock` works on. -/
def Point.locking : Point ι A → Option ι
  | .lockGlobal i | .subscript i | .increment i _ | .tryLock i _ => some i
  | .giveWay i _ | .lockMtx i _ | .enter i _ => some i
  | _ => none

section Blocking

variable [Fintype τ]

/-- The node that a thread refers to is there. -/
theorem Inv.object (inv : Inv s) {t : τ} {i : ι} {a : A}
    (refers : (s.2 t).point.reference i = some a) :
    ∃ o, s.1.m_lockers.lookup i = some a ∧ s.1.node a = some o := by
  obtain ⟨o, entry, _⟩ := inv.slot_of_node (l := s.2) (role_of_reference refers)
  exact ⟨o, slot_eq_some.mp entry⟩

/-- A thread that waits for a mutex waits outside of `m_global`. -/
theorem Inv.waiting (inv : Inv s) {t : τ} {i : ι} {a : A} (at_t : (s.2 t).point = .lockMtx i a) :
    s.1.m_global ≠ some t := by
  intro owner
  have inside : (s.2 t).point.inGlobal = true := (inv.global t).mp owner
  rw [at_t] at inside
  cases inside

variable [DecidableEq A]

/-- A thread that cannot step waits for `m_global` or for the mutex of an index. -/
theorem Inv.canStep_or (inv : Inv s) (room : ∃ a, s.1.node a = none) (t : τ) :
    CanStep calls s t ∨ ((s.2 t).point.wantsGlobal ∧ s.1.m_global ≠ none) ∨
      ∃ i a u, (s.2 t).point = .lockMtx i a ∧ s.1.OwnsMutex i u := by
  unfold CanStep
  have object : ∀ i a, (s.2 t).point.reference i = some a →
      ∃ o, s.1.m_lockers.lookup i = some a ∧ s.1.node a = some o := fun i a => inv.object
  generalize s.2 t = p at object
  obtain ⟨point, held⟩ := p
  cases point with
  | outside => exact Or.inl ⟨_, _, .callSize⟩
  | lockGlobal i =>
      by_cases free : s.1.m_global = none
      · exact Or.inl ⟨_, _, .lockGlobal free⟩
      · exact Or.inr (Or.inl ⟨trivial, free⟩)
  | subscript i =>
      cases found : s.1.m_lockers.lookup i with
      | none =>
          obtain ⟨a, fresh⟩ := room
          exact Or.inl ⟨_, _, .insert found fresh⟩
      | some a => exact Or.inl ⟨_, _, .subscript found⟩
  | increment i a =>
      obtain ⟨o, _, there⟩ := object i a (if_pos rfl)
      exact Or.inl ⟨_, _, .increment there⟩
  | tryLock i a =>
      obtain ⟨o, _, there⟩ := object i a (if_pos rfl)
      exact Or.inl ⟨_, _, .tryLockFails (Option.isSome_iff_exists.mpr ⟨o, there⟩)⟩
  | giveWay i a => exact Or.inl ⟨_, _, .giveWay⟩
  | lockMtx i a =>
      obtain ⟨o, found, there⟩ := object i a (if_pos rfl)
      cases owner : o.mtx with
      | none => exact Or.inl ⟨_, _, .lockMtx there owner⟩
      | some u => exact Or.inr (Or.inr ⟨i, a, u, rfl, a, o, found, there, owner⟩)
  | enter i a => exact Or.inl ⟨_, _, .enter⟩
  | find i =>
      cases found : s.1.m_lockers.lookup i with
      | none => exact Or.inl ⟨_, _, .findNothing found⟩
      | some a => exact Or.inl ⟨_, _, .find found⟩
  | unlockMtx i a =>
      obtain ⟨o, _, there⟩ := object i a (if_pos rfl)
      exact Or.inl ⟨_, _, .unlockMtx there⟩
  | relockGlobal i a =>
      by_cases free : s.1.m_global = none
      · exact Or.inl ⟨_, _, .relockGlobal free⟩
      · exact Or.inr (Or.inl ⟨trivial, free⟩)
  | decrement i a =>
      obtain ⟨o, _, there⟩ := object i a (if_pos rfl)
      exact Or.inl ⟨_, _, .decrement there⟩
  | compare i a =>
      obtain ⟨o, _, there⟩ := object i a (if_pos rfl)
      by_cases zero : o.catch_cnt = 0
      · exact Or.inl ⟨_, _, .compareZero there zero⟩
      · exact Or.inl ⟨_, _, .compareNonzero there zero⟩
  | erase i a => exact Or.inl ⟨_, _, .erase⟩
  | leave => exact Or.inl ⟨_, _, .leave⟩
  | sizeLock =>
      by_cases free : s.1.m_global = none
      · exact Or.inl ⟨_, _, .sizeLock free⟩
      · exact Or.inr (Or.inl ⟨trivial, free⟩)
  | sizeRead => exact Or.inl ⟨_, _, .sizeRead⟩
  | sizeReturn n => exact Or.inl ⟨_, _, .sizeReturn⟩

/-- The owner of `m_global` waits for nothing. -/
theorem Inv.owner_canStep (inv : Inv s) (room : ∃ a, s.1.node a = none) {t : τ}
    (owner : s.1.m_global = some t) : CanStep calls s t := by
  have inside : (s.2 t).point.inGlobal = true := (inv.global t).mp owner
  cases (inv.canStep_or room t : CanStep calls s t ∨ _) with
  | inl can => exact can
  | inr blocked =>
      exfalso
      cases blocked with
      | inl wants =>
          have wants := wants.1
          revert wants inside
          cases (s.2 t).point <;> simp [Point.wantsGlobal, Point.inGlobal]
      | inr waits =>
          obtain ⟨i, a, u, at_t, _⟩ := waits
          rw [at_t] at inside
          cases inside

variable [DecidableEq τ]

/-- In `lock(j)` a thread is blocked by an owner of `m_global` or of index `j`. -/
theorem blocked_by (reached : Reachable (system matched) s) (room : ∃ a, s.1.node a = none) {t : τ}
    {j : ι} (locking : (s.2 t).point.locking = some j) (stuck : ¬ CanStep calls s t) :
    (∃ u ≠ t, s.1.m_global = some u) ∨ ∃ u ≠ t, s.1.OwnsMutex j u := by
  have inv := inv_reachable reached
  cases inv.canStep_or room t with
  | inl can => exact absurd can stuck
  | inr blocked =>
      cases blocked with
      | inl wants =>
          obtain ⟨_, taken⟩ := wants
          obtain ⟨u, owner⟩ := Option.ne_none_iff_exists'.mp taken
          refine Or.inl ⟨u, ?_, owner⟩
          intro same
          subst same
          exact stuck (inv.owner_canStep room owner)
      | inr waits =>
          obtain ⟨i, a, u, at_t, b, o, found, there, owner⟩ := waits
          have index : some i = some j := by
            rw [at_t] at locking
            exact locking
          obtain rfl := Option.some.inj index
          refine Or.inr ⟨u, ?_, b, o, found, there, owner⟩
          intro same
          subst same
          have apart : i ∉ (s.2 u).held := not_held_of_index reached u i (by rw [at_t]; rfl)
          have owns : ((s.2 u).role i).owns = true := ((inv.used found there).owner u).mp owner
          simp [Local.role, apart, at_t, Point.role] at owns

end Blocking

/-! ## Threads that hold one index at a time -/

/-- A call that a thread makes. -/
inductive Request (ι : Type)
  | lock (index : ι)
  | unlock (index : ι)
  | size

/-- The calls are matched, and between a `lock` and its `unlock` there is no other `lock`,
    when at first the thread holds the given index or none. -/
def Single : Option ι → List (Request ι) → Prop
  | none, [] => True
  | some _, [] => False
  | held, .size :: rest => Single held rest
  | none, .lock index :: rest => Single (some index) rest
  | some _, .lock _ :: _ => False
  | none, .unlock _ :: _ => False
  | some held, .unlock index :: rest => index = held ∧ Single none rest

variable [DecidableEq A]

/-- The actions of thread `t` with the calls that are still to come. -/
inductive Act (t : τ) : Shared τ ι A → Local ι A × List (Request ι) →
    Shared τ ι A → Local ι A × List (Request ι) → Prop
  | lock {g held i rest} :
      Act t g (⟨.outside, held⟩, .lock i :: rest) g (⟨.lockGlobal i, held⟩, rest)
  | unlock {g held i rest} :
      Act t g (⟨.outside, held⟩, .unlock i :: rest) g (⟨.find i, held.erase i⟩, rest)
  | size {g held rest} :
      Act t g (⟨.outside, held⟩, .size :: rest) g (⟨.sizeLock, held⟩, rest)
  | inside {g p g' p' rest} : p.point ≠ .outside → Move matched t g p g' p' →
      Act t g (p, rest) g' (p', rest)

/-- All interleavings of threads that make the given calls. -/
def programs [DecidableEq τ] (requests : τ → List (Request ι)) :
    System (Shared τ ι A × (τ → Local ι A × List (Request ι))) :=
  threads (fun g l => initial g (fun t => (l t).1) ∧ ∀ t, (l t).2 = requests t) Act

/-- The thread has made all its calls, and the last one has returned. -/
def Finished (p : Local ι A × List (Request ι)) : Prop := p.1.point = .outside ∧ p.2 = []

/-- What a thread holds, or will hold when `lock` returns, is what its calls to come assume. -/
def Follows (p : Local ι A × List (Request ι)) : Prop :=
  (p.1.held = ∅ ∧ p.1.point.locking = none ∧ Single none p.2) ∨
  (∃ i, p.1.held = ∅ ∧ p.1.point.locking = some i ∧ Single (some i) p.2) ∨
  (∃ i, p.1.held = {i} ∧ p.1.point.index = none ∧ p.1.point ≠ .leave ∧ Single (some i) p.2)

section Programs

variable {requests : τ → List (Request ι)} {r : Shared τ ι A × (τ → Local ι A × List (Request ι))}

omit [DecidableEq ι] [DecidableEq A] in
theorem follows_outside {held : Finset ι} {rest : List (Request ι)} :
    Follows ((⟨.outside, held⟩ : Local ι A), rest) ↔
      (held = ∅ ∧ Single none rest) ∨ ∃ i, held = {i} ∧ Single (some i) rest := by
  simp [Follows, Point.locking, Point.index]

theorem Act.follows {t : τ} {g g' : Shared τ ι A} {p p' : Local ι A × List (Request ι)}
    (act : Act t g p g' p') (follows : Follows p) : Follows p' := by
  cases act with
  | lock =>
      cases follows_outside.mp follows with
      | inl nothing => exact Or.inr (Or.inl ⟨_, nothing.1, rfl, nothing.2⟩)
      | inr holding => exact holding.choose_spec.2.elim
  | unlock =>
      cases follows_outside.mp follows with
      | inl nothing => exact nothing.2.elim
      | inr holding =>
          obtain ⟨i, held, rfl, calls⟩ := holding
          exact Or.inl ⟨by simp [held], rfl, calls⟩
  | size =>
      cases follows_outside.mp follows with
      | inl nothing => exact Or.inl ⟨nothing.1, rfl, by simpa only [Single] using nothing.2⟩
      | inr holding =>
          obtain ⟨i, held, calls⟩ := holding
          exact Or.inr (Or.inr ⟨i, held, rfl, by simp, by simpa only [Single] using calls⟩)
  | inside away move =>
      cases move <;> grind [Follows, Point.locking, Point.index]

/-- Whatever the thread does next is a step of the locker with matched calls. -/
theorem Act.move {t : τ} {g g' : Shared τ ι A} {p p' : Local ι A × List (Request ι)}
    (act : Act t g p g' p') (follows : Follows p) : Move matched t g p.1 g' p'.1 := by
  cases act with
  | lock =>
      cases follows_outside.mp follows with
      | inl nothing => exact .callLock (by simp [matched, nothing.1])
      | inr holding => exact holding.choose_spec.2.elim
  | unlock =>
      cases follows_outside.mp follows with
      | inl nothing => exact nothing.2.elim
      | inr holding =>
          obtain ⟨i, held, rfl, _⟩ := holding
          exact .callUnlock (by simp [held])
  | size => exact .callSize
  | inside _ move => exact move

section Reached

variable [DecidableEq τ]

theorem follows_reachable (single : ∀ t, Single none (requests t))
    (reached : Reachable (programs requests) r) (t : τ) : Follows (r.2 t) := by
  apply threads_local (P := Follows) _ _ reached t
  · intro g l start t
    obtain ⟨⟨_, _, _, outside⟩, calls⟩ := start
    have outside : (l t).1 = ⟨.outside, ∅⟩ := outside t
    refine Or.inl ⟨by rw [outside], by rw [outside]; rfl, ?_⟩
    rw [calls t]
    exact single t
  · intro t g p g' p' act follows
    exact act.follows follows

theorem locker_reachable (single : ∀ t, Single none (requests t))
    (reached : Reachable (programs requests) r) :
    Reachable (system matched) (r.1, fun t => (r.2 t).1) := by
  induction reached with
  | init start => exact .init start.1
  | @step r _ before step ih =>
      obtain ⟨t, g, next, act, rfl⟩ := step
      have follows := follows_reachable single before t
      refine ih.step ⟨t, g, next.1, act.move follows, ?_⟩
      have same : (fun u => (Function.update r.2 t next u).1) =
          Function.update (fun u => (r.2 u).1) t next.1 := by
        funext u
        exact Function.apply_update (fun _ => Prod.fst) r.2 t next u
      rw [same]

end Reached

variable [Fintype τ]

/-- While `m_global` is free, only a mutex can block a thread that has not finished. -/
theorem act_or_waits (inv : Inv (r.1, fun t => (r.2 t).1)) (room : ∃ a, r.1.node a = none)
    (free : r.1.m_global = none) {t : τ} (follows : Follows (r.2 t))
    (unfinished : ¬ Finished (r.2 t)) : (∃ g next, Act t r.1 (r.2 t) g next) ∨
      ∃ i a u, (r.2 t).1.point = .lockMtx i a ∧ r.1.OwnsMutex i u := by
  by_cases outside : (r.2 t).1.point = .outside
  · left
    generalize r.2 t = p at follows unfinished outside
    obtain ⟨⟨point, held⟩, rest⟩ := p
    obtain rfl : point = .outside := outside
    cases rest with
    | nil => exact absurd ⟨rfl, rfl⟩ unfinished
    | cons request rest =>
        cases request with
        | lock index => exact ⟨_, _, .lock⟩
        | unlock index => exact ⟨_, _, .unlock⟩
        | size => exact ⟨_, _, .size⟩
  · cases (inv.canStep_or room t : CanStep matched _ t ∨ _) with
    | inl can =>
        obtain ⟨g, next, move⟩ := can
        exact Or.inl ⟨g, (next, (r.2 t).2), .inside outside move⟩
    | inr blocked =>
        cases blocked with
        | inl wants => exact absurd free wants.2
        | inr waits => exact Or.inr waits

omit [DecidableEq A] in
/-- The owner of the mutex for which a thread waits has not finished and does not wait itself. -/
theorem not_waits_of_owns (inv : Inv (r.1, fun t => (r.2 t).1)) {i : ι} {u : τ}
    (owns : r.1.OwnsMutex i u) (follows : Follows (r.2 u)) :
    ¬ Finished (r.2 u) ∧ ∀ j a, (r.2 u).1.point ≠ .lockMtx j a := by
  obtain ⟨a, o, found, there, owner⟩ := owns
  have owns : ((r.2 u).1.role i).owns = true := ((inv.used found there).owner u).mp owner
  generalize r.2 u = p at follows owns
  obtain ⟨⟨point, held⟩, rest⟩ := p
  constructor
  · intro finished
    obtain ⟨rfl, rfl⟩ : point = .outside ∧ rest = [] := finished
    cases follows_outside.mp follows with
    | inl nothing => simp [Local.role, nothing.1, Point.role, Role.bystander] at owns
    | inr holding => exact holding.choose_spec.2
  · intro j a waits
    obtain rfl : point = .lockMtx j a := waits
    have nothing : held = ∅ := by
      obtain ⟨none, _⟩ | ⟨_, none, _⟩ | ⟨_, _, none, _⟩ := follows
      · exact none
      · exact none
      · cases none
    simp only [Local.role, nothing, Finset.notMem_empty, if_false, Point.role] at owns
    split at owns <;> cases owns

variable [DecidableEq τ]

/-- If every thread holds at most one index at a time, some thread can step as long as one has
    not finished. -/
theorem some_thread_steps [Infinite A] (single : ∀ t, Single none (requests t))
    (reached : Reachable (programs requests) r) (unfinished : ∃ t, ¬ Finished (r.2 t)) :
    ∃ r', (programs requests).step r r' := by
  have locker := locker_reachable single reached
  have inv := inv_reachable locker
  have room := exists_free locker
  have follows := follows_reachable single reached
  obtain ⟨u, g, next, act⟩ : ∃ u g next, Act u r.1 (r.2 u) g next := by
    cases owner : r.1.m_global with
    | some u =>
        obtain ⟨g, next, move⟩ : CanStep matched _ u := inv.owner_canStep room owner
        have inside : (r.2 u).1.point.inGlobal = true := (inv.global u).mp owner
        have away : (r.2 u).1.point ≠ .outside := by
          intro outside
          rw [outside] at inside
          cases inside
        exact ⟨u, g, (next, (r.2 u).2), .inside away move⟩
    | none =>
        obtain ⟨t, unfinished⟩ := unfinished
        cases act_or_waits inv room owner (follows t) unfinished with
        | inl act => exact ⟨t, act⟩
        | inr waits =>
            obtain ⟨i, _, u, _, owns⟩ := waits
            obtain ⟨unfinished, free⟩ := not_waits_of_owns inv owns (follows u)
            cases act_or_waits inv room owner (follows u) unfinished with
            | inl act => exact ⟨u, act⟩
            | inr waits =>
                obtain ⟨j, a, _, at_u, _⟩ := waits
                exact absurd at_u (free j a)
  exact ⟨_, u, g, next, act, rfl⟩

end Programs

/-! ## The guarantee -/

section Guarantee

variable [DecidableEq τ] [Fintype τ]

/-- Waiting for one index has nothing to do with `m_global` or with another index. -/
structure Independent (s : Shared τ ι A × (τ → Local ι A)) : Prop where
  waiting : ∀ t i a, (s.2 t).point = .lockMtx i a → s.1.m_global ≠ some t
  owner : ∀ t, s.1.m_global = some t → CanStep matched s t
  blocked : ∀ t j, (s.2 t).point.locking = some j → ¬ CanStep matched s t →
    (∃ u ≠ t, s.1.m_global = some u) ∨ ∃ u ≠ t, s.1.OwnsMutex j u

/-- What threads wait for, as long as each operation on the map is one action. -/
theorem index_independence [Infinite A] :
    (∀ s : Shared τ ι A × (τ → Local ι A), Reachable (system matched) s → Independent s) ∧
    ∀ requests : τ → List (Request ι), (∀ t, Single none (requests t)) →
      ∀ r : Shared τ ι A × (τ → Local ι A × List (Request ι)),
      Reachable (programs requests) r → (∃ t, ¬ Finished (r.2 t)) →
      ∃ r', (programs requests).step r r' := by
  constructor
  · intro s reached
    have inv := inv_reachable reached
    have room := exists_free reached
    constructor
    · intro t i a at_t
      exact inv.waiting at_t
    · intro t owner
      exact inv.owner_canStep room owner
    · intro t j locking stuck
      exact blocked_by reached room locking stuck
  · intro requests single r reached unfinished
    exact some_thread_steps single reached unfinished

end Guarantee

end KMeans.IndexLocker
