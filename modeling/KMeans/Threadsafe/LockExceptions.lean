import Mathlib.Algebra.BigOperators.Fin
import KMeans.Threadsafe.LockGuarantees

/-! # A `lock` that throws

Two statements of `lock` can throw: the insertion of a new entry, which then has no
effect, and the blocking `lock` of the mutex. No handler surrounds them, so the call
ends there and undoes nothing.

What a failed call leaves behind is what a thread would have that stays at the
statement for ever. With such a phantom for every failed call the invariant of the
locker holds on.
-/

namespace KMeans.IndexLocker

open Transition

variable {τ ι A : Type} [DecidableEq τ] [DecidableEq ι] [DecidableEq A]

/-- The statements of `lock(index)` that can throw. -/
inductive Throws (g : Shared τ ι A) (index : ι) : Point ι A → Prop
  /-- `m_lockers[index]`, where it inserts an entry -/
  | insertion : g.m_lockers.lookup index = none → Throws g index (.subscript index)
  /-- `cur_object.mtx.lock()` -/
  | blocking {a} : Throws g index (.lockMtx index a)

/-- The actions of thread `t` if calls of `lock` may fail. -/
inductive FaultyMove (calls : Local ι A → ι → Prop) (t : τ) :
    Shared τ ι A → Local ι A → Shared τ ι A → Local ι A → Prop
  | move {g p g' p'} : Move calls t g p g' p' → FaultyMove calls t g p g' p'
  /-- `lock` exits with an exception, and nothing is undone. -/
  | throws {g i point held} : Throws g i point →
      FaultyMove calls t g ⟨point, held⟩ g ⟨.outside, held⟩

/-- Any number of threads at work on one `index_locker`, with exceptions. -/
def throwing (calls : Local ι A → ι → Prop) : System (Shared τ ι A × (τ → Local ι A)) :=
  threads initial (FaultyMove calls)

/-- An exception may be thrown, but need not. -/
theorem reachable_throwing {calls : Local ι A → ι → Prop} {s : Shared τ ι A × (τ → Local ι A)}
    (reached : Reachable (system calls) s) : Reachable (throwing calls) s := by
  induction reached with
  | init start => exact .init start
  | step _ next ih =>
      obtain ⟨t, g, p, move, rfl⟩ := next
      exact ih.step ⟨t, g, p, .move move, rfl⟩

/-! ## Phantoms -/

section Phantoms

variable {n : Nat} {ghost : Fin n → Local ι A} {owner : Option (τ ⊕ Fin n)}

def SyncObject.among (n : Nat) (o : SyncObject τ) : SyncObject (τ ⊕ Fin n) :=
  ⟨o.mtx.map .inl, o.catch_cnt⟩

/-- The members, in the eyes of threads and phantoms. A phantom may own `m_global`, but
    no other mutex. -/
def Shared.among (g : Shared τ ι A) (owner : Option (τ ⊕ Fin n)) : Shared (τ ⊕ Fin n) ι A :=
  ⟨owner, g.m_lockers, fun a => (g.node a).map (SyncObject.among n)⟩

/-- A thread owns `m_global` itself, or a phantom has it in the name of some thread. -/
def Owner (m_global : Option τ) : Option (τ ⊕ Fin n) → Prop
  | none => m_global = none
  | some (.inl t) => m_global = some t
  | some (.inr _) => m_global.isSome

/-- The invariant of the locker with phantoms. -/
structure Haunted (ghost : Fin n → Local ι A) [Fintype τ] (s : Shared τ ι A × (τ → Local ι A)) :
    Prop where
  inv : ∃ owner, Owner s.1.m_global owner ∧ Inv (s.1.among owner, Sum.elim s.2 ghost)
  /-- Every node belongs to an entry. -/
  addressed : ∀ a, (s.1.node a).isSome → ∃ i, s.1.m_lockers.lookup i = some a

omit [DecidableEq τ] [DecidableEq A] in
theorem slot_among (g : Shared τ ι A) (owner : Option (τ ⊕ Fin n)) (i : ι) :
    (g.among owner).slot i = (g.slot i).map fun e => (e.1, e.2.among n) := by
  unfold Shared.slot Shared.among
  cases found : g.m_lockers.lookup i with
  | none => simp
  | some a => cases object : g.node a <;> simp [object]

omit [DecidableEq τ] [DecidableEq A] in
theorem wellFormed_among {g : Shared τ ι A} :
    (g.among owner).WellFormed ↔ g.WellFormed := by
  constructor
  · intro wf
    exact ⟨fun i a found => by simpa [Shared.among] using wf.live i a found, wf.apart⟩
  · intro wf
    exact ⟨fun i a found => by simpa [Shared.among] using wf.live i a found, wf.apart⟩

omit [DecidableEq τ] [DecidableEq ι] in
theorem among_update (g : Shared τ ι A) (owner : Option (τ ⊕ Fin n)) (m_global : Option τ)
    (m_lockers : Finmap fun _ : ι => A) (a : A) (o : Option (SyncObject τ)) :
    Shared.among ⟨m_global, m_lockers, Function.update g.node a o⟩ owner =
      ⟨owner, m_lockers, Function.update (g.among owner).node a (o.map (SyncObject.among n))⟩ := by
  unfold Shared.among
  congr 1
  funext b
  exact Function.apply_update (fun _ => Option.map (SyncObject.among n)) g.node a o b

omit [DecidableEq τ] in
/-- What a thread does, it also does among phantoms. -/
theorem Move.among {calls : Local ι A → ι → Prop} {t : τ} {g g' : Shared τ ι A} {p p' : Local ι A}
    (move : Move calls t g p g' p') (owned : Owner g.m_global owner) :
    ∃ owner', Owner g'.m_global owner' ∧
      Move calls (.inl t) (g.among owner) p (g'.among owner') p' := by
  have unowned : g.m_global = none → owner = none := by
    intro free
    cases owner with
    | none => rfl
    | some o => cases o <;> simp [Owner, free] at owned
  have here {a o} : g.node a = some o → (g.among owner).node a = some (o.among n) := by
    intro object
    simp [Shared.among, object]
  cases move with
  | callLock may => exact ⟨owner, owned, .callLock may⟩
  | lockGlobal free => exact ⟨some (.inl t), rfl, .lockGlobal (unowned free)⟩
  | subscript found => exact ⟨owner, owned, .subscript found⟩
  | @insert held i a absent fresh =>
      refine ⟨owner, owned, ?_⟩
      rw [among_update]
      exact .insert absent (by simp [Shared.among, fresh])
  | increment object =>
      refine ⟨owner, owned, ?_⟩
      rw [among_update]
      exact .increment (here object)
  | tryLock object free =>
      refine ⟨owner, owned, ?_⟩
      rw [among_update]
      exact .tryLock (here object) (by simp [SyncObject.among, free])
  | tryLockFails isSome =>
      exact ⟨owner, owned, .tryLockFails (by simpa [Shared.among] using isSome)⟩
  | giveWay => exact ⟨none, rfl, .giveWay⟩
  | lockMtx object free =>
      refine ⟨owner, owned, ?_⟩
      rw [among_update]
      exact .lockMtx (here object) (by simp [SyncObject.among, free])
  | enter => exact ⟨none, rfl, .enter⟩
  | callUnlock holds => exact ⟨owner, owned, .callUnlock holds⟩
  | find found => exact ⟨owner, owned, .find found⟩
  | findNothing absent => exact ⟨owner, owned, .findNothing absent⟩
  | unlockMtx object =>
      refine ⟨owner, owned, ?_⟩
      rw [among_update]
      exact .unlockMtx (here object)
  | relockGlobal free => exact ⟨some (.inl t), rfl, .relockGlobal (unowned free)⟩
  | decrement object =>
      refine ⟨owner, owned, ?_⟩
      rw [among_update]
      exact .decrement (here object)
  | compareZero object zero => exact ⟨owner, owned, .compareZero (here object) zero⟩
  | compareNonzero object nonzero => exact ⟨owner, owned, .compareNonzero (here object) nonzero⟩
  | erase =>
      refine ⟨owner, owned, ?_⟩
      rw [among_update]
      exact .erase
  | leave => exact ⟨none, rfl, .leave⟩
  | callSize => exact ⟨owner, owned, .callSize⟩
  | sizeLock free => exact ⟨some (.inl t), rfl, .sizeLock (unowned free)⟩
  | sizeRead => exact ⟨owner, owned, .sizeRead⟩
  | sizeReturn => exact ⟨none, rfl, .sizeReturn⟩

/-! ## Leaving a phantom behind -/

section Roles

variable (p : Local ι A) (i : ι)

omit [DecidableEq A]

theorem role_node : (p.role i).node = (p.point.role i).node := by
  unfold Local.role
  split <;> rfl

theorem role_uses : (p.role i).uses = (p.point.role i).uses + if i ∈ p.held then 1 else 0 := by
  unfold Local.role
  split <;> simp

theorem role_owns : (p.role i).owns = ((p.point.role i).owns || decide (i ∈ p.held)) := by
  unfold Local.role
  split <;> simp [*]

theorem role_settles : (p.role i).settles = (p.point.role i).settles := by
  unfold Local.role
  split <;> rfl

theorem role_erases : (p.role i).erases = (p.point.role i).erases := by
  unfold Local.role
  split <;> rfl

end Roles

/-- The role of thread `t` is now that of the thread and a phantom together, the first one. -/
structure Splits (t : τ) (roles : τ ⊕ Fin n → Role A) (roles' : τ ⊕ Fin (n + 1) → Role A) :
    Prop where
  threads : ∀ u ≠ t, roles' (.inl u) = roles (.inl u)
  phantoms : ∀ k : Fin n, roles' (.inr k.succ) = roles (.inr k)
  node : (roles' (.inl t)).node = none ∧ (roles' (.inr 0)).node = (roles (.inl t)).node
  uses : (roles (.inl t)).uses = (roles' (.inl t)).uses + (roles' (.inr 0)).uses
  positive : 0 ≤ (roles' (.inl t)).uses ∧ 0 ≤ (roles' (.inr 0)).uses
  owns : (roles' (.inl t)).owns = (roles (.inl t)).owns ∧ (roles' (.inr 0)).owns = false
  settles : (roles (.inl t)).settles = false
  erases : (roles' (.inl t)).erases = false ∧ (roles' (.inr 0)).erases = false

section Split

variable {t : τ} {roles : τ ⊕ Fin n → Role A} {roles' : τ ⊕ Fin (n + 1) → Role A}

omit [DecidableEq τ] [DecidableEq A] in
theorem Splits.cases (splits : Splits t roles roles') {P : Role A → Prop}
    (others : ∀ x ≠ .inl t, P (roles x)) (mine : P (roles' (.inl t)))
    (phantom : P (roles' (.inr 0))) (x : τ ⊕ Fin (n + 1)) : P (roles' x) := by
  cases x with
  | inl u =>
      rcases eq_or_ne u t with rfl | other
      · exact mine
      · rw [splits.threads u other]
        exact others (.inl u) (by simpa using other)
  | inr k =>
      cases k using Fin.cases with
      | zero => exact phantom
      | succ k =>
          rw [splits.phantoms k]
          exact others (.inr k) (by simp)

omit [DecidableEq τ] [DecidableEq A] in
theorem Unused.split (unused : Unused roles) (splits : Splits t roles roles') :
    Unused roles' := by
  have none := unused.uses (.inl t)
  have sum := splits.uses
  have positive := splits.positive
  constructor
  · apply splits.cases (P := fun r => r.node = Option.none) fun x _ => unused.node x
    · exact splits.node.1
    · exact splits.node.2.trans (unused.node (.inl t))
  · apply splits.cases (P := fun r => r.uses = 0) fun x _ => unused.uses x
    · omega
    · omega

omit [DecidableEq A] in
theorem Splits.sum [Fintype τ] (splits : Splits t roles roles') :
    ∑ x, (roles' x).uses = ∑ x, (roles x).uses := by
  have threads : (fun u => roles' (.inl u)) =
      Function.update (fun u => roles (.inl u)) t (roles' (.inl t)) := by
    funext u
    rcases eq_or_ne u t with rfl | other
    · rw [Function.update_self]
    · rw [Function.update_of_ne other, splits.threads u other]
  have changed := sum_update Role.uses (fun u => roles (.inl u)) t (roles' (.inl t))
  have sum := splits.uses
  rw [← threads] at changed
  simp only [Fintype.sum_sum_type, Fin.sum_univ_succ, splits.phantoms, changed]
  omega

omit [DecidableEq A] in
theorem Used.split [Fintype τ] {a : A} {o : SyncObject τ} (used : Used a (o.among n) roles)
    (splits : Splits t roles roles') : Used a (o.among (n + 1)) roles' := by
  constructor
  · apply splits.cases (P := fun r => ∀ b, r.node = some b → b = a) fun x _ => used.node x
    · simp [splits.node.1]
    · rw [splits.node.2]
      exact used.node (.inl t)
  · have owns (u : τ) : o.mtx = some u ↔ (roles (.inl u)).owns = true := by
      simpa [SyncObject.among] using used.owner (.inl u)
    have unowned (k : Fin n) : (roles (.inr k)).owns = false := by
      simpa [SyncObject.among] using used.owner (.inr k)
    intro x
    cases x with
    | inl u =>
        rcases eq_or_ne u t with rfl | other
        · simpa [SyncObject.among, splits.owns.1] using owns u
        · simpa [SyncObject.among, splits.threads u other] using owns u
    | inr k =>
        cases k using Fin.cases with
        | zero => simp [SyncObject.among, splits.owns.2]
        | succ k => simp [SyncObject.among, splits.phantoms k, unowned k]
  · rw [splits.sum]
    exact used.count
  · intro zero
    obtain ⟨x, settles⟩ := used.settled zero
    cases x with
    | inl u =>
        have other : u ≠ t := fun same => by simp [same, splits.settles] at settles
        exact ⟨.inl u, by rw [splits.threads u other]; exact settles⟩
    | inr k => exact ⟨.inr k.succ, by rw [splits.phantoms k]; exact settles⟩
  · apply splits.cases (P := fun r => r.erases = true → o.catch_cnt = 0) fun x _ => used.erases x
    · simp [splits.erases.1]
    · simp [splits.erases.2]

end Split

omit [DecidableEq τ] [DecidableEq A] in
theorem role_of_throws {g : Shared τ ι A} {i : ι} {point : Point ι A} (throws : Throws g i point)
    (j : ι) : (point.role j).owns = false ∧ (point.role j).settles = false ∧
      (point.role j).erases = false ∧ 0 ≤ (point.role j).uses := by
  cases throws with
  | insertion _ => simp [Point.role, Role.bystander]
  | blocking => grind [Point.role, Role.bystander]

omit [DecidableEq A] in
variable (ghost) in
theorem splits_of_throws {g : Shared τ ι A} {l : τ → Local ι A} {t : τ} {i : ι} {point : Point ι A}
    {held : Finset ι} (here : l t = ⟨point, held⟩) (throws : Throws g i point) (j : ι) :
    Splits t (fun x => (Sum.elim l ghost x).role j)
      (fun x => (Sum.elim (Function.update l t ⟨.outside, held⟩)
        (Fin.cons ⟨point, ∅⟩ ghost : Fin (n + 1) → Local ι A) x).role j) := by
  obtain ⟨owns, settles, erases, positive⟩ := role_of_throws throws j
  have nonneg : (0 : Int) ≤ if j ∈ held then 1 else 0 := by split <;> omega
  have outside : (Point.outside : Point ι A).role j = .bystander := rfl
  constructor
  case threads =>
    intro u other
    simp only [Sum.elim_inl, Function.update_of_ne other]
  case phantoms => exact fun k => rfl
  case node => simp [role_node, outside, Role.bystander, here]
  case uses =>
    simp only [Sum.elim_inl, Sum.elim_inr, Function.update_self, Fin.cons_zero, role_uses, outside,
      Role.bystander, here, Finset.notMem_empty, if_false]
    omega
  case positive =>
    simp only [Sum.elim_inl, Sum.elim_inr, Function.update_self, Fin.cons_zero, role_uses, outside,
      Role.bystander, Finset.notMem_empty, if_false]
    omega
  case owns => simp [role_owns, outside, Role.bystander, here, owns]
  case settles => simp [role_settles, here, settles]
  case erases => simp [role_erases, outside, Role.bystander, erases]

/-- Where the owner of `m_global` goes when `t` leaves its call to a new phantom. -/
def handOver (t : τ) : τ ⊕ Fin n → τ ⊕ Fin (n + 1)
  | .inl u => if u = t then .inr 0 else .inl u
  | .inr k => .inr k.succ

section HandOver

variable {t : τ} {x : τ ⊕ Fin n}

theorem handOver_ne : handOver t x ≠ .inl t := by
  cases x <;> grind [handOver]

theorem handOver_inl {u : τ} (other : u ≠ t) : handOver t x = .inl u ↔ x = .inl u := by
  cases x <;> grind [handOver]

theorem handOver_zero : handOver t x = .inr 0 ↔ x = .inl t := by
  cases x <;> grind [handOver, Fin.succ_ne_zero]

theorem handOver_succ (k : Fin n) : handOver t x = .inr k.succ ↔ x = .inr k := by
  cases x <;> grind [handOver, Fin.succ_ne_zero, Fin.succ_inj]

theorem Owner.handOver {m_global : Option τ} (owned : Owner m_global owner) (t : τ) :
    Owner m_global (owner.map (handOver t)) := by
  cases owner with
  | none => exact owned
  | some x =>
      cases x with
      | inl u =>
          have mine : m_global = some u := owned
          rcases eq_or_ne u t with rfl | other
          · simp [IndexLocker.handOver, Owner, mine]
          · simp [IndexLocker.handOver, Owner, mine, other]
      | inr k => exact owned

end HandOver

omit [DecidableEq A] in
theorem Inv.leave_behind [Fintype τ] {g : Shared τ ι A} {l : τ → Local ι A} {t : τ} {i : ι}
    {point : Point ι A} {held : Finset ι} (inv : Inv (g.among owner, Sum.elim l ghost))
    (here : l t = ⟨point, held⟩) (throws : Throws g i point) :
    Inv (g.among (owner.map (handOver t)), Sum.elim (Function.update l t ⟨.outside, held⟩)
      (Fin.cons ⟨point, ∅⟩ ghost : Fin (n + 1) → Local ι A)) := by
  have splits := splits_of_throws ghost here throws
  refine ⟨?_, ?_, ?_, ?_⟩
  · exact wellFormed_among.mpr (wellFormed_among.mp inv.wellFormed)
  · have owns (x : τ ⊕ Fin n) : owner = some x ↔ (Sum.elim l ghost x).inGlobal = true :=
      inv.global x
    intro x
    simp only [Shared.among, Option.map_eq_some_iff]
    cases x with
    | inl u =>
        rcases eq_or_ne u t with rfl | other
        · simp [handOver_ne, Local.inGlobal, Point.inGlobal]
        · simpa [handOver_inl other, Function.update_of_ne other] using owns (.inl u)
    | inr k =>
        cases k using Fin.cases with
        | zero => simpa [handOver_zero, here, Local.inGlobal] using owns (.inl t)
        | succ k => simpa [handOver_succ] using owns (.inr k)
  · intro x j
    have once := inv.once
    cases x with
    | inl u =>
        rcases eq_or_ne u t with rfl | other
        · simp [Point.role, Role.bystander]
        · simpa [Function.update_of_ne other] using once (.inl u) j
    | inr k =>
        cases k using Fin.cases with
        | zero => simp
        | succ k => simpa using once (.inr k) j
  · intro j
    have consistent := inv.index j
    simp only [slot_among] at consistent ⊢
    cases entry : g.slot j with
    | none =>
        simp only [entry, Option.map_none] at consistent ⊢
        exact consistent.split (splits j)
    | some e =>
        simp only [entry, Option.map_some] at consistent ⊢
        exact consistent.split (splits j)

end Phantoms

/-! ## The invariant of the locker with phantoms -/

section Invariant

variable [Fintype τ] {calls : Local ι A → ι → Prop} {n : Nat} {ghost : Fin n → Local ι A}
  {s : Shared τ ι A × (τ → Local ι A)}

omit [DecidableEq τ] [DecidableEq A] in
theorem haunted_initial (ghost : Fin 0 → Local ι A) (start : initial s.1 s.2) : Haunted ghost s := by
  obtain ⟨free, empty, nodes, outside⟩ := start
  constructor
  · refine ⟨none, free, inv_initial ⟨rfl, empty, fun a => ?_, fun x => ?_⟩⟩
    · simp [Shared.among, nodes]
    · cases x with
      | inl u => exact outside u
      | inr k => exact k.elim0
  · simp [nodes]

omit [DecidableEq τ] [DecidableEq A] in
theorem Haunted.wellFormed (haunted : Haunted ghost s) : s.1.WellFormed := by
  obtain ⟨owner, -, inv⟩ := haunted.inv
  exact wellFormed_among.mp inv.wellFormed

omit [DecidableEq τ] [DecidableEq A] in
/-- The node that a thread uses is that of the entry. -/
theorem Haunted.entry (haunted : Haunted ghost s) {u : τ} {i : ι} {a : A}
    (node : ((s.2 u).role i).node = some a) :
    ∃ o, s.1.m_lockers.lookup i = some a ∧ s.1.node a = some o := by
  obtain ⟨owner, -, inv⟩ := haunted.inv
  obtain ⟨o, slot, -⟩ := inv.slot_of_node (t := .inl u) node
  rw [slot_among, Option.map_eq_some_iff] at slot
  obtain ⟨⟨b, o⟩, slot, same⟩ := slot
  obtain ⟨rfl, -⟩ := Prod.mk.inj same
  exact ⟨o, slot_eq_some.mp slot⟩

omit [DecidableEq τ] [DecidableEq A] in
theorem Haunted.used (haunted : Haunted ghost s) {i : ι} {a : A} {o : SyncObject τ}
    (found : s.1.m_lockers.lookup i = some a) (object : s.1.node a = some o) :
    Used a (o.among n) fun x => (Sum.elim s.2 ghost x).role i := by
  obtain ⟨owner, -, inv⟩ := haunted.inv
  apply inv.used found
  simp [Shared.among, object]

omit [DecidableEq τ] [DecidableEq A] in
theorem Haunted.unused (haunted : Haunted ghost s) {i : ι}
    (absent : s.1.m_lockers.lookup i = none) :
    Unused fun x => (Sum.elim s.2 ghost x).role i := by
  obtain ⟨owner, -, inv⟩ := haunted.inv
  have consistent := inv.index i
  simp only [(slot_eq_none inv.wellFormed).mpr absent] at consistent
  exact consistent

omit [DecidableEq τ] [DecidableEq A] in
theorem Haunted.global_free (haunted : Haunted ghost s) :
    s.1.m_global = none ↔ ∀ x, (Sum.elim s.2 ghost x).inGlobal = false := by
  obtain ⟨owner, owned, inv⟩ := haunted.inv
  have owns (x : τ ⊕ Fin n) : owner = some x ↔ (Sum.elim s.2 ghost x).inGlobal = true :=
    inv.global x
  cases owner with
  | none =>
      have free : s.1.m_global = none := owned
      simpa [free] using owns
  | some x =>
      have inside := (owns x).mp rfl
      constructor
      · intro free
        cases x <;> simp [Owner, free] at owned
      · intro outside
        simp [outside x] at inside

omit [DecidableEq τ] [DecidableEq A] in
theorem Haunted.global_owned (haunted : Haunted ghost s) {u : τ}
    (inside : (s.2 u).inGlobal = true) : s.1.m_global = some u := by
  obtain ⟨owner, owned, inv⟩ := haunted.inv
  have owns : owner = some (.inl u) ↔ (s.2 u).inGlobal = true := inv.global (.inl u)
  rw [owns.mpr inside] at owned
  exact owned

omit [DecidableEq τ] [Fintype τ] in
theorem addressed_modify {g : Shared τ ι A} {a : A} {o o' : SyncObject τ}
    (addressed : ∀ b, (g.node b).isSome → ∃ i, g.m_lockers.lookup i = some b)
    (object : g.node a = some o) (b : A)
    (present : (Function.update g.node a (some o') b).isSome) :
    ∃ i, g.m_lockers.lookup i = some b := by
  apply addressed b
  rcases eq_or_ne b a with rfl | other
  · simp [object]
  · simpa [Function.update_of_ne other] using present

omit [DecidableEq τ] [Fintype τ] in
theorem addressed_move {t : τ} {g g' : Shared τ ι A} {p p' : Local ι A}
    (addressed : ∀ a, (g.node a).isSome → ∃ i, g.m_lockers.lookup i = some a)
    (erased : ∀ i a, p.point = .erase i a → g.m_lockers.lookup i = some a)
    (move : Move calls t g p g' p') :
    ∀ a, (g'.node a).isSome → ∃ i, g'.m_lockers.lookup i = some a := by
  cases move with
  | callLock _ | lockGlobal _ | subscript _ | tryLockFails _ | giveWay | enter => exact addressed
  | callUnlock _ | find _ | findNothing _ | relockGlobal _ | compareZero _ _ => exact addressed
  | compareNonzero _ _ | leave | callSize | sizeLock _ | sizeRead | sizeReturn => exact addressed
  | increment object | tryLock object _ | lockMtx object _ => exact addressed_modify addressed object
  | unlockMtx object | decrement object => exact addressed_modify addressed object
  | @insert held i a absent fresh =>
      intro b present
      rcases eq_or_ne b a with rfl | other
      · exact ⟨i, Finmap.lookup_insert _⟩
      · simp only [Function.update_of_ne other] at present
        obtain ⟨j, found⟩ := addressed b present
        have different : j ≠ i := fun same => by
          rw [same, absent] at found
          cases found
        exact ⟨j, by rw [Finmap.lookup_insert_of_ne _ different]; exact found⟩
  | @erase held i a =>
      intro b present
      have other : b ≠ a := fun same => by simp [same] at present
      simp only [Function.update_of_ne other] at present
      obtain ⟨j, found⟩ := addressed b present
      have different : j ≠ i := fun same => by
        rw [same, erased i a rfl, Option.some.injEq] at found
        exact other found.symm
      exact ⟨j, by rw [Finmap.lookup_erase_ne different]; exact found⟩

/-- What one step keeps, where no exception is thrown … -/
theorem Haunted.move {g g' : Shared τ ι A} {l : τ → Local ι A} {t : τ} {p next : Local ι A}
    (haunted : Haunted ghost (g, l)) (here : l t = p) (move : Move calls t g p g' next) :
    Haunted ghost (g', Function.update l t next) := by
  subst here
  constructor
  · obtain ⟨owner, owned, inv⟩ := haunted.inv
    obtain ⟨owner', owned', among⟩ := move.among owned
    have kept := inv.move (t := .inl t) among
    rw [Sum.update_elim_inl] at kept
    exact ⟨owner', owned', kept⟩
  · apply addressed_move haunted.addressed ?_ move
    intro i a erasing
    obtain ⟨o, found, -⟩ := haunted.entry (u := t) (i := i) (a := a) (by
      simp [role_node, erasing, Point.role])
    exact found

omit [DecidableEq A] in
/-- … and where one is: what the call leaves behind is a phantom's. -/
theorem Haunted.throws {g : Shared τ ι A} {l : τ → Local ι A} {t : τ} {i : ι} {point : Point ι A}
    {held : Finset ι} (haunted : Haunted ghost (g, l)) (here : l t = ⟨point, held⟩)
    (throws : Throws g i point) :
    Haunted (Fin.cons ⟨point, ∅⟩ ghost : Fin (n + 1) → Local ι A)
      (g, Function.update l t ⟨.outside, held⟩) := by
  constructor
  · obtain ⟨owner, owned, inv⟩ := haunted.inv
    exact ⟨owner.map (handOver t), owned.handOver t, inv.leave_behind here throws⟩
  · exact haunted.addressed

theorem haunted_reachable (reached : Reachable (throwing calls) s) :
    ∃ (n : Nat) (ghost : Fin n → Local ι A), Haunted ghost s := by
  induction reached with
  | init start => exact ⟨0, Fin.elim0, haunted_initial _ start⟩
  | @step s _ _ next ih =>
      obtain ⟨n, ghost, haunted⟩ := ih
      obtain ⟨t, g, p, act, rfl⟩ := next
      generalize here : s.2 t = q at act
      cases act with
      | move move => exact ⟨n, ghost, haunted.move here move⟩
      | throws throws => exact ⟨n + 1, _, haunted.throws here throws⟩

end Invariant

end KMeans.IndexLocker
