import Mathlib.Algebra.Order.BigOperators.Group.Finset
import KMeans.Threadsafe.Locks

/-! # Mutual exclusion and reference counting

The invariant is local to an index. Its slot is what the map stores for it, the role
of a thread is what its program point says about the index, and slot and roles of
one index are enough to state that the counter counts, that the owner of the mutex
owns it, and that the references are to the node in the slot. An action of a thread
changes the slot and its role for one index only.
-/

namespace KMeans.IndexLocker

open Transition

variable {τ ι A : Type} [DecidableEq ι]

/-! ## Roles -/

/-- What a program point has to do with one index. -/
structure Role (A : Type) where
  /-- The node that the thread is about to use. -/
  node : Option A
  /-- How often the thread is counted. -/
  uses : Int
  /-- Whether the thread owns the mutex. -/
  owns : Bool
  /-- Whether the thread accounts for an entry whose counter is zero. -/
  settles : Bool
  /-- Whether the thread has found the counter to be zero. -/
  erases : Bool

/-- The role of a thread that has nothing to do with the index. -/
def Role.bystander : Role A := ⟨none, 0, false, false, false⟩

def Point.role (i : ι) : Point ι A → Role A
  | .increment j a => if j = i then ⟨some a, 0, false, true, false⟩ else .bystander
  | .tryLock j a | .giveWay j a | .lockMtx j a | .relockGlobal j a | .decrement j a =>
      if j = i then ⟨some a, 1, false, false, false⟩ else .bystander
  | .enter j a | .unlockMtx j a => if j = i then ⟨some a, 1, true, false, false⟩ else .bystander
  | .find j => if j = i then ⟨none, 1, true, false, false⟩ else .bystander
  | .compare j a => if j = i then ⟨some a, 0, false, true, false⟩ else .bystander
  | .erase j a => if j = i then ⟨some a, 0, false, true, true⟩ else .bystander
  | _ => .bystander

/-- Holding an index counts as one more use, and as owning its mutex. -/
def Local.role (i : ι) (l : Local ι A) : Role A :=
  if i ∈ l.held then
    { l.point.role i with uses := (l.point.role i).uses + 1, owns := true }
  else l.point.role i

/-- The program points between `m_global.lock()` and `m_global.unlock()`. -/
def Point.inGlobal : Point ι A → Bool
  | .subscript _ | .increment _ _ | .tryLock _ _ | .giveWay _ _ | .enter _ _ => true
  | .decrement _ _ | .compare _ _ | .erase _ _ | .leave | .sizeRead | .sizeReturn _ => true
  | _ => false

def Local.inGlobal (l : Local ι A) : Bool := l.point.inGlobal

/-! ## Slots -/

/-- The address and the object that the map has for an index. -/
def Shared.slot (g : Shared τ ι A) (i : ι) : Option (A × SyncObject τ) :=
  (g.m_lockers.lookup i).bind fun a => (g.node a).map fun o => (a, o)

/-- Every entry has a node, and no two entries share one. -/
structure Shared.WellFormed (g : Shared τ ι A) : Prop where
  live : ∀ i a, g.m_lockers.lookup i = some a → (g.node a).isSome
  apart : ∀ i j a, g.m_lockers.lookup i = some a → g.m_lockers.lookup j = some a → i = j

theorem slot_eq_some {g : Shared τ ι A} {i : ι} {a : A} {o : SyncObject τ} :
    g.slot i = some (a, o) ↔ g.m_lockers.lookup i = some a ∧ g.node a = some o := by
  simp [Shared.slot, Option.bind_eq_some_iff]

theorem Shared.WellFormed.object {g : Shared τ ι A} (wf : g.WellFormed) {i : ι} {a : A}
    (found : g.m_lockers.lookup i = some a) : ∃ o, g.node a = some o :=
  Option.isSome_iff_exists.mp (wf.live i a found)

theorem slot_eq_none {g : Shared τ ι A} (wf : g.WellFormed) {i : ι} :
    g.slot i = none ↔ g.m_lockers.lookup i = none := by
  cases found : g.m_lockers.lookup i with
  | none => simp [Shared.slot, found]
  | some a =>
      obtain ⟨o, object⟩ := wf.object found
      simp [Shared.slot, found, object]

theorem lookup_insert_eq (m : Finmap fun _ : ι => A) (i j : ι) (a : A) :
    (m.insert i a).lookup j = if j = i then some a else m.lookup j := by
  split
  case isTrue same => rw [same, Finmap.lookup_insert]
  case isFalse other => exact Finmap.lookup_insert_of_ne m other

theorem lookup_erase_eq (m : Finmap fun _ : ι => A) (i j : ι) :
    (m.erase i).lookup j = if j = i then none else m.lookup j := by
  split
  case isTrue same => rw [same, Finmap.lookup_erase]
  case isFalse other => exact Finmap.lookup_erase_ne other

section Effects

variable [DecidableEq A] {g : Shared τ ι A} (wf : g.WellFormed) {i : ι} {a : A}

include wf

theorem Shared.WellFormed.insert (fresh : g.node a = none) (o : SyncObject τ) :
    Shared.WellFormed { g with
      m_lockers := g.m_lockers.insert i a
      node := Function.update g.node a (some o) } := by
  have unused : ∀ j, g.m_lockers.lookup j ≠ some a := fun j found => by
    simpa [fresh] using wf.live j a found
  constructor
  · intro j b found
    rw [lookup_insert_eq] at found
    grind [Function.update_apply, wf.live]
  · intro j k b found same
    rw [lookup_insert_eq] at found same
    grind [wf.apart]

theorem slot_insert (fresh : g.node a = none) (o : SyncObject τ) :
    Shared.slot { g with
      m_lockers := g.m_lockers.insert i a
      node := Function.update g.node a (some o) } = Function.update g.slot i (some (a, o)) := by
  funext j
  rcases eq_or_ne j i with rfl | other
  · simp [Shared.slot]
  · have unused : g.m_lockers.lookup j ≠ some a := fun found => by
      simpa [fresh] using wf.live j a found
    rw [Function.update_of_ne other, Shared.slot, Shared.slot, lookup_insert_eq, if_neg other]
    cases found : g.m_lockers.lookup j with
    | none => rfl
    | some b =>
        have different : b ≠ a := fun same => unused (same ▸ found)
        simp [Function.update_of_ne different]

theorem Shared.WellFormed.modify (o : SyncObject τ) :
    Shared.WellFormed { g with node := Function.update g.node a (some o) } := by
  refine ⟨fun j b found => ?_, wf.apart⟩
  grind [Function.update_apply, wf.live]

theorem slot_modify (found : g.m_lockers.lookup i = some a) (o : SyncObject τ) :
    Shared.slot { g with node := Function.update g.node a (some o) } =
      Function.update g.slot i (some (a, o)) := by
  funext j
  rcases eq_or_ne j i with rfl | other
  · simp [Shared.slot, found]
  · rw [Function.update_of_ne other, Shared.slot, Shared.slot]
    cases at_j : g.m_lockers.lookup j with
    | none => rfl
    | some b =>
        have different : b ≠ a := fun same => other (wf.apart j i a (same ▸ at_j) found)
        simp [Function.update_of_ne different]

theorem Shared.WellFormed.erase (found : g.m_lockers.lookup i = some a) :
    Shared.WellFormed { g with
      m_lockers := g.m_lockers.erase i
      node := Function.update g.node a none } := by
  constructor
  · intro j b at_j
    rw [lookup_erase_eq] at at_j
    grind [Function.update_apply, wf.live, wf.apart]
  · intro j k b at_j at_k
    rw [lookup_erase_eq] at at_j at_k
    grind [wf.apart]

theorem slot_erase (found : g.m_lockers.lookup i = some a) :
    Shared.slot { g with
      m_lockers := g.m_lockers.erase i
      node := Function.update g.node a none } = Function.update g.slot i none := by
  funext j
  rcases eq_or_ne j i with rfl | other
  · simp [Shared.slot]
  · rw [Function.update_of_ne other, Shared.slot, Shared.slot, lookup_erase_eq, if_neg other]
    cases at_j : g.m_lockers.lookup j with
    | none => rfl
    | some b =>
        have different : b ≠ a := fun same => other (wf.apart j i a (same ▸ at_j) found)
        simp [Function.update_of_ne different]

end Effects

/-! ## The invariant -/

section Index

variable [Fintype τ]

/-- An index without an entry: no thread has anything to do with it. -/
structure Unused (roles : τ → Role A) : Prop where
  node : ∀ t, (roles t).node = none
  uses : ∀ t, (roles t).uses = 0

/-- An index whose entry is the object `o` at the address `a`. -/
structure Used (a : A) (o : SyncObject τ) (roles : τ → Role A) : Prop where
  node : ∀ t b, (roles t).node = some b → b = a
  owner : Owned o.mtx fun t => (roles t).owns
  count : o.catch_cnt = ∑ t, (roles t).uses
  settled : o.catch_cnt = 0 → ∃ t, (roles t).settles = true
  erases : ∀ t, (roles t).erases = true → o.catch_cnt = 0

/-- The invariant of one index. -/
def Consistent : Option (A × SyncObject τ) → (τ → Role A) → Prop
  | none, roles => Unused roles
  | some (a, o), roles => Used a o roles

variable [DecidableEq τ]

/-- Thread `t` takes the role `r` and the object becomes `o'`: the mutex follows the
    ownership and the counter the uses. -/
theorem Used.move {a : A} {o o' : SyncObject τ} {roles : τ → Role A} (used : Used a o roles)
    {t : τ} {r : Role A} (node : ∀ b, r.node = some b → b = a)
    (owner : LockMove t o.mtx o'.mtx (roles t).owns r.owns)
    (count : o'.catch_cnt = o.catch_cnt + (r.uses - (roles t).uses))
    (settled : o'.catch_cnt = 0 → r.settles = true ∨ (o.catch_cnt = 0 ∧ (roles t).settles = false))
    (erases : r.erases = true → o'.catch_cnt = 0)
    (others : o'.catch_cnt = o.catch_cnt ∨ ∀ u ≠ t, (roles u).erases = false) :
    Used a o' (Function.update roles t r) := by
  have elsewhere : ∀ u ≠ t, Function.update roles t r u = roles u := fun u other =>
    Function.update_of_ne other r roles
  have here : Function.update roles t r t = r := Function.update_self t r roles
  constructor
  · intro u b
    rcases eq_or_ne u t with rfl | other
    · rw [here]
      exact node b
    · rw [elsewhere u other]
      exact used.node u b
  · exact used.owner.move owner
  · rw [count, used.count, sum_update Role.uses roles t r]
  · intro zero
    rcases settled zero with mine | ⟨before, notMine⟩
    · exact ⟨t, by rw [here]; exact mine⟩
    · obtain ⟨u, settles⟩ := used.settled before
      have other : u ≠ t := fun same => by simp [← same, settles] at notMine
      exact ⟨u, by rw [elsewhere u other]; exact settles⟩
  · intro u
    rcases eq_or_ne u t with rfl | other
    · rw [here]
      exact erases
    · rw [elsewhere u other]
      intro erasing
      rcases others with same | none
      · rw [same]
        exact used.erases u erasing
      · simp [none u other] at erasing

end Index

/-- The invariant of the whole locker. -/
structure Inv [Fintype τ] (s : Shared τ ι A × (τ → Local ι A)) : Prop where
  wellFormed : s.1.WellFormed
  global : Owned s.1.m_global fun t => (s.2 t).inGlobal
  once : ∀ t i, ((s.2 t).point.role i).owns = true → i ∉ (s.2 t).held
  index : ∀ i, Consistent (s.1.slot i) fun t => (s.2 t).role i

section Step

variable [Fintype τ] [DecidableEq τ] {g g' : Shared τ ι A} {l : τ → Local ι A} {t : τ}
  {next : Local ι A}

theorem Inv.step (inv : Inv (g, l)) (wellFormed : g'.WellFormed)
    (global : LockMove t g.m_global g'.m_global (l t).inGlobal next.inGlobal)
    (once : ∀ i, (next.point.role i).owns = true → i ∉ next.held)
    (index : ∀ i, Consistent (g'.slot i)
      (Function.update (fun u => (l u).role i) t (next.role i))) :
    Inv (g', Function.update l t next) := by
  refine ⟨wellFormed, inv.global.move global, ?_, ?_⟩
  · intro u i
    rcases eq_or_ne u t with rfl | other
    · simp only [Function.update_self]
      exact once i
    · simp only [Function.update_of_ne other]
      exact inv.once u i
  · intro i
    have changed : (fun u => (Function.update l t next u).role i) =
        Function.update (fun u => (l u).role i) t (next.role i) := by
      funext u
      exact Function.apply_update (fun _ p => Local.role i p) l t next u
    simp only [changed]
    exact index i

theorem Inv.quiet (inv : Inv (g, l)) (wellFormed : g'.WellFormed) (slots : g'.slot = g.slot)
    (global : LockMove t g.m_global g'.m_global (l t).inGlobal next.inGlobal)
    (once : ∀ i, (next.point.role i).owns = true → i ∉ next.held)
    (roles : ∀ i, next.role i = (l t).role i) : Inv (g', Function.update l t next) := by
  refine inv.step wellFormed global once fun i => ?_
  rw [slots, roles i, Function.update_eq_self]
  exact inv.index i

theorem Inv.step_at (inv : Inv (g, l)) (wellFormed : g'.WellFormed)
    (global : LockMove t g.m_global g'.m_global (l t).inGlobal next.inGlobal)
    (once : ∀ i, (next.point.role i).owns = true → i ∉ next.held) {i : ι}
    {v : Option (A × SyncObject τ)} (slots : g'.slot = Function.update g.slot i v)
    (roles : ∀ j ≠ i, next.role j = (l t).role j)
    (here : Consistent v (Function.update (fun u => (l u).role i) t (next.role i))) :
    Inv (g', Function.update l t next) := by
  refine inv.step wellFormed global once fun j => ?_
  rcases eq_or_ne j i with rfl | other
  · rw [slots, Function.update_self]
    exact here
  · rw [slots, Function.update_of_ne other, roles j other, Function.update_eq_self]
    exact inv.index j

theorem inGlobal_of_settles {i : ι} {p : Local ι A} (settles : (p.role i).settles = true) :
    p.inGlobal = true := by
  obtain ⟨point, held⟩ := p
  cases point <;> grind [Local.role, Point.role, Role.bystander, Local.inGlobal, Point.inGlobal]

theorem inGlobal_of_erases {i : ι} {p : Local ι A} (erases : (p.role i).erases = true) :
    p.inGlobal = true := by
  obtain ⟨point, held⟩ := p
  cases point <;> grind [Local.role, Point.role, Role.bystander, Local.inGlobal, Point.inGlobal]

theorem uses_nonneg (i : ι) (p : Local ι A) : 0 ≤ (p.role i).uses := by
  obtain ⟨point, held⟩ := p
  cases point <;> grind [Local.role, Point.role, Role.bystander]

theorem uses_pos_or_inGlobal_of_node {i : ι} {p : Local ι A} {a : A}
    (node : (p.role i).node = some a) : 0 < (p.role i).uses ∨ p.inGlobal = true := by
  obtain ⟨point, held⟩ := p
  cases point <;> grind [Local.role, Point.role, Role.bystander, Local.inGlobal, Point.inGlobal]

theorem uses_pos_of_owns {i : ι} {p : Local ι A} (owns : (p.role i).owns = true) :
    0 < (p.role i).uses := by
  obtain ⟨point, held⟩ := p
  cases point <;> grind [Local.role, Point.role, Role.bystander]

omit [DecidableEq τ] in
/-- A node that a thread is about to use is the one in the slot. -/
theorem Inv.slot_of_node (inv : Inv (g, l)) {i : ι} {a : A}
    (node : ((l t).role i).node = some a) : ∃ o, g.slot i = some (a, o) ∧
      Used a o fun u => (l u).role i := by
  have consistent := inv.index i
  cases entry : g.slot i with
  | none =>
      simp only [entry] at consistent
      simpa [node] using consistent.node t
  | some e =>
      obtain ⟨b, o⟩ := e
      simp only [entry] at consistent
      obtain rfl : a = b := consistent.node t a node
      exact ⟨o, rfl, consistent⟩

omit [DecidableEq τ] in
theorem Inv.not_owns (inv : Inv (g, l)) {i : ι} {a : A} {o : SyncObject τ}
    (node : ((l t).role i).node = some a) (object : g.node a = some o) (free : o.mtx = none) :
    ((l t).role i).owns = false := by
  obtain ⟨o₀, entry, used⟩ := inv.slot_of_node node
  obtain rfl : o = o₀ := Option.some.inj (object.symm.trans (slot_eq_some.mp entry).2)
  have owner : o.mtx = some t ↔ ((l t).role i).owns = true := used.owner t
  simpa [free] using owner

theorem Inv.use_node [DecidableEq A] (inv : Inv (g, l)) {i : ι} {a : A} {o o' : SyncObject τ}
    (node : ((l t).role i).node = some a) (object : g.node a = some o)
    (global : (l t).inGlobal = next.inGlobal)
    (once : ∀ i, (next.point.role i).owns = true → i ∉ next.held)
    (roles : ∀ j ≠ i, next.role j = (l t).role j)
    (here : 0 ≤ o.catch_cnt → Used a o (fun u => (l u).role i) →
      Used a o' (Function.update (fun u => (l u).role i) t (next.role i))) :
    Inv ({ g with node := Function.update g.node a (some o') }, Function.update l t next) := by
  obtain ⟨o₀, entry, used⟩ := inv.slot_of_node node
  obtain ⟨found, at_a⟩ := slot_eq_some.mp entry
  obtain rfl : o = o₀ := Option.some.inj (object.symm.trans at_a)
  have counted : 0 ≤ o.catch_cnt := by
    rw [used.count]
    exact Finset.sum_nonneg fun u _ => uses_nonneg i (l u)
  exact inv.step_at (inv.wellFormed.modify o') (.of_eq global) once
    (slot_modify inv.wellFormed found o') roles (here counted used)

/-- A step after which thread `t` has another role for index `i`, whose entry stays. -/
theorem Inv.turn_to (inv : Inv (g, l)) {i : ι} {a : A} {o : SyncObject τ}
    (entry : g.slot i = some (a, o)) (same : g'.slot = g.slot) (wellFormed : g'.WellFormed)
    (global : LockMove t g.m_global g'.m_global (l t).inGlobal next.inGlobal)
    (once : ∀ i, (next.point.role i).owns = true → i ∉ next.held)
    (roles : ∀ j ≠ i, next.role j = (l t).role j)
    (node : ∀ b, (next.role i).node = some b → b = a)
    (owns : ((l t).role i).owns = (next.role i).owns)
    (uses : ((l t).role i).uses = (next.role i).uses)
    (settles : o.catch_cnt = 0 → ((l t).role i).settles = true → (next.role i).settles = true)
    (erases : (next.role i).erases = true → o.catch_cnt = 0) :
    Inv (g', Function.update l t next) := by
  have used := inv.index i
  simp only [entry] at used
  refine inv.step_at wellFormed global once (i := i) (v := some (a, o)) ?_ roles
    (used.move node (.of_eq owns) (by omega) (fun zero => ?_) erases (Or.inl rfl))
  · rw [same, ← entry, Function.update_eq_self]
  · rcases Bool.eq_false_or_eq_true ((l t).role i).settles with mine | notMine
    · exact Or.inl (settles zero mine)
    · exact Or.inr ⟨zero, notMine⟩

end Step

/-! ## The actions keep it -/

section Actions

variable [Fintype τ] [DecidableEq τ] [DecidableEq A] {g : Shared τ ι A} {l : τ → Local ι A} {t : τ}
  {i : ι} {a : A} {o : SyncObject τ} {held : Finset ι}

omit [DecidableEq τ] [DecidableEq A] in
theorem Inv.no_other_erases (inv : Inv (g, l)) (mine : (l t).inGlobal = true) (i : ι) (u : τ)
    (other : u ≠ t) : ((l u).role i).erases = false := by
  by_contra erases
  have yours : (l u).inGlobal = true := inGlobal_of_erases ((Bool.not_eq_false _).mp erases)
  exact other (inv.global.unique yours mine)

theorem Inv.create (inv : Inv (g, l)) (mine : l t = ⟨.subscript i, held⟩)
    (absent : g.m_lockers.lookup i = none) (fresh : g.node a = none) :
    Inv ({ g with
      m_lockers := g.m_lockers.insert i a
      node := Function.update g.node a (some .make) },
      Function.update l t ⟨.increment i a, held⟩) := by
  have unused := inv.index i
  simp only [(slot_eq_none inv.wellFormed).mpr absent] at unused
  have next : (Local.role i ⟨.increment i a, held⟩) = ⟨some a, 0, false, true, false⟩ := by
    have none := unused.uses t
    grind [Local.role, Point.role, Role.bystander]
  refine inv.step_at (inv.wellFormed.insert fresh _) (.of_eq (by rw [mine]; rfl)) ?_
    (slot_insert inv.wellFormed fresh _) ?_ ?_
  · grind [Point.role, Role.bystander]
  · grind [Local.role, Point.role]
  · rw [next]
    constructor
    · intro u b
      rcases eq_or_ne u t with rfl | other
      · simp only [Function.update_self, Option.some.injEq]
        exact Eq.symm
      · simp [Function.update_of_ne other, unused.node u]
    · intro u
      have idle : ((l u).role i).owns = false := by
        by_contra owns
        have uses := uses_pos_of_owns ((Bool.not_eq_false _).mp owns)
        have none := unused.uses u
        omega
      rcases eq_or_ne u t with rfl | other
      · simp [SyncObject.make]
      · simp [SyncObject.make, Function.update_of_ne other, idle]
    · rw [sum_update Role.uses, unused.uses t]
      simp [SyncObject.make, unused.uses]
    · exact fun _ => ⟨t, by rw [Function.update_self]⟩
    · exact fun _ _ => rfl

theorem Inv.increment (inv : Inv (g, l)) (mine : l t = ⟨.increment i a, held⟩)
    (object : g.node a = some o) :
    Inv ({ g with node := Function.update g.node a (some { o with catch_cnt := o.catch_cnt + 1 }) },
      Function.update l t ⟨.tryLock i a, held⟩) := by
  have others := inv.no_other_erases (by rw [mine]; rfl) i
  refine inv.use_node (i := i) ?_ object (by rw [mine]; rfl) ?_ ?_ fun counted used =>
    used.move ?_ (.of_eq ?_) ?_ ?_ ?_ (Or.inr others)
  · grind [Local.role, Point.role]
  · grind [Point.role, Role.bystander]
  · grind [Local.role, Point.role]
  · grind [Local.role, Point.role]
  · grind [Local.role, Point.role]
  · grind [Local.role, Point.role]
  · intro zero
    simp only at zero
    omega
  · grind [Local.role, Point.role]

/-- Both ways to lock the mutex of index `i`. -/
theorem Inv.acquire (inv : Inv (g, l)) (object : g.node a = some o) (free : o.mtx = none)
    (before : (l t).role i = ⟨some a, 1, false, false, false⟩) {next : Local ι A}
    {node : Option A} (after : next.role i = ⟨node, 1, true, false, false⟩)
    (same : ∀ b, node = some b → b = a) (global : (l t).inGlobal = next.inGlobal)
    (once : ∀ j, (next.point.role j).owns = true → j ∉ next.held)
    (roles : ∀ j ≠ i, next.role j = (l t).role j) :
    Inv ({ g with node := Function.update g.node a (some { o with mtx := some t }) },
      Function.update l t next) := by
  refine inv.use_node (by rw [before]) object global once roles fun _ used =>
    used.move ?_ ?_ ?_ ?_ ?_ (Or.inl rfl)
  · rw [after]
    exact same
  · rw [before, after, free]
    exact .acquire
  · rw [before, after]
    simp
  · rw [before]
    exact fun zero => Or.inr ⟨zero, rfl⟩
  · simp [after]

theorem Inv.tryLock (inv : Inv (g, l)) (mine : l t = ⟨.tryLock i a, held⟩)
    (object : g.node a = some o) (free : o.mtx = none) :
    Inv ({ g with node := Function.update g.node a (some { o with mtx := some t }) },
      Function.update l t ⟨.enter i a, held⟩) := by
  have node : ((l t).role i).node = some a := by grind [Local.role, Point.role]
  have notMine := inv.not_owns node object free
  have before : (l t).role i = ⟨some a, 1, false, false, false⟩ := by
    grind [Local.role, Point.role]
  have after : Local.role i ⟨.enter i a, held⟩ = ⟨some a, 1, true, false, false⟩ := by
    grind [Local.role, Point.role]
  refine inv.acquire object free before after (by simp) (by rw [mine]; rfl) ?_ ?_
  · grind [Local.role, Point.role, Role.bystander]
  · grind [Local.role, Point.role]

theorem Inv.lockMtx (inv : Inv (g, l)) (mine : l t = ⟨.lockMtx i a, held⟩)
    (object : g.node a = some o) (free : o.mtx = none) :
    Inv ({ g with node := Function.update g.node a (some { o with mtx := some t }) },
      Function.update l t ⟨.outside, insert i held⟩) := by
  have node : ((l t).role i).node = some a := by grind [Local.role, Point.role]
  have notMine := inv.not_owns node object free
  have before : (l t).role i = ⟨some a, 1, false, false, false⟩ := by
    grind [Local.role, Point.role]
  have after : Local.role i ⟨.outside, insert i held⟩ =
      (⟨none, 1, true, false, false⟩ : Role A) := by
    simp [Local.role, Point.role, Role.bystander]
  refine inv.acquire object free before after (by simp) (by rw [mine]; rfl) ?_ ?_
  · simp [Point.role, Role.bystander]
  · grind [Local.role, Point.role]

theorem Inv.unlockMtx (inv : Inv (g, l)) (mine : l t = ⟨.unlockMtx i a, held⟩)
    (object : g.node a = some o) :
    Inv ({ g with node := Function.update g.node a (some { o with mtx := none }) },
      Function.update l t ⟨.relockGlobal i a, held⟩) := by
  have once : ((l t).point.role i).owns = true → i ∉ (l t).held := inv.once t i
  have before : (l t).role i = ⟨some a, 1, true, false, false⟩ := by
    grind [Local.role, Point.role]
  have after : Local.role i ⟨.relockGlobal i a, held⟩ = ⟨some a, 1, false, false, false⟩ := by
    grind [Local.role, Point.role]
  refine inv.use_node (by rw [before]) object (by rw [mine]; rfl) ?_ ?_ fun _ used =>
    used.move ?_ ?_ ?_ ?_ ?_ (Or.inl rfl)
  · grind [Point.role, Role.bystander]
  · grind [Local.role, Point.role]
  · simp [after]
  · rw [before, after]
    exact .release
  · rw [before, after]
    simp
  · rw [before]
    exact fun zero => Or.inr ⟨zero, rfl⟩
  · simp [after]

theorem Inv.decrement (inv : Inv (g, l)) (mine : l t = ⟨.decrement i a, held⟩)
    (object : g.node a = some o) :
    Inv ({ g with node := Function.update g.node a (some { o with catch_cnt := o.catch_cnt - 1 }) },
      Function.update l t ⟨.compare i a, held⟩) := by
  have others := inv.no_other_erases (by rw [mine]; rfl) i
  refine inv.use_node (i := i) ?_ object (by rw [mine]; rfl) ?_ ?_ fun _ used =>
    used.move ?_ (.of_eq ?_) ?_ ?_ ?_ (Or.inr others)
  · grind [Local.role, Point.role]
  · grind [Point.role, Role.bystander]
  · grind [Local.role, Point.role]
  · grind [Local.role, Point.role]
  · grind [Local.role, Point.role]
  · grind [Local.role, Point.role]
  · exact fun _ => Or.inl (by grind [Local.role, Point.role])
  · grind [Local.role, Point.role]

omit [DecidableEq τ] [DecidableEq A] in
/-- A thread that is about to erase the entry of `i` is the only one concerned with it. -/
theorem Inv.alone (inv : Inv (g, l)) (mine : (l t).point = .erase i a) : ∃ o,
    g.slot i = some (a, o) ∧ o.mtx = none ∧ (∀ u, ((l u).role i).uses = 0) ∧
      ∀ u ≠ t, ((l u).role i).node = none := by
  obtain ⟨o, entry, used⟩ := inv.slot_of_node (t := t) (i := i) (a := a)
    (by grind [Local.role, Point.role])
  have zero : o.catch_cnt = 0 := used.erases t (by grind [Local.role, Point.role])
  have none : ∀ u, ((l u).role i).uses = 0 := fun u =>
    (Finset.sum_eq_zero_iff_of_nonneg fun u _ => uses_nonneg i (l u)).mp
      (used.count.symm.trans zero) u (Finset.mem_univ u)
  refine ⟨o, entry, Option.eq_none_iff_forall_ne_some.mpr fun u owner => ?_, none, ?_⟩
  · have uses := uses_pos_of_owns ((used.owner u).mp owner)
    exact absurd (none u) (by omega)
  · intro u other
    refine Option.eq_none_iff_forall_ne_some.mpr fun b node => ?_
    have owner : (l t).inGlobal = true := by rw [Local.inGlobal, mine]; rfl
    rcases uses_pos_or_inGlobal_of_node node with uses | yours
    · exact absurd (none u) (by omega)
    · exact other (inv.global.unique yours owner)

theorem Inv.erase (inv : Inv (g, l)) (mine : l t = ⟨.erase i a, held⟩) :
    Inv ({ g with
      m_lockers := g.m_lockers.erase i
      node := Function.update g.node a none },
      Function.update l t ⟨.leave, held⟩) := by
  obtain ⟨o, entry, -, none, others⟩ := inv.alone (t := t) (i := i) (a := a) (by rw [mine])
  have found := (slot_eq_some.mp entry).1
  have after : Local.role i ⟨.leave, held⟩ = (Role.bystander : Role A) := by
    have mine := none t
    grind [Local.role, Point.role, Role.bystander]
  refine inv.step_at (inv.wellFormed.erase found) (.of_eq (by rw [mine]; rfl)) ?_
    (slot_erase inv.wellFormed found) ?_ ?_
  · simp [Point.role, Role.bystander]
  · grind [Local.role, Point.role]
  · rw [after]
    constructor <;> intro u <;> rcases eq_or_ne u t with rfl | other
    · rw [Function.update_self, Role.bystander]
    · rw [Function.update_of_ne other, others u other]
    · rw [Function.update_self, Role.bystander]
    · rw [Function.update_of_ne other, none u]

end Actions

theorem Inv.move [Fintype τ] [DecidableEq τ] [DecidableEq A] {calls : Local ι A → ι → Prop}
    {g g' : Shared τ ι A} {l : τ → Local ι A} {t : τ} {next : Local ι A} (inv : Inv (g, l))
    (move : Move calls t g (l t) g' next) : Inv (g', Function.update l t next) := by
  have once : ∀ i, ((l t).point.role i).owns = true → i ∉ (l t).held := inv.once t
  have wf := inv.wellFormed
  generalize mine : l t = p at move once
  cases move with
  | callLock _ | callSize | sizeRead | tryLockFails _ =>
      exact inv.quiet wf rfl (by rw [mine]; exact .still) once fun i => by rw [mine]; rfl
  | lockGlobal free | sizeLock free | relockGlobal free =>
      refine inv.quiet ⟨wf.live, wf.apart⟩ rfl ?_ once fun i => by rw [mine]; rfl
      rw [mine, free]
      exact .acquire
  | giveWay | leave | sizeReturn =>
      exact inv.quiet ⟨wf.live, wf.apart⟩ rfl (by rw [mine]; exact .release) once fun i => by
        rw [mine]; rfl
  | callUnlock holds =>
      refine inv.quiet wf rfl (by rw [mine]; exact .still) ?_ ?_ <;>
        grind [Local.role, Point.role, Role.bystander]
  | @subscript held i a found =>
      obtain ⟨o, object⟩ := wf.object found
      refine inv.turn_to (slot_eq_some.mpr ⟨found, object⟩) rfl wf (by rw [mine]; exact .still) ?_ ?_
        ?_ ?_ ?_ ?_ ?_ <;> grind [Local.role, Point.role, Role.bystander]
  | insert absent fresh => exact inv.create mine absent fresh
  | increment object => exact inv.increment mine object
  | tryLock object free => exact inv.tryLock mine object free
  | lockMtx object free => exact inv.lockMtx mine object free
  | @enter held i a =>
      obtain ⟨o, entry, -⟩ := inv.slot_of_node (t := t) (i := i) (a := a)
        (by grind [Local.role, Point.role])
      refine inv.turn_to entry rfl ⟨wf.live, wf.apart⟩ (by rw [mine]; exact .release) ?_ ?_
        ?_ ?_ ?_ ?_ ?_ <;> grind [Local.role, Point.role, Role.bystander]
  | @find held i a found =>
      obtain ⟨o, object⟩ := wf.object found
      refine inv.turn_to (slot_eq_some.mpr ⟨found, object⟩) rfl wf (by rw [mine]; exact .still) ?_ ?_
        ?_ ?_ ?_ ?_ ?_ <;> grind [Local.role, Point.role, Role.bystander]
  | @findNothing held i absent =>
      have unused := inv.index i
      simp only [(slot_eq_none wf).mpr absent] at unused
      have none := unused.uses t
      grind [Local.role, Point.role]
  | unlockMtx object => exact inv.unlockMtx mine object
  | decrement object => exact inv.decrement mine object
  | @compareZero held i a o object zero =>
      obtain ⟨o₀, entry, -⟩ := inv.slot_of_node (t := t) (i := i) (a := a)
        (by grind [Local.role, Point.role])
      have same := object.symm.trans (slot_eq_some.mp entry).2
      refine inv.turn_to entry rfl wf (by rw [mine]; exact .still) ?_ ?_
        ?_ ?_ ?_ ?_ ?_ <;> grind [Local.role, Point.role, Role.bystander]
  | @compareNonzero held i a o object nonzero =>
      obtain ⟨o₀, entry, -⟩ := inv.slot_of_node (t := t) (i := i) (a := a)
        (by grind [Local.role, Point.role])
      have same := object.symm.trans (slot_eq_some.mp entry).2
      refine inv.turn_to entry rfl wf (by rw [mine]; exact .still) ?_ ?_
        ?_ ?_ ?_ ?_ ?_ <;> grind [Local.role, Point.role, Role.bystander]
  | erase => exact inv.erase mine

end KMeans.IndexLocker
