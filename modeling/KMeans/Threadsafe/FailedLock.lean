import KMeans.Threadsafe.LockExceptions
import KMeans.Threadsafe.LockProgress

/-! # After a call of `lock` that threw

A state is compared with one that the locker would have been in without the call: the
other threads do the same in both, and the thread does not call. Roles decide both
states: a count is the number of uses, so it differs by what the call has counted.
-/

namespace KMeans.IndexLocker

open Transition

variable {τ ι A : Type} [DecidableEq τ] [DecidableEq ι] [DecidableEq A]

/-- Equal but for the value that `size` is about to return. -/
inductive Alike : Local ι A → Local ι A → Prop
  | same {p} : Alike p p
  | size {m n held} : Alike ⟨.sizeReturn m, held⟩ ⟨.sizeReturn n, held⟩

/-- In the first state thread `t` is inside of `lock(index)`, and in the second one the locker
    is as it would be had `t` not called. -/
inductive Without (calls : Local ι A → ι → Prop) (t : τ) (index : ι) :
    Shared τ ι A × (τ → Local ι A) → Shared τ ι A × (τ → Local ι A) → Prop
  /-- `t` calls, or does not. -/
  | call {s held} : Reachable (throwing calls) s → s.2 t = ⟨.outside, held⟩ →
      calls ⟨.outside, held⟩ index →
      Without calls t index (s.1, Function.update s.2 t ⟨.lockGlobal index, held⟩) s
  /-- `t` goes on in its call. -/
  | inside {s s₀ g p} : Without calls t index s s₀ → FaultyMove calls t s.1 (s.2 t) g p →
      p.point.locking = some index → Without calls t index (g, Function.update s.2 t p) s₀
  /-- Another thread does the same in both states. -/
  | other {s s₀ u g p g₀ p₀} : Without calls t index s s₀ → u ≠ t →
      FaultyMove calls u s.1 (s.2 u) g p → FaultyMove calls u s₀.1 (s₀.2 u) g₀ p₀ → Alike p p₀ →
      Without calls t index (g, Function.update s.2 u p) (g₀, Function.update s₀.2 u p₀)
  /-- Another thread finds a counter that is zero only without the call, and erases the entry. -/
  | erases {s s₀ u i a held g₀} : Without calls t index s s₀ → u ≠ t →
      s.2 u = ⟨.compare i a, held⟩ → s₀.2 u = ⟨.compare i a, held⟩ →
      Move calls u s.1 ⟨.compare i a, held⟩ s.1 ⟨.leave, held⟩ →
      Move calls u s₀.1 ⟨.compare i a, held⟩ s₀.1 ⟨.erase i a, held⟩ →
      Move calls u s₀.1 ⟨.erase i a, held⟩ g₀ ⟨.leave, held⟩ →
      Without calls t index (s.1, Function.update s.2 u ⟨.leave, held⟩)
        (g₀, Function.update s₀.2 u ⟨.leave, held⟩)

/-- The second state is one that the locker can really be in. -/
theorem Without.reachable {calls : Local ι A → ι → Prop} {t : τ} {index : ι}
    {s s₀ : Shared τ ι A × (τ → Local ι A)} (without : Without calls t index s s₀) :
    Reachable (throwing calls) s₀ := by
  induction without with
  | call reached _ _ => exact reached
  | inside _ _ _ ih => exact ih
  | other _ _ _ act₀ _ ih => exact ih.move rfl act₀
  | erases _ _ _ here₀ _ finds erases ih =>
      have found := ih.move here₀ (.move finds)
      have erased := found.move (Function.update_self ..) (.move erases)
      rwa [Function.update_idem] at erased

/-- The call of `lock(index)` by thread `t` exits with an exception. -/
def Fails (t : τ) (index : ι) (s s' : Shared τ ι A × (τ → Local ι A)) : Prop :=
  ∃ point held, s.2 t = ⟨point, held⟩ ∧ Throws s.1 index point ∧
    s' = (s.1, Function.update s.2 t ⟨.outside, held⟩)

/-- The `catch_cnt` of the entry of an index, if there is one. -/
def Shared.count (g : Shared τ ι A) (i : ι) : Option Int := (g.slot i).map fun e => e.2.catch_cnt

/-- After its call, thread `t` does not own `m_global`, and the entries and their counters are
    those of the state without the call. -/
def LeavesNoTrace (t : τ) (after without : Shared τ ι A × (τ → Local ι A)) : Prop :=
  after.1.m_global ≠ some t ∧ ∀ i, after.1.count i = without.1.count i

/-! ## One step in both states -/

section Alike

variable {p p₀ : Local ι A}

omit [DecidableEq A] in
theorem Alike.role (alike : Alike p p₀) (i : ι) : p.role i = p₀.role i := by
  cases alike <;> rfl

omit [DecidableEq ι] [DecidableEq A] in
theorem Alike.inGlobal (alike : Alike p p₀) : p.inGlobal = p₀.inGlobal := by
  cases alike <;> rfl

end Alike

/-- What a step from one program point to another makes of the entries. -/
def Point.effect : Point ι A → Point ι A → (ι → Option A) → ι → Option A
  | .subscript i, .increment _ a, lookup => Function.update lookup i (some a)
  | .erase i _, .leave, lookup => Function.update lookup i none
  | _, _, lookup => lookup

omit [DecidableEq τ] in
theorem FaultyMove.lookup {calls : Local ι A → ι → Prop} {t : τ} {g g' : Shared τ ι A}
    {p p' : Local ι A} (act : FaultyMove calls t g p g' p') (j : ι) :
    g'.m_lockers.lookup j = p.point.effect p'.point (fun i => g.m_lockers.lookup i) j := by
  cases act with
  | throws throws => cases throws <;> rfl
  | move move =>
      cases move with
      | @subscript held i a found =>
          rcases eq_or_ne j i with rfl | other
          · simp [Point.effect, found]
          · simp [Point.effect, Function.update_of_ne other]
      | insert absent _ =>
          simp only [Point.effect, Function.update_apply]
          exact lookup_insert_eq ..
      | erase =>
          simp only [Point.effect, Function.update_apply]
          exact lookup_erase_eq ..
      | _ => rfl

omit [DecidableEq A] in
theorem effect_mono {q q' : Point ι A} {few many : ι → Option A}
    (within : ∀ i a, few i = some a → many i = some a) (i : ι) (a : A)
    (found : q.effect q' few i = some a) : q.effect q' many i = some a := by
  unfold Point.effect at found ⊢
  split at found
  · simp only [Function.update_apply] at found ⊢
    grind
  · simp only [Function.update_apply] at found ⊢
    grind
  · exact within i a found

omit [DecidableEq A] in
theorem Alike.effect {p p₀ q q₀ : Local ι A} (before : Alike p p₀) (after : Alike q q₀)
    (lookup : ι → Option A) :
    p.point.effect q.point lookup = p₀.point.effect q₀.point lookup := by
  cases before with
  | size => rfl
  | same =>
      cases after with
      | same => rfl
      | size => cases p.point <;> rfl

/-! ## What the two states have in common -/

variable [Fintype τ] {calls : Local ι A → ι → Prop} {t : τ} {index : ι} {n : Nat}
  {ghost : Fin n → Local ι A} {s s₀ : Shared τ ι A × (τ → Local ι A)}

/-- The other threads and the phantoms are the same, and the entries of the second state are
    entries of the first one. -/
structure Apart (t : τ) (index : ι) (ghost : Fin n → Local ι A)
    (s s₀ : Shared τ ι A × (τ → Local ι A)) : Prop where
  haunted : Haunted ghost s
  haunted₀ : Haunted ghost s₀
  inside : (s.2 t).point.locking = some index
  outside : s₀.2 t = ⟨.outside, (s.2 t).held⟩
  others : ∀ u ≠ t, Alike (s.2 u) (s₀.2 u)
  within : ∀ i a, s₀.1.m_lockers.lookup i = some a → s.1.m_lockers.lookup i = some a

theorem Haunted.other {u : τ} {g g' : Shared τ ι A} {l : τ → Local ι A} {p : Local ι A}
    (haunted : Haunted ghost (g, l)) (act : FaultyMove calls u g (l u) g' p) :
    (Haunted ghost (g', Function.update l u p) ∧ Move calls u g (l u) g' p) ∨
      ∃ i, Throws g i (l u).point ∧ g' = g ∧ p = ⟨.outside, (l u).held⟩ ∧
        Haunted (Fin.cons ⟨(l u).point, ∅⟩ ghost : Fin (n + 1) → Local ι A)
          (g', Function.update l u p) := by
  generalize here : l u = q at act
  cases act with
  | move move => exact Or.inl ⟨haunted.move here move, move⟩
  | throws throws => exact Or.inr ⟨_, throws, rfl, rfl, haunted.throws here throws⟩

omit [DecidableEq τ] in
/-- The owner of a mutex does not get it a second time, so success is never mistaken for failure. -/
theorem Haunted.not_move {g g' g₀ : Shared τ ι A} {l : τ → Local ι A} {u : τ} {i : ι}
    {p : Local ι A} (haunted : Haunted ghost (g, l)) (throws : Throws g₀ i (l u).point)
    (failed : p = ⟨.outside, (l u).held⟩) : ¬ Move calls u g (l u) g' p := by
  intro move
  generalize here : l u = q at move throws failed
  obtain ⟨point, held⟩ := q
  cases throws with
  | insertion => cases move <;> cases failed
  | @blocking a =>
      cases move with
      | lockMtx object free =>
          have holds : i ∈ held := by simpa using failed
          obtain ⟨o, found, present⟩ := haunted.entry (u := u) (i := i) (a := a) (by
            simp [role_node, here, Point.role])
          have used := haunted.used found present
          have owner := (used.owner (.inl u)).mpr (by simp [role_owns, here, holds])
          rw [object, Option.some.injEq] at present
          simp [SyncObject.among, ← present, free] at owner

omit [DecidableEq τ] [DecidableEq A] [Fintype τ] in
theorem Alike.eq_of_throws {p p₀ : Local ι A} {g : Shared τ ι A} {i : ι} (alike : Alike p p₀)
    (throws : Throws g i p.point) : p₀ = p := by
  cases alike with
  | same => rfl
  | size => cases throws

omit [DecidableEq τ] [DecidableEq ι] [DecidableEq A] [Fintype τ] in
theorem Alike.symm {p p₀ : Local ι A} (alike : Alike p p₀) : Alike p₀ p := by
  cases alike with
  | same => exact .same
  | size => exact .size

omit [DecidableEq τ] [DecidableEq ι] [DecidableEq A] [Fintype τ] in
theorem Alike.eq_outside {p : Local ι A} {held : Finset ι} (alike : Alike p ⟨.outside, held⟩) :
    p = ⟨.outside, held⟩ := by
  cases alike
  rfl

omit [DecidableEq A] in
/-- A step of another thread, as far as it concerns the threads. -/
theorem Apart.step (apart : Apart t index ghost s s₀) {u : τ} (other : u ≠ t)
    {g g₀ : Shared τ ι A} {p p₀ : Local ι A} {m : Nat} {ghost' : Fin m → Local ι A}
    (haunted : Haunted ghost' (g, Function.update s.2 u p))
    (haunted₀ : Haunted ghost' (g₀, Function.update s₀.2 u p₀)) (alike : Alike p p₀)
    (within : ∀ i a, g₀.m_lockers.lookup i = some a → g.m_lockers.lookup i = some a) :
    Apart t index ghost' (g, Function.update s.2 u p) (g₀, Function.update s₀.2 u p₀) := by
  refine ⟨haunted, haunted₀, ?_, ?_, ?_, within⟩
  · simpa [Function.update_of_ne other.symm] using apart.inside
  · simpa [Function.update_of_ne other.symm] using apart.outside
  · intro v notMe
    rcases eq_or_ne v u with rfl | another
    · simpa using alike
    · simpa [Function.update_of_ne another] using apart.others v notMe

theorem Apart.other (apart : Apart t index ghost s s₀) {u : τ} {g g₀ : Shared τ ι A}
    {p p₀ : Local ι A} (other : u ≠ t) (act : FaultyMove calls u s.1 (s.2 u) g p)
    (act₀ : FaultyMove calls u s₀.1 (s₀.2 u) g₀ p₀) (alike : Alike p p₀) :
    ∃ (m : Nat) (ghost' : Fin m → Local ι A),
      Apart t index ghost' (g, Function.update s.2 u p) (g₀, Function.update s₀.2 u p₀) := by
  have before := apart.others u other
  have next {m : Nat} {ghost' : Fin m → Local ι A}
      (haunted : Haunted ghost' (g, Function.update s.2 u p))
      (haunted₀ : Haunted ghost' (g₀, Function.update s₀.2 u p₀)) :
      Apart t index ghost' (g, Function.update s.2 u p) (g₀, Function.update s₀.2 u p₀) := by
    apply apart.step other haunted haunted₀ alike
    intro i a found
    rw [act.lookup]
    rw [act₀.lookup, ← before.effect alike] at found
    exact effect_mono apart.within i a found
  rcases apart.haunted.other act with ⟨haunted, move⟩ | ⟨i, throws, rfl, rfl, haunted⟩
  · rcases apart.haunted₀.other act₀ with ⟨haunted₀, -⟩ | ⟨i, throws, rfl, rfl, -⟩
    · exact ⟨n, ghost, next haunted haunted₀⟩
    · have same := before.symm.eq_of_throws throws
      rw [← same] at throws alike
      exact absurd move (apart.haunted.not_move throws alike.eq_outside)
  · have same := before.eq_of_throws throws
    rcases apart.haunted₀.other act₀ with ⟨-, move⟩ | ⟨j, -, rfl, rfl, haunted₀⟩
    · rw [← same] at throws alike
      exact absurd move (apart.haunted₀.not_move throws alike.symm.eq_outside)
    · exact ⟨n + 1, _, next haunted (by simpa only [same] using haunted₀)⟩

omit [DecidableEq τ] [Fintype τ] in
/-- In a call that goes on nothing is erased, and what the thread holds stays the same. -/
theorem FaultyMove.goes_on {g g' : Shared τ ι A} {p p' : Local ι A}
    (act : FaultyMove calls t g p g' p') (inside : p'.point.locking = some index) :
    Move calls t g p g' p' ∧ p'.held = p.held ∧
      ∀ i a, g.m_lockers.lookup i = some a → g'.m_lockers.lookup i = some a := by
  cases act with
  | throws _ => exact nomatch inside
  | move move =>
      refine ⟨move, ?_⟩
      cases move with
      | @insert held i a absent _ =>
          refine ⟨rfl, fun j b found => ?_⟩
          have different : j ≠ i := fun same => by
            rw [same, absent] at found
            cases found
          exact (Finmap.lookup_insert_of_ne _ different).trans found
      | lockMtx _ _ | enter | findNothing _ | leave | sizeReturn => exact nomatch inside
      | callUnlock _ | erase => exact nomatch inside
      | _ => exact ⟨rfl, fun _ _ => id⟩

theorem Apart.advance (apart : Apart t index ghost s s₀) {g : Shared τ ι A} {p : Local ι A}
    (act : FaultyMove calls t s.1 (s.2 t) g p) (inside : p.point.locking = some index) :
    Apart t index ghost (g, Function.update s.2 t p) s₀ := by
  obtain ⟨move, held, kept⟩ := act.goes_on inside
  refine ⟨apart.haunted.move rfl move, apart.haunted₀, ?_, ?_, ?_, ?_⟩
  · simpa using inside
  · simpa [held] using apart.outside
  · intro u other
    simpa [Function.update_of_ne other] using apart.others u other
  · intro i a found
    exact kept i a (apart.within i a found)

theorem apart_of_call (haunted : Haunted ghost s) {held : Finset ι}
    (outside : s.2 t = ⟨.outside, held⟩) (may : calls ⟨.outside, held⟩ index) :
    Apart t index ghost (s.1, Function.update s.2 t ⟨.lockGlobal index, held⟩) s := by
  refine ⟨haunted.move outside (.callLock may), haunted, ?_, ?_, ?_, fun _ _ => id⟩
  · simp [Point.locking]
  · simpa using outside
  · intro u other
    simp only [Function.update_of_ne other]
    exact .same

theorem Apart.erases (apart : Apart t index ghost s s₀) {u : τ} (other : u ≠ t) {i : ι} {a : A}
    {held : Finset ι} {g₀ : Shared τ ι A} (here : s.2 u = ⟨.compare i a, held⟩)
    (here₀ : s₀.2 u = ⟨.compare i a, held⟩)
    (leaves : Move calls u s.1 ⟨.compare i a, held⟩ s.1 ⟨.leave, held⟩)
    (finds : Move calls u s₀.1 ⟨.compare i a, held⟩ s₀.1 ⟨.erase i a, held⟩)
    (erases : Move calls u s₀.1 ⟨.erase i a, held⟩ g₀ ⟨.leave, held⟩) :
    Apart t index ghost (s.1, Function.update s.2 u ⟨.leave, held⟩)
      (g₀, Function.update s₀.2 u ⟨.leave, held⟩) := by
  have found := apart.haunted₀.move here₀ finds
  have erased := found.move (Function.update_self ..) erases
  rw [Function.update_idem] at erased
  apply apart.step other (apart.haunted.move here leaves) erased .same
  intro j b present
  cases erases
  apply apart.within j b
  rw [lookup_erase_eq] at present
  split at present
  · cases present
  · exact present

theorem Without.apart (without : Without calls t index s s₀) :
    ∃ (n : Nat) (ghost : Fin n → Local ι A), Apart t index ghost s s₀ := by
  induction without with
  | call reached outside may =>
      obtain ⟨n, ghost, haunted⟩ := haunted_reachable reached
      exact ⟨n, ghost, apart_of_call haunted outside may⟩
  | inside _ act inside ih =>
      obtain ⟨n, ghost, apart⟩ := ih
      exact ⟨n, ghost, apart.advance act inside⟩
  | other _ other act act₀ alike ih =>
      obtain ⟨n, ghost, apart⟩ := ih
      exact apart.other other act act₀ alike
  | erases _ other here here₀ leaves finds erases ih =>
      obtain ⟨n, ghost, apart⟩ := ih
      exact ⟨n, ghost, apart.erases other here here₀ leaves finds erases⟩

section Roles

omit [DecidableEq τ] [DecidableEq A]

variable (apart : Apart t index ghost s s₀)

include apart

theorem Apart.role (x : τ ⊕ Fin n) (other : x ≠ .inl t) (i : ι) :
    (Sum.elim s.2 ghost x).role i = (Sum.elim s₀.2 ghost x).role i := by
  cases x with
  | inl u => exact (apart.others u (by simpa using other)).role i
  | inr k => rfl

theorem Apart.owns (x : τ ⊕ Fin n) (i : ι)
    (owns : ((Sum.elim s₀.2 ghost x).role i).owns = true) :
    ((Sum.elim s.2 ghost x).role i).owns = true := by
  rcases eq_or_ne x (.inl t) with rfl | other
  · have holds : i ∈ (s.2 t).held := by
      simpa [role_owns, apart.outside, Point.role, Role.bystander] using owns
    simp [role_owns, holds]
  · rw [apart.role x other]
    exact owns

theorem Apart.global_free (free : s.1.m_global = none) : s₀.1.m_global = none := by
  rw [apart.haunted.global_free] at free
  rw [apart.haunted₀.global_free]
  intro x
  cases x with
  | inl u =>
      rcases eq_or_ne u t with rfl | other
      · simp [apart.outside, Local.inGlobal, Point.inGlobal]
      · have before := (apart.others u other).inGlobal
        simpa [← before] using free (.inl u)
  | inr k => exact free (.inr k)

theorem Apart.absent {i : ι} (absent : s.1.m_lockers.lookup i = none) :
    s₀.1.m_lockers.lookup i = none := by
  apply Option.eq_none_iff_forall_ne_some.mpr
  intro a found
  rw [apart.within i a found] at absent
  cases absent

theorem Apart.fresh {a : A} (fresh : s.1.node a = none) : s₀.1.node a = none := by
  by_contra present
  obtain ⟨i, found⟩ := apart.haunted₀.addressed a (Option.isSome_iff_ne_none.mpr present)
  have live := apart.haunted.wellFormed.live i a (apart.within i a found)
  simp [fresh] at live

/-- A node that another thread uses is there in the second state, too. -/
theorem Apart.entry {u : τ} (other : u ≠ t) {i : ι} {a : A}
    (node : ((s.2 u).role i).node = some a) :
    ∃ o, s₀.1.m_lockers.lookup i = some a ∧ s₀.1.node a = some o := by
  apply apart.haunted₀.entry (u := u)
  rw [← (apart.others u other).role i]
  exact node

theorem Apart.mtx_free {i : ι} {a : A} {o o₀ : SyncObject τ}
    (found : s₀.1.m_lockers.lookup i = some a) (object₀ : s₀.1.node a = some o₀)
    (object : s.1.node a = some o) (free : o.mtx = none) : o₀.mtx = none := by
  have used := apart.haunted.used (apart.within i a found) object
  have used₀ := apart.haunted₀.used found object₀
  apply Option.eq_none_iff_forall_ne_some.mpr
  intro v owner
  have owns := (used₀.owner (.inl v)).mp (by simp [SyncObject.among, owner])
  have owner := (used.owner (.inl v)).mpr (apart.owns (.inl v) i owns)
  simp [SyncObject.among, free] at owner

theorem Apart.sum [DecidableEq τ] (i : ι) :
    ∑ x, ((Sum.elim s.2 ghost x).role i).uses =
      ∑ x, ((Sum.elim s₀.2 ghost x).role i).uses + ((s.2 t).point.role i).uses := by
  have changed : (fun x => (Sum.elim s₀.2 ghost x).role i) =
      Function.update (fun x => (Sum.elim s.2 ghost x).role i) (.inl t) ((s₀.2 t).role i) := by
    funext x
    rcases eq_or_ne x (.inl t) with rfl | other
    · simp
    · rw [Function.update_of_ne other, apart.role x other]
  have sum := sum_update Role.uses (fun x => (Sum.elim s.2 ghost x).role i) (.inl t)
    ((s₀.2 t).role i)
  have excess : ((s.2 t).role i).uses =
      ((s₀.2 t).role i).uses + ((s.2 t).point.role i).uses := by
    rw [role_uses, role_uses, apart.outside, show (Point.outside.role i : Role A) = .bystander from rfl]
    simp only [Role.bystander]
    omega
  rw [← changed] at sum
  simp only [sum, Sum.elim_inl, excess]
  omega

theorem Apart.counter [DecidableEq τ] {i : ι} {a : A} {o o₀ : SyncObject τ}
    (found : s₀.1.m_lockers.lookup i = some a) (object₀ : s₀.1.node a = some o₀)
    (object : s.1.node a = some o) :
    o.catch_cnt = o₀.catch_cnt + ((s.2 t).point.role i).uses := by
  have count : o.catch_cnt = _ := (apart.haunted.used (apart.within i a found) object).count
  have count₀ : o₀.catch_cnt = _ := (apart.haunted₀.used found object₀).count
  rw [count, count₀]
  exact apart.sum i

/-- An address that the first state has for an entry is free in the second one, if that has no
    such entry. -/
theorem Apart.fresh_of_absent {i : ι} {a : A} (found : s.1.m_lockers.lookup i = some a)
    (absent : s₀.1.m_lockers.lookup i = none) : s₀.1.node a = none := by
  by_contra present
  obtain ⟨j, found₀⟩ := apart.haunted₀.addressed a (Option.isSome_iff_ne_none.mpr present)
  have same := apart.haunted.wellFormed.apart j i a (apart.within j a found₀) found
  rw [same, absent] at found₀
  cases found₀

theorem Apart.counter_zero [DecidableEq τ] {i : ι} {a : A} {o o₀ : SyncObject τ}
    (found : s₀.1.m_lockers.lookup i = some a) (object₀ : s₀.1.node a = some o₀)
    (object : s.1.node a = some o) (zero : o.catch_cnt = 0) : o₀.catch_cnt = 0 := by
  have count := apart.counter found object₀ object
  have count₀ : o₀.catch_cnt = _ := (apart.haunted₀.used found object₀).count
  have nonneg : 0 ≤ o₀.catch_cnt := by
    rw [count₀]
    exact Finset.sum_nonneg fun x _ => uses_nonneg i _
  have excess : 0 ≤ ((s.2 t).point.role i).uses := by
    simpa [role_uses] using uses_nonneg i ⟨(s.2 t).point, ∅⟩
  omega

end Roles

/-! ## There is a state without the call -/

/-- Another thread can do in the second state what it does in the first one, unless it finds
    a counter that is zero there only. -/
theorem Apart.follow (apart : Apart t index ghost s s₀) {u : τ} (other : u ≠ t)
    {g : Shared τ ι A} {p q : Local ι A} (here : s.2 u = q)
    (move : Move calls u s.1 q g p) :
    (∃ g₀ p₀, Move calls u s₀.1 q g₀ p₀ ∧ Alike p p₀) ∨
      ∃ i a held, q = ⟨.compare i a, held⟩ ∧ p = ⟨.leave, held⟩ ∧ g = s.1 ∧
        Move calls u s₀.1 q s₀.1 ⟨.erase i a, held⟩ := by
  have entry {i : ι} {a : A} (node : (q.role i).node = some a) :
      ∃ o, s₀.1.m_lockers.lookup i = some a ∧ s₀.1.node a = some o :=
    apart.entry other (here ▸ node)
  cases move with
  | callLock may => exact Or.inl ⟨_, _, .callLock may, .same⟩
  | lockGlobal free => exact Or.inl ⟨_, _, .lockGlobal (apart.global_free free), .same⟩
  | @subscript held i a found =>
      cases found₀ : s₀.1.m_lockers.lookup i with
      | none =>
          have fresh := apart.fresh_of_absent found found₀
          exact Or.inl ⟨_, _, .insert found₀ fresh, .same⟩
      | some b =>
          have same := apart.within i b found₀
          rw [found, Option.some.injEq] at same
          exact Or.inl ⟨_, _, .subscript (same ▸ found₀), .same⟩
  | insert absent fresh =>
      exact Or.inl ⟨_, _, .insert (apart.absent absent) (apart.fresh fresh), .same⟩
  | @increment held i a o object =>
      obtain ⟨o₀, -, object₀⟩ := entry (i := i) (a := a) (by simp [role_node, Point.role])
      exact Or.inl ⟨_, _, .increment object₀, .same⟩
  | @tryLock held i a o object free =>
      obtain ⟨o₀, found, object₀⟩ := entry (i := i) (a := a) (by simp [role_node, Point.role])
      exact Or.inl ⟨_, _, .tryLock object₀ (apart.mtx_free found object₀ object free), .same⟩
  | @tryLockFails held i a _ =>
      obtain ⟨o₀, found, object₀⟩ := entry (i := i) (a := a) (by simp [role_node, Point.role])
      exact Or.inl ⟨_, _, .tryLockFails (by simp [object₀]), .same⟩
  | giveWay => exact Or.inl ⟨_, _, .giveWay, .same⟩
  | @lockMtx held i a o object free =>
      obtain ⟨o₀, found, object₀⟩ := entry (i := i) (a := a) (by simp [role_node, Point.role])
      exact Or.inl ⟨_, _, .lockMtx object₀ (apart.mtx_free found object₀ object free), .same⟩
  | enter => exact Or.inl ⟨_, _, .enter, .same⟩
  | callUnlock holds => exact Or.inl ⟨_, _, .callUnlock holds, .same⟩
  | @find held i a found =>
      cases found₀ : s₀.1.m_lockers.lookup i with
      | none =>
          have unused := (apart.haunted₀.unused found₀).uses (.inl u)
          rw [← apart.role (.inl u) (by simpa using other) i] at unused
          have owns : ((s.2 u).role i).owns = true := by simp [here, role_owns, Point.role]
          exact absurd unused (uses_pos_of_owns owns).ne'
      | some b =>
          have same := apart.within i b found₀
          rw [found, Option.some.injEq] at same
          exact Or.inl ⟨_, _, .find (same ▸ found₀), .same⟩
  | findNothing absent => exact Or.inl ⟨_, _, .findNothing (apart.absent absent), .same⟩
  | @unlockMtx held i a o object =>
      obtain ⟨o₀, -, object₀⟩ := entry (i := i) (a := a) (by simp [role_node, Point.role])
      exact Or.inl ⟨_, _, .unlockMtx object₀, .same⟩
  | relockGlobal free => exact Or.inl ⟨_, _, .relockGlobal (apart.global_free free), .same⟩
  | @decrement held i a o object =>
      obtain ⟨o₀, -, object₀⟩ := entry (i := i) (a := a) (by simp [role_node, Point.role])
      exact Or.inl ⟨_, _, .decrement object₀, .same⟩
  | @compareZero held i a o object zero =>
      obtain ⟨o₀, found, object₀⟩ := entry (i := i) (a := a) (by simp [role_node, Point.role])
      have zero₀ := apart.counter_zero found object₀ object zero
      exact Or.inl ⟨_, _, .compareZero object₀ zero₀, .same⟩
  | @compareNonzero held i a o object nonzero =>
      obtain ⟨o₀, -, object₀⟩ := entry (i := i) (a := a) (by simp [role_node, Point.role])
      by_cases zero : o₀.catch_cnt = 0
      · exact Or.inr ⟨i, a, held, rfl, rfl, rfl, .compareZero object₀ zero⟩
      · exact Or.inl ⟨_, _, .compareNonzero object₀ zero, .same⟩
  | erase => exact Or.inl ⟨_, _, .erase, .same⟩
  | leave => exact Or.inl ⟨_, _, .leave, .same⟩
  | callSize => exact Or.inl ⟨_, _, .callSize, .same⟩
  | sizeLock free => exact Or.inl ⟨_, _, .sizeLock (apart.global_free free), .same⟩
  | sizeRead => exact Or.inl ⟨_, _, .sizeRead, .size⟩
  | sizeReturn => exact Or.inl ⟨_, _, .sizeReturn, .same⟩

theorem Without.follow (without : Without calls t index s s₀) {u : τ} (other : u ≠ t)
    {g : Shared τ ι A} {p : Local ι A} (act : FaultyMove calls u s.1 (s.2 u) g p) :
    ∃ s₀', Without calls t index (g, Function.update s.2 u p) s₀' := by
  obtain ⟨n, ghost, apart⟩ := without.apart
  have same {g₀ : Shared τ ι A} {p₀ : Local ι A}
      (act₀ : FaultyMove calls u s₀.1 (s₀.2 u) g₀ p₀) (alike : Alike p p₀) :
      ∃ s₀', Without calls t index (g, Function.update s.2 u p) s₀' :=
    ⟨_, without.other other act act₀ alike⟩
  have before := apart.others u other
  generalize here : s.2 u = q at act before
  generalize here₀ : s₀.2 u = q₀ at same before
  cases before with
  | @size m k held =>
      have done : p = ⟨.outside, held⟩ := by
        cases act with
        | throws throws => cases throws
        | move move =>
            cases move
            rfl
      rw [done] at same
      rw [done]
      exact same (.move .sizeReturn) .same
  | same =>
      cases act with
      | move move =>
          rcases apart.follow other here move with
            ⟨g₀, p₀, move₀, alike⟩ | ⟨i, a, held, rfl, rfl, rfl, finds⟩
          · exact same (.move move₀) alike
          · exact ⟨_, without.erases other here here₀ move finds .erase⟩
      | throws throws =>
          cases throws with
          | insertion absent => exact same (.throws (.insertion (apart.absent absent))) .same
          | blocking => exact same (.throws .blocking) .same

omit [DecidableEq τ] [Fintype τ] in
/-- A call of `lock` begins outside. -/
theorem FaultyMove.called {g g' : Shared τ ι A} {p p' : Local ι A}
    (act : FaultyMove calls t g p g' p') (inside : p'.point.locking = some index)
    (before : ¬ p.point.locking = some index) :
    ∃ held, p = ⟨.outside, held⟩ ∧ calls ⟨.outside, held⟩ index ∧ g' = g ∧
      p' = ⟨.lockGlobal index, held⟩ := by
  cases act with
  | throws _ => exact nomatch inside
  | move move =>
      cases move with
      | @callLock held i may =>
          obtain rfl : i = index := Option.some.inj inside
          exact ⟨held, rfl, may, rfl, rfl⟩
      | lockMtx _ _ | enter => exact nomatch inside
      | _ => exact absurd inside before

theorem exists_without (reached : Reachable (throwing calls) s) :
    ∀ {t : τ} {index : ι}, (s.2 t).point.locking = some index → ∃ s₀, Without calls t index s s₀ := by
  induction reached with
  | @init s start =>
      intro t index inside
      rw [start.2.2.2 t] at inside
      exact nomatch inside
  | @step s _ reached next ih =>
      obtain ⟨u, g, p, act, rfl⟩ := next
      intro t index inside
      rcases eq_or_ne u t with rfl | other
      · simp only [Function.update_self] at inside
        by_cases before : (s.2 u).point.locking = some index
        · obtain ⟨s₀, without⟩ := ih before
          exact ⟨s₀, without.inside act inside⟩
        · obtain ⟨held, outside, may, rfl, rfl⟩ := act.called inside before
          exact ⟨s, .call reached outside may⟩
      · simp only [Function.update_of_ne other.symm] at inside
        obtain ⟨s₀, without⟩ := ih inside
        exact without.follow other act

/-! ## What a failed call changes -/

omit [DecidableEq τ] [DecidableEq A] [Fintype τ] in
theorem Throws.locking {g : Shared τ ι A} {point : Point ι A} (throws : Throws g index point) :
    point.locking = some index := by
  cases throws <;> rfl

omit [DecidableEq τ] [DecidableEq A] [Fintype τ] in
theorem count_eq {g : Shared τ ι A} {i : ι} {a : A} {o : SyncObject τ}
    (found : g.m_lockers.lookup i = some a) (object : g.node a = some o) :
    g.count i = some o.catch_cnt := by
  simp [Shared.count, slot_eq_some.mpr ⟨found, object⟩]

omit [DecidableEq τ] [DecidableEq A] in
/-- The counter that the call has raised differs. -/
theorem Apart.count_ne [DecidableEq τ] (apart : Apart t index ghost s s₀) {a : A}
    (blocked : (s.2 t).point = .lockMtx index a) : s.1.count index ≠ s₀.1.count index := by
  obtain ⟨o, found, object⟩ := apart.haunted.entry (u := t) (i := index) (a := a) (by
    simp [role_node, blocked, Point.role])
  rw [count_eq found object]
  cases found₀ : s₀.1.m_lockers.lookup index with
  | none => simp [Shared.count, Shared.slot, found₀]
  | some b =>
      have same := apart.within index b found₀
      rw [found, Option.some.injEq] at same
      obtain rfl := same
      obtain ⟨o₀, object₀⟩ := apart.haunted₀.wellFormed.object found₀
      have counter := apart.counter found₀ object₀ object
      rw [count_eq found₀ object₀]
      simp [blocked, Point.role] at counter ⊢
      omega

omit [DecidableEq τ] [DecidableEq A] in
theorem Apart.count_of_absent [DecidableEq τ] (apart : Apart t index ghost s s₀) {i : ι} {a : A}
    {o : SyncObject τ} (absent : s₀.1.m_lockers.lookup i = none)
    (found : s.1.m_lockers.lookup i = some a) (object : s.1.node a = some o) :
    o.catch_cnt = ((s.2 t).point.role i).uses := by
  have count : o.catch_cnt = _ := (apart.haunted.used found object).count
  have unused := (apart.haunted₀.unused absent).uses
  rw [count, apart.sum i, Finset.sum_eq_zero fun x _ => unused x, zero_add]

/-- At the insertion only `m_global` is amiss: the entries are as they should be. -/
theorem failed_insertion_leaves_entries {held : Finset ι} (here : s.2 t = ⟨.subscript index, held⟩)
    (without : Without calls t index s s₀) (i : ι) : s.1.count i = s₀.1.count i := by
  obtain ⟨n, ghost, apart⟩ := without.apart
  have uses : ((s.2 t).point.role i).uses = 0 := by rw [here]; rfl
  cases found₀ : s₀.1.m_lockers.lookup i with
  | some a =>
      have found := apart.within i a found₀
      obtain ⟨o, object⟩ := apart.haunted.wellFormed.object found
      obtain ⟨o₀, object₀⟩ := apart.haunted₀.wellFormed.object found₀
      rw [count_eq found object, count_eq found₀ object₀, apart.counter found₀ object₀ object, uses,
        add_zero]
  | none =>
      cases found : s.1.m_lockers.lookup i with
      | none => simp [Shared.count, Shared.slot, found, found₀]
      | some a =>
          obtain ⟨o, object⟩ := apart.haunted.wellFormed.object found
          have zero : o.catch_cnt = 0 := (apart.count_of_absent found₀ found object).trans uses
          obtain ⟨x, settles⟩ := (apart.haunted.used found object).settled zero
          -- Whoever accounts for a zero is inside of `m_global`, and so is `t`.
          obtain ⟨owner, -, inv⟩ := apart.haunted.inv
          have mine : (Sum.elim s.2 ghost (.inl t)).inGlobal = true := by
            simp [here, Local.inGlobal, Point.inGlobal]
          obtain rfl := inv.global.unique (inGlobal_of_settles settles) mine
          simp [role_settles, here, Point.role, Role.bystander] at settles

/-- Whatever the state, and wherever `lock` throws. -/
theorem failed_lock_leaves_trace {s' : Shared τ ι A × (τ → Local ι A)}
    (reached : Reachable (throwing calls) s) (fails : Fails t index s s') :
    (∃ s₀, Reachable (throwing calls) s₀ ∧ Without calls t index s s₀) ∧
      ∀ s₀, Without calls t index s s₀ → ¬ LeavesNoTrace t s' s₀ := by
  obtain ⟨point, held, here, throws, rfl⟩ := fails
  constructor
  · have inside : (s.2 t).point.locking = some index := by
      rw [here]
      exact throws.locking
    obtain ⟨s₀, without⟩ := exists_without reached inside
    exact ⟨s₀, without.reachable, without⟩
  · intro s₀ without noTrace
    obtain ⟨n, ghost, apart⟩ := without.apart
    cases throws with
    | insertion _ =>
        have owner := apart.haunted.global_owned (u := t) (by rw [here]; rfl)
        exact noTrace.1 owner
    | @blocking a => exact apart.count_ne (by rw [here]) (noTrace.2 index)

omit [Fintype τ] in
/-- A `try_lock` may fail spuriously, so a thread that is alone can come to block. -/
theorem can_block (t : τ) (i : ι) (a : A) : ∃ s : Shared τ ι A × (τ → Local ι A),
    Reachable (throwing matched) s ∧ s.2 t = ⟨.lockMtx i a, ∅⟩ := by
  obtain ⟨s, counted, here, -, o, object, -⟩ := can_try t i a
  have failed := (reachable_throwing counted).move here (.move (.tryLockFails (by simp [object])))
  have blocked := failed.move (t := t) (Function.update_self ..) (.move .giveWay)
  exact ⟨_, blocked, Function.update_self ..⟩

theorem failed_lock_leaves_trace_blocked :
    ∃ s s' : Shared (Fin 2) Nat Nat × (Fin 2 → Local Nat Nat),
      Fails 0 7 s s' ∧ (∃ s₀, Reachable (throwing matched) s₀ ∧ Without matched 0 7 s s₀) ∧
        ∀ s₀, Without matched 0 7 s s₀ → ¬ LeavesNoTrace 0 s' s₀ := by
  obtain ⟨s, reached, blocked⟩ := can_block (0 : Fin 2) 7 0
  have fails : Fails 0 7 s (s.1, Function.update s.2 0 ⟨.outside, ∅⟩) :=
    ⟨_, _, blocked, .blocking, rfl⟩
  exact ⟨s, _, fails, failed_lock_leaves_trace reached fails⟩

/-- No memory for the entry of the first index: the thread is outside again, and owns
    `m_global`. -/
theorem failed_insertion_keeps_global :
    let before : Shared (Fin 2) Nat Nat := ⟨none, ∅, fun _ => none⟩
    let after : Shared (Fin 2) Nat Nat := ⟨some 0, ∅, fun _ => none⟩
    let outside : Fin 2 → Local Nat Nat := fun _ => ⟨.outside, ∅⟩
    let s := (after, Function.update outside 0 ⟨.subscript 7, ∅⟩)
    Reachable (throwing matched) s ∧ Fails 0 7 s (after, outside) ∧
      Without matched 0 7 s (before, outside) ∧
      ¬ LeavesNoTrace 0 (after, outside) (before, outside) := by
  intro before after outside s
  have start : Reachable (throwing matched) (before, outside) :=
    .init ⟨rfl, rfl, fun _ => rfl, fun _ => rfl⟩
  have called := start.move (t := 0) rfl (.move (.callLock (i := 7) (by simp [matched])))
  have inside := called.move (t := 0) rfl (.move (.lockGlobal (i := 7) rfl))
  have without : Without matched 0 7 _ (before, outside) :=
    .call start (t := 0) rfl (by simp [matched])
  have entered := without.inside (.move (.lockGlobal (i := 7) rfl)) rfl
  simp only [Function.update_idem] at inside entered
  refine ⟨inside, ?_, entered, ?_⟩
  · refine ⟨.subscript 7, ∅, rfl, .insertion rfl, ?_⟩
    simp [s, outside]
  · intro noTrace
    exact noTrace.1 rfl

end KMeans.IndexLocker
