import Mathlib.Data.List.Nodup
import Mathlib.Logic.Function.Basic

/-! # Objects at addresses

Memory with `new` and `delete`. Each object gets a number when it is allocated. The
address of a deleted object may be given to a later one, its number is not given again.
To access or delete what is not there is undefined. A chain is a list of objects linked
by pointers, and `none` is the null pointer.
-/

namespace Memory

variable {A C : Type*}

structure Heap (A C : Type*) where
  /-- The object at an address, with its number. -/
  object : A → Option (Nat × C)
  /-- How many objects have been allocated. -/
  allocated : Nat
  /-- The numbers of the deleted objects. -/
  deleted : List Nat

namespace Heap

/-- Nothing has been allocated. -/
def make : Heap A C := ⟨fun _ => none, 0, []⟩

/-- `*a`. -/
def load (m : Heap A C) (a : A) : Option C := (m.object a).map Prod.snd

variable [DecidableEq A]

/-- `*a = c`. -/
def store (m : Heap A C) (a : A) (c : C) : Option (Heap A C) :=
  (m.object a).map fun (number, _) =>
    { m with object := Function.update m.object a (some (number, c)) }

/-- `new` of the object `c`, when the allocator returns the address `a`. -/
def new (m : Heap A C) (a : A) (c : C) : Option (Heap A C) :=
  if m.object a = none then
    some { m with
      object := Function.update m.object a (some (m.allocated, c))
      allocated := m.allocated + 1 }
  else none

/-- `delete`. -/
def delete (m : Heap A C) (a : A) : Option (Heap A C) :=
  (m.object a).map fun (number, _) =>
    { m with
      object := Function.update m.object a none
      deleted := m.deleted ++ [number] }

end Heap

/-- What holds of every heap: a number belongs to one object, which is there until it is
    deleted, and is deleted at most once. -/
structure Sound (m : Heap A C) : Prop where
  once : m.deleted.Nodup
  numbered : ∀ number, number < m.allocated ↔
    number ∈ m.deleted ∨ ∃ a c, m.object a = some (number, c)
  gone : ∀ a number c, m.object a = some (number, c) → number ∉ m.deleted
  apart : ∀ a b number c d, m.object a = some (number, c) → m.object b = some (number, d) → a = b

theorem sound_make : Sound (Heap.make : Heap A C) := by
  constructor <;> simp [Heap.make]

section Operations

variable [DecidableEq A] {m : Heap A C} {a : A}

theorem Sound.store (sound : Sound m) {number : Nat} {old : C}
    (here : m.object a = some (number, old)) (c : C) :
    ∃ m', m.store a c = some m' ∧ Sound m' ∧ m'.allocated = m.allocated ∧
      m'.object = Function.update m.object a (some (number, c)) := by
  refine ⟨{ m with object := Function.update m.object a (some (number, c)) },
    by rw [Heap.store, here]; rfl, ?_, rfl, rfl⟩
  obtain ⟨once, numbered, gone, apart⟩ := sound
  have kept : ∀ n, (∃ b d, Function.update m.object a (some (number, c)) b = some (n, d)) ↔
      ∃ b d, m.object b = some (n, d) := by
    intro n
    constructor
    · rintro ⟨b, d, there⟩
      by_cases same : b = a
      · subst same
        rw [Function.update_self, Option.some.injEq, Prod.mk.injEq] at there
        exact ⟨b, old, there.1 ▸ here⟩
      · exact ⟨b, d, (Function.update_of_ne same ..).symm.trans there⟩
    · rintro ⟨b, d, there⟩
      by_cases same : b = a
      · subst same
        rw [here, Option.some.injEq, Prod.mk.injEq] at there
        exact ⟨b, c, by rw [Function.update_self, there.1]⟩
      · exact ⟨b, d, (Function.update_of_ne same ..).trans there⟩
  refine ⟨once, fun n => (numbered n).trans (or_congr_right (kept n).symm), ?_, ?_⟩
  · grind [Function.update_apply]
  · grind [Function.update_apply]

theorem Sound.new (sound : Sound m) (free : m.object a = none) (c : C) :
    ∃ m', m.new a c = some m' ∧ Sound m' ∧ m'.allocated = m.allocated + 1 ∧
      m'.object = Function.update m.object a (some (m.allocated, c)) := by
  refine ⟨_, if_pos free, ?_, rfl, rfl⟩
  obtain ⟨once, numbered, gone, apart⟩ := sound
  have old : ∀ b n d, m.object b = some (n, d) → n < m.allocated := fun b n d there =>
    (numbered n).mpr (Or.inr ⟨b, d, there⟩)
  have unused : m.allocated ∉ m.deleted := fun member =>
    Nat.lt_irrefl _ ((numbered m.allocated).mpr (Or.inl member))
  refine ⟨once, fun n => ?_, fun b n d there => ?_, fun b b' n d d' there there' => ?_⟩
  · constructor
    · intro lt
      by_cases last : n = m.allocated
      · exact Or.inr ⟨a, c, by simp [last]⟩
      · cases (numbered n).mp (by simp only at lt; omega) with
        | inl member => exact Or.inl member
        | inr live =>
            obtain ⟨b, d, there⟩ := live
            have other : b ≠ a := fun same => by simp [← same, there] at free
            exact Or.inr ⟨b, d, (Function.update_of_ne other ..).trans there⟩
    · intro known
      cases known with
      | inl member => exact Nat.lt_succ_of_lt ((numbered n).mpr (Or.inl member))
      | inr live =>
          obtain ⟨b, d, there⟩ := live
          by_cases same : b = a
          · have number : m.allocated = n := by simp_all
            exact number ▸ Nat.lt_succ_self _
          · exact Nat.lt_succ_of_lt (old b n d ((Function.update_of_ne same ..).symm.trans there))
  · grind [Function.update_apply]
  · grind [Function.update_apply]

theorem Sound.delete (sound : Sound m) {number : Nat} {c : C}
    (here : m.object a = some (number, c)) :
    ∃ m', m.delete a = some m' ∧ Sound m' ∧ m'.allocated = m.allocated ∧
      m'.object = Function.update m.object a none := by
  refine ⟨{ m with
      object := Function.update m.object a none
      deleted := m.deleted ++ [number] }, by rw [Heap.delete, here]; rfl, ?_, rfl, rfl⟩
  obtain ⟨once, numbered, gone, apart⟩ := sound
  refine ⟨?_, fun n => ?_, fun b n d there => ?_, fun b b' n d d' there there' => ?_⟩
  · apply once.append (List.nodup_singleton number)
    intro n member same
    exact gone a number c here (List.mem_singleton.mp same ▸ member)
  · constructor
    · intro lt
      cases (numbered n).mp lt with
      | inl member => exact Or.inl (List.mem_append_left _ member)
      | inr live =>
          obtain ⟨b, d, there⟩ := live
          by_cases same : b = a
          · have number : n = number := by simp_all
            exact Or.inl (by simp [number])
          · exact Or.inr ⟨b, d, (Function.update_of_ne same ..).trans there⟩
    · intro known
      apply (numbered n).mpr
      cases known with
      | inl member =>
          cases List.mem_append.mp member with
          | inl earlier => exact Or.inl earlier
          | inr new => exact Or.inr ⟨a, c, (List.mem_singleton.mp new) ▸ here⟩
      | inr live =>
          obtain ⟨b, d, there⟩ := live
          by_cases same : b = a
          · simp [same] at there
          · exact Or.inr ⟨b, d, (Function.update_of_ne same ..).symm.trans there⟩
  · grind [Function.update_apply]
  · grind [Function.update_apply]

end Operations

/-! ## Chains -/

/-- The objects from pointer `p` on, linked by `next`, up to pointer `q`. -/
inductive Chain (m : Heap A C) (next : C → Option A) : Option A → List (A × C) → Option A → Prop
  | nil {p} : Chain m next p [] p
  | cons {a c objects q} : m.load a = some c → Chain m next (next c) objects q →
      Chain m next (some a) ((a, c) :: objects) q

section Chains

variable {m m' : Heap A C} {next : C → Option A} {p q r : Option A} {objects more : List (A × C)}

theorem Chain.eq_of_nil (chain : Chain m next p [] q) : p = q := by
  cases chain
  rfl

theorem Chain.uncons {a : A} {c : C} (chain : Chain m next p ((a, c) :: objects) q) :
    p = some a ∧ m.load a = some c ∧ Chain m next (next c) objects q := by
  cases chain with
  | cons here rest => exact ⟨rfl, here, rest⟩

theorem Chain.append (first : Chain m next p objects q) (second : Chain m next q more r) :
    Chain m next p (objects ++ more) r := by
  induction first with
  | nil => exact second
  | cons here _ ih => exact .cons here (ih second)

theorem Chain.split (whole : Chain m next p (objects ++ more) r) :
    ∃ q, Chain m next p objects q ∧ Chain m next q more r := by
  induction objects generalizing p with
  | nil => exact ⟨p, .nil, whole⟩
  | cons entry objects ih =>
      cases whole with
      | cons here rest =>
          obtain ⟨q, first, second⟩ := ih rest
          exact ⟨q, .cons here first, second⟩

theorem Chain.load (chain : Chain m next p objects q) {a : A} {c : C}
    (member : (a, c) ∈ objects) : m.load a = some c := by
  induction chain with
  | nil => cases member
  | cons here _ ih =>
      cases member with
      | head => exact here
      | tail _ later => exact ih later

/-- What is written elsewhere does not change a chain. -/
theorem Chain.frame (chain : Chain m next p objects q)
    (same : ∀ a ∈ objects.map Prod.fst, m'.load a = m.load a) : Chain m' next p objects q := by
  induction chain with
  | nil => exact .nil
  | cons here _ ih =>
      apply Chain.cons
      · rw [same _ (by simp), here]
      · exact ih fun a member => same a (List.mem_cons_of_mem _ member)

/-- Another object is linked to the last one, and nothing is written to those before it. -/
theorem Chain.link {a b : A} {c d e : C} (chain : Chain m next p (objects ++ [(a, c)]) q)
    (kept : ∀ o ∈ objects.map Prod.fst, m'.load o = m.load o) (last : m'.load a = some d)
    (linked : next d = some b) (new : m'.load b = some e) :
    Chain m' next p (objects ++ [(a, d), (b, e)]) (next e) := by
  obtain ⟨t, first, second⟩ := chain.split
  obtain ⟨rfl, _, _⟩ := second.uncons
  apply (first.frame kept).append
  apply Chain.cons last
  rw [linked]
  exact .cons new .nil

end Chains

end Memory
