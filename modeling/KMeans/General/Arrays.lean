import Mathlib.Algebra.BigOperators.Group.Finset.Basic
import Mathlib.Algebra.GroupWithZero.Nat
import Mathlib.Data.Fintype.Basic
import Mathlib.Data.List.OfFn
import Mathlib.Order.Interval.Set.Basic
import Mathlib.Logic.Function.Basic
import KMeans.General.Loops

/-! # Checked arrays

An array is a list of values; reading is `xs[i]?`. A write past the end is
undefined, so it fails. An array of fixed length is the listing of a function on
its indices, and the operations below are the pointwise ones.
-/

namespace Arrays

/-- `xs[i] = v`. -/
def write (xs : List α) (i : Nat) (v : α) : Option (List α) :=
  if i < xs.length then some (xs.set i v) else none

/-- `xs[i] = f(xs[i])`. -/
def modify (xs : List α) (i : Nat) (f : α → α) : Option (List α) := do
  let v ← xs[i]?
  write xs i (f v)

/-- `if (xs.size() < n) xs.resize(n);` where new cells hold `v`. -/
def grow (xs : List α) (n : Nat) (v : α) : List α :=
  xs ++ List.replicate (n - xs.length) v

@[simp] theorem length_grow (xs : List α) (n : Nat) (v : α) :
    (grow xs n v).length = max xs.length n := by
  simp only [grow, List.length_append, List.length_replicate]
  omega

theorem grow_of_le {xs : List α} {n : Nat} (le : n ≤ xs.length) (v : α) : grow xs n v = xs := by
  simp [grow, Nat.sub_eq_zero_of_le le]

theorem write_eq {xs : List α} {i : Nat} (inside : i < xs.length) (v : α) :
    write xs i v = some (xs.set i v) := if_pos inside

theorem length_of_write {xs ys : List α} {i : Nat} {v : α} (written : write xs i v = some ys) :
    ys.length = xs.length := by
  unfold write at written
  split at written
  · rw [← Option.some.inj written, List.length_set]
  · cases written

theorem write_map (f : α → β) (xs : List α) (i : Nat) (v : α) :
    write (xs.map f) i (f v) = (write xs i v).map (List.map f) := by
  unfold write
  rw [List.length_map]
  split
  · rw [Option.map_some, List.map_set]
  · rfl

theorem modify_map (f : α → β) {g : α → α} {h : β → β} (commute : ∀ v, h (f v) = f (g v))
    (xs : List α) (i : Nat) : modify (xs.map f) i h = (modify xs i g).map (List.map f) := by
  unfold modify
  rw [List.getElem?_map]
  cases xs[i]? with
  | none => rfl
  | some v =>
      simp only [Option.map_some, Option.bind_eq_bind, Option.bind_some, commute]
      exact write_map f xs i (g v)

theorem grow_map (f : α → β) (xs : List α) (n : Nat) (v : α) :
    grow (xs.map f) n (f v) = (grow xs n v).map f := by
  unfold grow
  rw [List.map_append, List.map_replicate, List.length_map]

theorem read_ofFn (f : Fin n → α) (i : Fin n) : (List.ofFn f)[(i : Nat)]? = some (f i) := by
  simp

theorem set_ofFn (f : Fin n → α) (i : Fin n) (v : α) :
    (List.ofFn f).set i v = List.ofFn (Function.update f i v) := by
  apply List.ext_getElem (by simp)
  intro j inside _
  rw [List.getElem_set, List.getElem_ofFn, List.getElem_ofFn, Function.update_apply]
  simp only [Fin.ext_iff, eq_comm]

theorem write_ofFn (f : Fin n → α) (i : Fin n) (v : α) :
    write (List.ofFn f) i v = some (List.ofFn (Function.update f i v)) := by
  rw [write_eq (by simp), set_ofFn]

theorem modify_ofFn (f : Fin n → α) (i : Fin n) (g : α → α) :
    modify (List.ofFn f) i g = some (List.ofFn (Function.update f i (g (f i)))) := by
  rw [modify, read_ofFn, Option.bind_eq_bind, Option.bind_some, write_ofFn]

theorem replicate_eq_ofFn (n : Nat) (v : α) : List.replicate n v = List.ofFn fun _ : Fin n => v := by
  rw [List.ofFn_const]

theorem exists_ofFn (xs : List α) : ∃ n, ∃ f : Fin n → α, xs = List.ofFn f :=
  ⟨xs.length, xs.get, (List.ofFn_get xs).symm⟩

instance nonempty_fin [NeZero n] : Nonempty (Fin n) := ⟨0⟩

theorem exists_ofFn_neZero {xs : List α} (nonempty : xs ≠ []) :
    ∃ n, ∃ _ : NeZero n, ∃ f : Fin n → α, xs = List.ofFn f :=
  ⟨xs.length, ⟨fun none => nonempty (List.length_eq_zero_iff.mp none)⟩, xs.get,
    (List.ofFn_get xs).symm⟩

/-- `ys` is `xs` with the values `g` in the cells of `s`. -/
def Overwritten (g : Nat → α) (s : Set Nat) (xs ys : List α) : Prop :=
  ys.length = xs.length ∧ (∀ i ∈ s, ys[i]? = some (g i)) ∧ ∀ i ∉ s, ys[i]? = xs[i]?

namespace Overwritten

variable {g : Nat → α} {s t : Set Nat} {xs ys zs : List α}

theorem none (g : Nat → α) (xs : List α) : Overwritten g ∅ xs xs :=
  ⟨rfl, fun _ inside => inside.elim, fun _ _ => rfl⟩

theorem set (before : Overwritten g s xs ys) {i : Nat} (inside : i < xs.length) :
    Overwritten g (insert i s) xs (ys.set i (g i)) := by
  obtain ⟨length, done, kept⟩ := before
  refine ⟨by simpa using length, fun j member => ?_, fun j outside => ?_⟩
  · rcases eq_or_ne j i with rfl | other
    · simp [length, inside]
    · rw [List.getElem?_set_ne other.symm]
      exact done j (member.resolve_left other)
  · have apart : j ≠ i := fun same => outside (Or.inl same)
    rw [List.getElem?_set_ne apart.symm]
    exact kept j fun member => outside (Or.inr member)

/-- The order of the writes leaves no trace. -/
theorem unique (left : Overwritten g s xs ys) (right : Overwritten g s xs zs) : ys = zs := by
  apply List.ext_getElem?
  intro i
  by_cases inside : i ∈ s
  · rw [left.2.1 i inside, right.2.1 i inside]
  · rw [left.2.2 i inside, right.2.2 i inside]

end Overwritten

/-! ## Loops that visit each cell once -/

open Loops

/-- `f` overwritten by `g` on the indices below `m`. -/
def upTo (m : Nat) (g f : Fin n → α) : Fin n → α := fun i => if i.val < m then g i else f i

@[simp] theorem upTo_zero (g f : Fin n → α) : upTo 0 g f = f := by
  funext i
  simp [upTo]

@[simp] theorem upTo_all (g f : Fin n → α) : upTo n g f = g := by
  funext i
  simp [upTo, i.isLt]

theorem upTo_next (g f : Fin n → α) (i : Fin n) : upTo i.val g f i = f i := by
  simp [upTo]

theorem update_upTo (g f : Fin n → α) (i : Fin n) :
    Function.update (upTo i.val g f) i (g i) = upTo (i.val + 1) g f := by
  funext j
  rcases eq_or_ne j i with rfl | other
  · simp [upTo]
  · have apart : j.val ≠ i.val := fun same => other (Fin.ext same)
    simp only [Function.update_of_ne other, upTo]
    split <;> split <;> first | rfl | omega

/-- A loop that writes cell `i` in turn `i` fills the first `n` cells. -/
theorem forLoop_fill {n : Nat} (g : Fin n → α) (xs : List α) (sized : n ≤ xs.length)
    (body : Nat → List α → Option (List α))
    (turn : ∀ (i : Fin n) ys, body i ys = write ys i (g i)) :
    forLoop 0 n xs body = some (List.ofFn g ++ xs.drop n) := by
  have run := forLoop_eq (Nat.zero_le n) body
    (fun i => (List.ofFn g).take i ++ xs.drop i) (by
    intro i _ inside
    have before : ((List.ofFn g).take i).length = i := by simp; omega
    have cell : xs.drop i = xs[i] :: xs.drop (i + 1) := List.drop_eq_getElem_cons (by omega)
    have fresh : (List.ofFn g).take (i + 1) = (List.ofFn g).take i ++ [g ⟨i, inside⟩] := by
      rw [List.take_add_one]
      simp [inside]
    have room : i < ((List.ofFn g).take i ++ xs.drop i).length := by
      simp only [List.length_append, before, List.length_drop]
      omega
    rw [turn ⟨i, inside⟩, write_eq room, cell, List.set_append_right _ _ before.le, before,
      Nat.sub_self, List.set_cons_zero, fresh, List.append_assoc, List.singleton_append])
  have all : (List.ofFn g).take n = List.ofFn g := List.take_of_length_le (by simp)
  simpa [all] using run

/-- A loop that writes `g i` in turn `i` overwrites the cells it visits. -/
theorem forLoop_overwrites {g : Nat → α} {lo hi : Nat} (le : lo ≤ hi) {s : Set Nat} {xs ys : List α}
    (before : Overwritten g s xs ys) (body : Nat → List α → Option (List α))
    (turn : ∀ i zs, lo ≤ i → i < hi → zs.length = xs.length → body i zs = some (zs.set i (g i)))
    (room : hi ≤ xs.length) : ∃ zs, forLoop lo hi ys body = some zs ∧
      Overwritten g (s ∪ Set.Ico lo hi) xs zs := by
  obtain ⟨zs, run, done⟩ := forLoop_invariant le body
    (fun m zs => Overwritten g (s ∪ Set.Ico lo m) xs zs) (by simpa using before) (by
    intro i zs low high done
    refine ⟨_, turn i zs low high done.1, ?_⟩
    have grown : s ∪ Set.Ico lo (i + 1) = insert i (s ∪ Set.Ico lo i) := by
      ext j
      simp only [Set.mem_union, Set.mem_Ico, Set.mem_insert_iff]
      grind
    rw [grown]
    exact done.set (by omega))
  exact ⟨zs, run, done⟩

/-- The indices below `m`. -/
def below (n m : Nat) : Finset (Fin n) := Finset.univ.filter fun i => i.val < m

@[simp] theorem below_zero (n : Nat) : below n 0 = ∅ := by simp [below]

@[simp] theorem below_all (n : Nat) : below n n = Finset.univ := by
  ext i
  simp [below]

theorem below_succ (i : Fin n) : below n (i.val + 1) = insert i (below n i.val) := by
  ext j
  simp only [below, Finset.mem_filter, Finset.mem_univ, true_and, Finset.mem_insert, Fin.ext_iff]
  omega

theorem notMem_below (i : Fin n) : i ∉ below n i.val := by simp [below]

end Arrays
