import Mathlib.Algebra.GroupWithZero.Nat
import Mathlib.Data.List.Basic

/-! # `blocking::list<T>`

The list as the sequence of the values in its cells, front first. Each operation holds
`m_mutex` for its whole body, so it is one action. The counter `m_size` has 32 bits,
and `empty` looks at the counter only.
-/

namespace KMeans

variable {α : Type}

/-- `class list<T>`. The counter follows the number of cells. -/
structure BlockingList (α : Type) where
  /-- The values in the cells from `m_front` on. -/
  cells : List α
  m_size : Nat
  counted : m_size = cells.length % 4294967296

namespace BlockingList

/-- `list()`. -/
def make : BlockingList α := ⟨[], 0, rfl⟩

/-- `push_back`. -/
def push_back (self : BlockingList α) (other : α) : BlockingList α where
  cells := self.cells ++ [other]
  m_size := (self.m_size + 1) % 4294967296
  counted := by rw [self.counted, List.length_append, List.length_singleton, Nat.mod_add_mod]

/-- `pop_front`: the value and the list that is left; `none` is the result `false`. -/
def pop_front (self : BlockingList α) : Option (α × BlockingList α) :=
  match stored : self.cells with
  | [] => none
  | front :: rest => some (front,
    { cells := rest
      -- `m_size--`
      m_size := (self.m_size + 4294967295) % 4294967296
      counted := by
        rw [self.counted, stored, List.length_cons]
        omega })

/-- `empty`. -/
def empty (self : BlockingList α) : Bool := !decide (self.m_size > 0)

/-- `size`. -/
def size (self : BlockingList α) : Nat := self.m_size

@[simp] theorem cells_make : (make : BlockingList α).cells = [] := rfl

@[simp] theorem cells_push_back (self : BlockingList α) (other : α) :
    (self.push_back other).cells = self.cells ++ [other] := rfl

theorem pop_front_eq_some {self rest : BlockingList α} {front : α}
    (popped : self.pop_front = some (front, rest)) : self.cells = front :: rest.cells := by
  unfold pop_front at popped
  split at popped
  case h_1 => cases popped
  case h_2 _ _ stored =>
    obtain ⟨rfl, rfl⟩ := Prod.mk.inj (Option.some.inj popped)
    exact stored

theorem pop_front_eq_none {self : BlockingList α} : self.pop_front = none ↔ self.cells = [] := by
  unfold pop_front
  split <;> simp [*]

theorem empty_of_singleton {self : BlockingList α} {v : α} (stored : self.cells = [v]) :
    self.empty = false := by
  simp [empty, self.counted, stored]

/-- A counter of zero means an empty list, up to `2 ^ 32` cells. -/
theorem cells_of_empty {self : BlockingList α} (none : self.empty = true)
    (small : self.cells.length < 2 ^ 32) : self.cells = [] := by
  have zero : self.m_size = 0 := by simpa [empty] using none
  rw [self.counted] at zero
  apply List.eq_nil_of_length_eq_zero
  omega

theorem pop_front_of_cons {self : BlockingList α} {front : α} {rest : List α}
    (stored : self.cells = front :: rest) :
    ∃ left, self.pop_front = some (front, left) ∧ left.cells = rest := by
  obtain ⟨⟨v, left⟩, popped⟩ := Option.ne_none_iff_exists'.mp
    (mt pop_front_eq_none.mp (by simp [stored]) : self.pop_front ≠ none)
  obtain ⟨rfl, same⟩ := List.cons.inj (stored.symm.trans (pop_front_eq_some popped))
  exact ⟨left, popped, same.symm⟩

end BlockingList

end KMeans
