import Mathlib.Algebra.BigOperators.Fin
import Mathlib.Algebra.Module.Pi
import Mathlib.Algebra.Module.TransferInstance
import Mathlib.Algebra.Order.Ring.Rat
import Mathlib.LinearAlgebra.QuadraticForm.Basic

/-! # `CPoint<N>`

A vector of `N` floats, read as exact rationals. The operators are those of
`userData/point.h`; the algebra they generate is what the clustering proofs use.
-/

/-- `class CPoint<N>`: the coordinates `m_coord[0 .. N-1]`. -/
@[ext] structure CPoint (N : Nat) where
  m_coord : Fin N → ℚ

namespace CPoint

variable {N : Nat}

instance : DecidableEq (CPoint N) := fun _ _ => decidable_of_iff _ CPoint.ext_iff.symm

/-- `CPoint()`, and `getZero()`: every coordinate is zero. -/
def getZero : CPoint N := ⟨fun _ => 0⟩

/-- `operator-`. -/
def sub (self other : CPoint N) : CPoint N := ⟨fun i => self.m_coord i - other.m_coord i⟩

/-- `operator+` and `operator+=`. -/
def add (self other : CPoint N) : CPoint N := ⟨fun i => self.m_coord i + other.m_coord i⟩

/-- `operator*(const CPoint&)`: the scalar product, accumulated from zero. -/
def mul (self other : CPoint N) : ℚ :=
  Fin.foldl N (fun result i => result + self.m_coord i * other.m_coord i) 0

/-- `operator*(float)` and `operator*=`. -/
def scale (self : CPoint N) (mul : ℚ) : CPoint N := ⟨fun i => self.m_coord i * mul⟩

/-- `operator/` and `operator/=`. -/
def div (self : CPoint N) (div : ℚ) : CPoint N := ⟨fun i => self.m_coord i / div⟩

instance : Zero (CPoint N) := ⟨getZero⟩
instance : Add (CPoint N) := ⟨add⟩
instance : Sub (CPoint N) := ⟨sub⟩
instance : HMul (CPoint N) (CPoint N) ℚ := ⟨mul⟩
instance : HDiv (CPoint N) ℚ (CPoint N) := ⟨div⟩
instance : Inhabited (CPoint N) := ⟨getZero⟩

/-! ## The vector space of points -/

instance : Neg (CPoint N) := ⟨fun p => ⟨fun i => -p.m_coord i⟩⟩
instance : SMul ℕ (CPoint N) := ⟨fun k p => ⟨fun i => k • p.m_coord i⟩⟩
instance : SMul ℤ (CPoint N) := ⟨fun k p => ⟨fun i => k • p.m_coord i⟩⟩
instance : SMul ℚ (CPoint N) := ⟨fun k p => ⟨fun i => k • p.m_coord i⟩⟩

theorem m_coord_injective : Function.Injective (m_coord : CPoint N → Fin N → ℚ) :=
  fun _ _ same => CPoint.ext same

instance : AddCommGroup (CPoint N) :=
  m_coord_injective.addCommGroup m_coord rfl (fun _ _ => rfl) (fun _ => rfl) (fun _ _ => rfl)
    (fun _ _ => rfl) (fun _ _ => rfl)

/-- Reading the coordinates, as a homomorphism. -/
def coords : CPoint N →+ (Fin N → ℚ) where
  toFun := m_coord
  map_zero' := rfl
  map_add' _ _ := rfl

instance : Module ℚ (CPoint N) := m_coord_injective.module ℚ coords fun _ _ => rfl

@[simp] theorem m_coord_zero (i : Fin N) : (0 : CPoint N).m_coord i = 0 := rfl

@[simp] theorem m_coord_add (p q : CPoint N) (i : Fin N) :
    (p + q).m_coord i = p.m_coord i + q.m_coord i := rfl

@[simp] theorem m_coord_sub (p q : CPoint N) (i : Fin N) :
    (p - q).m_coord i = p.m_coord i - q.m_coord i := rfl

@[simp] theorem m_coord_smul (k : ℚ) (p : CPoint N) (i : Fin N) :
    (k • p).m_coord i = k * p.m_coord i := rfl

theorem getZero_eq : (getZero : CPoint N) = 0 := rfl

theorem div_eq_smul (p : CPoint N) (k : ℚ) : p / k = k⁻¹ • p := by
  ext i
  exact div_eq_inv_mul (p.m_coord i) k

theorem mul_eq_sum (p q : CPoint N) : p * q = ∑ i, p.m_coord i * q.m_coord i := by
  have loop : ∀ (n : Nat) (f : Fin n → ℚ),
      Fin.foldl n (fun result i => result + f i) 0 = ∑ i, f i := by
    intro n
    induction n with
    | zero => intro f; simp
    | succ n ih =>
        intro f
        rw [Fin.foldl_succ_last, Fin.sum_univ_castSucc, ih]
  exact loop N fun i => p.m_coord i * q.m_coord i

/-! ## The squared length -/

/-- The scalar product as a bilinear map. -/
def mulBilin : LinearMap.BilinMap ℚ (CPoint N) ℚ :=
  LinearMap.mk₂ ℚ (fun p q => p * q)
    (fun p p' q => by simp only [mul_eq_sum, m_coord_add, add_mul, Finset.sum_add_distrib])
    (fun k p q => by simp only [mul_eq_sum, m_coord_smul, mul_assoc, Finset.mul_sum, smul_eq_mul])
    (fun p q q' => by simp only [mul_eq_sum, m_coord_add, mul_add, Finset.sum_add_distrib])
    (fun k p q => by simp only [mul_eq_sum, m_coord_smul, mul_left_comm _ k, Finset.mul_sum,
      smul_eq_mul])

/-- `pnt * pnt`, the squared length that all distances are compared by. -/
def normSq : QuadraticForm ℚ (CPoint N) := mulBilin.toQuadraticMap

@[simp] theorem normSq_apply (p : CPoint N) : normSq p = p * p := rfl

theorem normSq_posDef : (normSq : QuadraticForm ℚ (CPoint N)).PosDef := by
  intro p nonzero
  rw [normSq_apply, mul_eq_sum]
  have square : ∀ i, 0 ≤ p.m_coord i * p.m_coord i := fun i => mul_self_nonneg _
  refine lt_of_le_of_ne (Finset.sum_nonneg fun i _ => square i) fun vanish => nonzero ?_
  ext i
  have each := (Finset.sum_eq_zero_iff_of_nonneg fun i _ => square i).mp vanish.symm
  exact mul_self_eq_zero.mp (each i (Finset.mem_univ i))

end CPoint
