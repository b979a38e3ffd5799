import KMeans.General.LostCenters
import KMeans.MultiThread.KmeansPP

/-! # `kmeansRosettaCode.cpp`

The other k-means program of the repository, in C and for points of a plane. Its centers are
in memory from `malloc`, and the mean of a cluster without points is `0 / 0`.

As before, `double`s are read as exact rationals, but here a coordinate can be NaN, and a
distance is compared with `HUGE_VAL`.
-/

namespace KMeans.Rosetta

open Loops Arrays

/-! ## Memory -/

/-- What `malloc` gives: a cell is `none` until something is written to it. -/
abbrev Cells (α : Type) := List (Option α)

/-- `cells[i]`. -/
def load {α : Type} (cells : Cells α) (i : Int) : Option α :=
  if 0 ≤ i then cells[i.toNat]?.join else none

/-- `cells[i] = v`. -/
def store {α : Type} (cells : Cells α) (i : Int) (v : α) : Option (Cells α) :=
  if 0 ≤ i then write cells i.toNat (some v) else none

/-! ## The program -/

/-- `point_t`. A coordinate that is NaN is `none`. -/
structure point_t where
  x : Option ℚ
  y : Option ℚ
  group : Int
  deriving DecidableEq

def randf (RAND_MAX r : Nat) (m : ℚ) : ℚ := KMeans.randf RAND_MAX r m

/-- `dist2`: NaN if a coordinate is. -/
def dist2 (a b : point_t) : Option ℚ := do
  let x := (← a.x) - (← b.x)
  let y := (← a.y) - (← b.y)
  some (x * x + y * y)

/-- One turn of the inner loop of `nearest`. No comparison with NaN holds. -/
def nearest.turn (pt : point_t) (cent : Cells point_t) (i : Nat) :
    WithTop ℚ × Int → Option (WithTop ℚ × Int)
  | (min_d, min_i) => do
    let c ← load cent i
    match dist2 c pt with
    | some d => if min_d > d then some (d, i) else some (min_d, min_i)
    | none => some (min_d, min_i)

/-- `nearest`: the index, and the distance for `d2`. The inner loop runs on the counter of the
    outer one, which therefore makes one turn; without a cluster it makes none and leaves
    both results unset. -/
def nearest (pt : point_t) (cent : Cells point_t) (n_cluster : Nat) : Option (Int × WithTop ℚ) :=
  if 0 < n_cluster then do
    let (min_d, min_i) ← forLoop 0 n_cluster (⊤, pt.group) (nearest.turn pt cent)
    some (min_i, min_d)
  else none

/-- One turn of the weighting loop. A weight of `HUGE_VAL` is not modelled. -/
def kpp.weighTurn (pts : List point_t) (cent : Cells point_t) (n_cluster j : Nat) :
    Cells ℚ × ℚ → Option (Cells ℚ × ℚ)
  | (d, sum) => do
    let p ← pts[j]?
    let (_, min_d) ← nearest p cent n_cluster
    let weight ← WithTop.recTopCoe none some min_d
    let d ← store d j weight
    some (d, sum + weight)

/-- One turn of the selection loop. -/
def kpp.selectTurn (pts : List point_t) (d : Cells ℚ) (n_cluster j : Nat) :
    ℚ × Cells point_t → Option ((ℚ × Cells point_t) × Bool)
  | (sum, cent) => do
    let weight ← load d j
    let sum := sum - weight
    if sum > 0 then some ((sum, cent), true)
    else
      let p ← pts[j]?
      let cent ← store cent n_cluster p
      some ((sum, cent), false)

/-- One turn of the loop over `n_cluster`. -/
def kpp.step (RAND_MAX : Nat) (rand : Nat → Nat) (pts : List point_t) (n_cluster : Nat) :
    Cells ℚ × Cells point_t → Option (Cells ℚ × Cells point_t)
  | (d, cent) => do
    let (d, sum) ← forLoop 0 pts.length (d, 0) (kpp.weighTurn pts cent n_cluster)
    let sum := randf RAND_MAX (rand n_cluster) sum
    let (_, cent) ← forBreak (kpp.selectTurn pts d n_cluster) pts.length 0 (sum, cent)
    some (d, cent)

/-- One turn of the last loop of `kpp`. -/
def kpp.groupTurn (cent : Cells point_t) (n_cluster j : Nat) (pts : List point_t) :
    Option (List point_t) := do
  let p ← pts[j]?
  let (min_i, _) ← nearest p cent n_cluster
  write pts j { p with group := min_i }

/-- `kpp`: the points with their groups, and the centers. -/
def kpp (RAND_MAX : Nat) (rand : Nat → Nat) (pts : List point_t) (cent : Cells point_t)
    (n_cent : Nat) : Option (List point_t × Cells point_t) := do
  let d : Cells ℚ := List.replicate pts.length none
  let p ← pts[rand 0 % pts.length]?
  let cent ← store cent 0 p
  let (_, cent) ← forLoop 1 n_cent (d, cent) (kpp.step RAND_MAX rand pts)
  -- the counter of the loop before it, which is at least 1
  let n_cluster := max 1 n_cent
  let pts ← forLoop 0 pts.length pts (kpp.groupTurn cent n_cluster)
  some (pts, cent)

/-- The variables of `lloyd` between two turns of its `do` loop. -/
structure LoopState where
  pts : List point_t
  cent : Cells point_t
  changed : Nat
  deriving DecidableEq

/-- One turn of the loop that adds the points to the sums. -/
def lloyd.addTurn (pts : List point_t) (j : Nat) (cent : Cells point_t) :
    Option (Cells point_t) := do
  let p ← pts[j]?
  let c ← load cent p.group
  let x := do some ((← c.x) + (← p.x))
  let y := do some ((← c.y) + (← p.y))
  store cent p.group ⟨x, y, c.group + 1⟩

/-- A quotient of `double`s. By zero the code only divides zero, which gives NaN. -/
def divide (a : Option ℚ) (n : Int) : Option ℚ :=
  if n = 0 then none else a.map (· / (n : ℚ))

/-- One turn of the loop that divides the sums. -/
def lloyd.divideTurn (i : Nat) (cent : Cells point_t) : Option (Cells point_t) := do
  let c ← load cent i
  store cent i ⟨divide c.x c.group, divide c.y c.group, c.group⟩

/-- One turn of the loop that finds the closest centers. -/
def lloyd.regroupTurn (cent : Cells point_t) (n_cluster j : Nat) :
    List point_t × Nat → Option (List point_t × Nat)
  | (pts, changed) => do
    let p ← pts[j]?
    let (min_i, _) ← nearest p cent n_cluster
    if min_i ≠ p.group then
      let pts ← write pts j { p with group := min_i }
      some (pts, changed + 1)
    else some (pts, changed)

/-- One turn of the `do` loop. -/
def lloyd.pass (n_cluster : Nat) (s : LoopState) : Option LoopState := do
  let cent ← forLoop 0 n_cluster s.cent fun i cent => store cent i ⟨some 0, some 0, 0⟩
  let cent ← forLoop 0 s.pts.length cent (lloyd.addTurn s.pts)
  let cent ← forLoop 0 n_cluster cent lloyd.divideTurn
  let (pts, changed) ← forLoop 0 s.pts.length (s.pts, 0) (lloyd.regroupTurn cent n_cluster)
  some ⟨pts, cent, changed⟩

/-- `changed > (len >> 10)`. -/
def lloyd.changing (s : LoopState) : Bool := s.changed > s.pts.length >>> 10

/-- The `do` loop, for at most `fuel` turns after the first one. -/
def lloyd.loop (fuel n_cluster : Nat) (s : LoopState) : Option LoopState := do
  let s ← lloyd.pass n_cluster s
  whileLoop lloyd.changing (lloyd.pass n_cluster) fuel s

/-- `lloyd`: the points with their groups, and the centers it returns. -/
def lloyd (fuel RAND_MAX : Nat) (rand : Nat → Nat) (pts : List point_t) (n_cluster : Nat) :
    Option (List point_t × Cells point_t) := do
  let cent : Cells point_t := List.replicate n_cluster none
  let (pts, cent) ← kpp RAND_MAX rand pts cent n_cluster
  let s ← lloyd.loop fuel n_cluster ⟨pts, cent, 0⟩
  let cent ← forLoop 0 n_cluster s.cent fun i cent => do
    let c ← load cent i
    store cent i { c with group := i }
  some (s.pts, cent)

end KMeans.Rosetta
