import KMeans.LoopBody

/-! # `singleThread::CKmeans`

The loop works on two center buffers. The pass accumulates the new centers into
`centNew`, overwrites `centOld` with zero vectors and swaps the two, so a cluster
without points comes out of the pass with the zero vector as its center.
-/

namespace KMeans.singleThread

open Loops Arrays Lloyd

variable {N : Nat}

/-! ## The program -/

/-- The local variables of `kmeans` between two iterations. -/
structure LoopState (N : Nat) where
  /-- `*centOld` -/
  centOld : List (CPoint N)
  /-- `*centNew` -/
  centNew : List (CPoint N)
  numPoints : List Nat
  indexes : List Nat
  V : ℚ
  oldV : ℚ
  numIterations : Nat
  deriving DecidableEq

def makeClusters : List (CPoint N) → List (CPoint N) → List Nat → Option (List Nat) :=
  KMeans.makeClusters

/-- One turn of the loop that finishes the new centers and clears the old ones. -/
def finishTurn (i : Nat) : List (CPoint N) × List (CPoint N) × List Nat →
    Option (List (CPoint N) × List (CPoint N) × List Nat)
  | (centOld, centNew, numPoints) => do
    let centOld ← write centOld i CPoint.getZero
    let n ← numPoints[i]?
    let centNew ← if n > 0 then modify centNew i (· / (n : ℚ)) else some centNew
    let numPoints ← write numPoints i 0
    some (centOld, centNew, numPoints)

/-- One iteration of `while (V != oldV)`. -/
def iteration (vpnts : List (CPoint N)) (s : LoopState N) : Option (LoopState N) := do
  let oldV := s.V
  let indexes ← makeClusters vpnts s.centOld s.indexes
  let (V, centNew, numPoints) ← accumulate vpnts s.centOld indexes (0, s.centNew, s.numPoints)
  let (centOld, centNew, numPoints) ← forLoop 0 centNew.length (s.centOld, centNew, numPoints)
    finishTurn
  -- `std::swap(centNew, centOld)`
  some { centOld := centNew, centNew := centOld, numPoints, indexes, V, oldV
         numIterations := s.numIterations + 1 }

/-- The local variables before the loop. -/
def start (centers : List (CPoint N)) (indexes : List Nat) : LoopState N where
  centOld := centers
  centNew := List.replicate centers.length default
  numPoints := List.replicate centers.length 0
  indexes := indexes
  V := 0
  oldV := -1
  numIterations := 0

def looping (s : LoopState N) : Bool := s.V != s.oldV

/-- The `while` loop of `kmeans`: the variables when it ends. -/
def kmeansLoop (fuel : Nat) (vpnts centers : List (CPoint N)) (indexes : List Nat) :
    Option (LoopState N) :=
  whileLoop looping (iteration vpnts) fuel (start centers indexes)

/-- `kmeans`: the centers it returns, and `indexes` as it leaves them. -/
def kmeans (fuel : Nat) (vpnts centers : List (CPoint N)) (indexes : List Nat) :
    Option (List (CPoint N) × List Nat) := do
  let s ← kmeansLoop fuel vpnts centers indexes
  some (s.centOld, s.indexes)

/-- `Run`, for at most `fuel` iterations of the Lloyd loop. -/
def Run (fuel RAND_MAX : Nat) (rand : Nat → Nat) (m_vpnts : List (CPoint N)) (m_k : Nat) :
    Option (List (CPoint N × List (CPoint N))) := do
  let cent ← kmeansPP RAND_MAX rand m_vpnts m_k []
  let (newCenters, indexes) ← kmeans fuel m_vpnts cent []
  group m_vpnts newCenters indexes

/-! ## Refinement of the abstract algorithm -/

/-- What becomes of the center of an empty cluster. -/
def emptied (_ : CPoint N) : CPoint N := 0

/-- The sum of a cluster over its number of points; the sum itself if there are none. -/
private def quotient {k : Nat} (sums : Fin k → CPoint N) (counts : Fin k → Nat) (j : Fin k) : CPoint N :=
  if counts j > 0 then sums j / (counts j : ℚ) else sums j

theorem finishTurn_eq {k : Nat} (old sums : Fin k → CPoint N) (counts : Fin k → Nat) (i : Fin k) :
    finishTurn i (List.ofFn (upTo i (fun _ => CPoint.getZero) old),
      List.ofFn (upTo i (quotient sums counts) sums), List.ofFn (upTo i (fun _ => 0) counts)) =
      some (List.ofFn (upTo (i + 1) (fun _ => CPoint.getZero) old),
        List.ofFn (upTo (i + 1) (quotient sums counts) sums),
        List.ofFn (upTo (i + 1) (fun _ => 0) counts)) := by
  simp only [finishTurn, write_ofFn, read_ofFn, modify_ofFn, upTo_next, Option.bind_eq_bind,
    Option.bind_some, ← update_upTo _ _ i, quotient]
  split
  case isTrue some_point => rfl
  case isFalse no_point =>
    have unchanged : Function.update (upTo i (quotient sums counts) sums) i (sums i) =
        upTo i (quotient sums counts) sums :=
      Function.update_eq_self_iff.mpr (upTo_next _ sums i).symm
    rw [unchanged]

theorem finish_eq {k : Nat} (old sums : Fin k → CPoint N) (counts : Fin k → Nat) :
    forLoop 0 k (List.ofFn old, List.ofFn sums, List.ofFn counts) finishTurn =
      some (List.replicate k CPoint.getZero, List.ofFn (quotient sums counts),
        List.replicate k 0) := by
  have run := forLoop_eq (Nat.zero_le k) (finishTurn (N := N))
    (fun m => (List.ofFn (upTo m (fun _ => CPoint.getZero) old),
      List.ofFn (upTo m (quotient sums counts) sums), List.ofFn (upTo m (fun _ => 0) counts)))
    fun m _ inside => finishTurn_eq old sums counts ⟨m, inside⟩
  simp only [upTo_zero, upTo_all, ← replicate_eq_ofFn] at run
  exact run

/-- A pass computes the means of the nonempty clusters, and zero for the others. -/
theorem quotient_members {n k : Nat} (x : Fin n → CPoint N) (c : Fin k → CPoint N)
    (a : Fin n → Fin k) :
    quotient (fun j => ∑ i ∈ members a j, x i) (fun j => (members a j).card) =
      recenter ℚ x emptied a c := by
  funext j
  by_cases inhabited : (members a j).Nonempty
  · rw [quotient, if_pos inhabited.card_pos, recenter, if_pos inhabited, CPoint.div_eq_smul,
      LeastSquares.mean]
  · have none : members a j = ∅ := Finset.not_nonempty_iff_eq_empty.mp inhabited
    simp [quotient, recenter, none, emptied]

section Trace

variable {n k : Nat} [NeZero k] (x : Fin n → CPoint N) (c : Fin k → CPoint N) (unused : List Nat)

/-- The state that the loop is in after `m` iterations. -/
def trace (m : Nat) : LoopState N where
  centOld := List.ofFn (centers CPoint.normSq x emptied c m)
  centNew := List.replicate k CPoint.getZero
  numPoints := List.replicate k 0
  indexes := storedIndexes x emptied c unused m
  V := previous CPoint.normSq x emptied c m
  oldV := olderCost x emptied c m
  numIterations := m

theorem start_eq : start (List.ofFn c) unused = trace x c unused 0 := by
  simp [start, trace, storedIndexes, olderCost, previous, centers, default]

theorem iteration_eq (m : Nat) : iteration (List.ofFn x) (trace x c unused m) =
    some (trace x c unused (m + 1)) := by
  simp only [iteration, trace, makeClusters, makeClusters_eq, drop_storedIndexes,
    Option.bind_eq_bind, Option.bind_some, accumulate_eq, List.length_ofFn, finish_eq,
    quotient_members x (centers CPoint.normSq x emptied c m), centers_succ]
  rfl

theorem looping_trace_succ (m : Nat) : looping (trace x c unused (m + 1)) = false ↔
    value CPoint.normSq x emptied c m = previous CPoint.normSq x emptied c m := by
  simp [looping, trace, olderCost, previous]

theorem looping_trace_zero : looping (trace x c unused 0) = true := by
  simp [looping, trace, olderCost, previous]

/-- The loop returns exactly after the first pass that repeats the cost. -/
theorem kmeansLoop_eq_some (fuel : Nat) (s : LoopState N) :
    kmeansLoop fuel (List.ofFn x) (List.ofFn c) unused = some s ↔
      ∃ m < fuel, StopsAt CPoint.normSq x emptied c m ∧ s = trace x c unused (m + 1) := by
  have run := whileLoop_eq_some_of_test (iteration_eq x c unused) (looping_trace_zero x c unused)
    (looping_trace_succ x c unused) fuel
  simp only [kmeansLoop, start_eq x c unused, run, StopsAt, and_assoc]

end Trace

/-- `Run` in terms of the passes: it returns after the first pass that repeats the cost. -/
theorem Run_eq_some {n k : Nat} [NeZero k] {x : Fin n → CPoint N} {c : Fin k → CPoint N}
    {RAND_MAX : Nat} {rand : Nat → Nat}
    (seeds : kmeansPP RAND_MAX rand (List.ofFn x) k [] = some (List.ofFn c)) (fuel : Nat)
    (r : List (CPoint N × List (CPoint N))) :
    Run fuel RAND_MAX rand (List.ofFn x) k = some r ↔
      ∃ m < fuel, StopsAt CPoint.normSq x emptied c m ∧
        r = List.ofFn fun j => (centers CPoint.normSq x emptied c (m + 1) j,
          groupOf x (indexes CPoint.normSq x emptied c m) j) := by
  simp only [Run, kmeans, seeds, Option.bind_eq_bind, Option.bind_some, Option.bind_assoc,
    Option.bind_eq_some_iff, kmeansLoop_eq_some]
  constructor
  · rintro ⟨s, ⟨m, lt, stop, rfl⟩, grouped⟩
    simp only [trace, storedIndexes, group_eq, Option.some.injEq] at grouped
    exact ⟨m, lt, stop, grouped.symm⟩
  · rintro ⟨m, lt, stop, rfl⟩
    exact ⟨_, ⟨m, lt, stop, rfl⟩, by simp only [trace, storedIndexes, group_eq]⟩

end KMeans.singleThread
