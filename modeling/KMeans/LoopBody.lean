import KMeans.MultiThread.KmeansPP

/-! # What the two Lloyd loops share

Assignment of the points in index order, accumulation of cost, sums and counters
per cluster, and the grouping of the points at the end of `Run` are the same
statements in both classes. Each has one specification in terms of the abstract
algorithm, under the representation of arrays as listings of functions.
-/

namespace KMeans

open Loops Arrays Lloyd

variable {N : Nat}

/-! ## The statements -/

/-- `indexes[i] = findNearest(vpnts[i], centers, dist2)`. -/
def assignTurn (vpnts centers : List (CPoint N)) (i : Nat) (indexes : List Nat) :
    Option (List Nat) := do
  let pnt ← vpnts[i]?
  let (min_i, _) ← findNearest pnt centers
  write indexes i min_i

/-- `if (indexes.size() < vpnts.size()) indexes.resize(vpnts.size());`, then the
    assignment of every point in index order. -/
def makeClusters (vpnts centers : List (CPoint N)) (indexes : List Nat) : Option (List Nat) :=
  forLoop 0 vpnts.length (grow indexes vpnts.length 0) (assignTurn vpnts centers)

/-- One turn of the accumulating loop: `V`, the sum and the counter of one cluster. -/
def accumulateTurn (vpnts centers : List (CPoint N)) (indexes : List Nat) (i : Nat) :
    ℚ × List (CPoint N) × List Nat → Option (ℚ × List (CPoint N) × List Nat)
  | (V, accumulator, numPoints) => do
    let ind ← indexes[i]?
    let vpnt ← vpnts[i]?
    let center ← centers[ind]?
    let pnt := vpnt - center
    let accumulator ← modify accumulator ind (· + vpnt)
    let numPoints ← modify numPoints ind (· + 1)
    some (V + pnt * pnt, accumulator, numPoints)

/-- `accumulate`, against the centers that the indexes were computed from. -/
def accumulate (vpnts centers : List (CPoint N)) (indexes : List Nat)
    (s : ℚ × List (CPoint N) × List Nat) : Option (ℚ × List (CPoint N) × List Nat) :=
  forLoop 0 vpnts.length s (accumulateTurn vpnts centers indexes)

/-- One turn of the grouping loop. -/
def groupTurn (vpnts : List (CPoint N)) (indexes : List Nat) (i : Nat)
    (result : List (CPoint N × List (CPoint N))) : Option (List (CPoint N × List (CPoint N))) := do
  let ind ← indexes[i]?
  let vpnt ← vpnts[i]?
  modify result ind fun (center, group) => (center, group ++ [vpnt])

/-- The end of `Run`: a pair for every center, then every point to its group. -/
def group (vpnts centers : List (CPoint N)) (indexes : List Nat) :
    Option (List (CPoint N × List (CPoint N))) :=
  forLoop 0 vpnts.length (centers.map fun e => (e, [])) (groupTurn vpnts indexes)

/-! ## Their meaning -/

/-- Cluster numbers as the program stores them: the first cells of the index
    array, which may be longer than the list of points. -/
def listing {n k : Nat} (a : Fin n → Fin k) (rest : List Nat) : List Nat :=
  List.ofFn (fun i => (a i).val) ++ rest

theorem read_listing {n k : Nat} (a : Fin n → Fin k) (rest : List Nat) (i : Fin n) :
    (listing a rest)[i.val]? = some (a i).val := by
  rw [listing, List.getElem?_append_left (by simp)]
  exact read_ofFn (fun i => (a i).val) i

/-- What the loop has accumulated after the points in `s`. -/
private def accumulated {n k : Nat} (x : Fin n → CPoint N) (c : Fin k → CPoint N)
    (a : Fin n → Fin k) (s : Finset (Fin n)) : ℚ × List (CPoint N) × List Nat :=
  (∑ i ∈ s, CPoint.normSq (x i - c (a i)),
    List.ofFn fun j => ∑ i ∈ s.filter fun i => a i = j, x i,
    List.ofFn fun j => (s.filter fun i => a i = j).card)

private theorem accumulateTurn_eq {n k : Nat} (x : Fin n → CPoint N) (c : Fin k → CPoint N)
    (a : Fin n → Fin k) (rest : List Nat) (i : Fin n) :
    accumulateTurn (List.ofFn x) (List.ofFn c) (listing a rest) i
      (accumulated x c a (below n i)) = some (accumulated x c a (below n (i + 1))) := by
  have fresh : i ∉ below n i := notMem_below i
  have total : ∑ l ∈ insert i (below n i), CPoint.normSq (x l - c (a l)) =
      ∑ l ∈ below n i, CPoint.normSq (x l - c (a l)) + (x i - c (a i)) * (x i - c (a i)) := by
    rw [Finset.sum_insert fresh, add_comm, CPoint.normSq_apply]
  have sums : Function.update (fun j => ∑ l ∈ (below n i).filter fun l => a l = j, x l) (a i)
      ((∑ l ∈ (below n i).filter fun l => a l = a i, x l) + x i) =
      fun j => ∑ l ∈ (insert i (below n i)).filter fun l => a l = j, x l := by
    funext j
    rcases eq_or_ne j (a i) with rfl | other
    · rw [Function.update_self, Finset.filter_insert, if_pos rfl,
        Finset.sum_insert (by simp [fresh]), add_comm]
    · rw [Function.update_of_ne other, Finset.filter_insert, if_neg other.symm]
  have counts : Function.update (fun j => ((below n i).filter fun l => a l = j).card) (a i)
      (((below n i).filter fun l => a l = a i).card + 1) =
      fun j => ((insert i (below n i)).filter fun l => a l = j).card := by
    funext j
    rcases eq_or_ne j (a i) with rfl | other
    · rw [Function.update_self, Finset.filter_insert, if_pos rfl,
        Finset.card_insert_of_notMem (by simp [fresh])]
    · rw [Function.update_of_ne other, Finset.filter_insert, if_neg other.symm]
  simp only [accumulateTurn, accumulated, read_listing, read_ofFn, modify_ofFn,
    Option.bind_eq_bind, Option.bind_some, below_succ, total, sums, counts]

theorem accumulate_eq {n k : Nat} (x : Fin n → CPoint N) (c : Fin k → CPoint N)
    (a : Fin n → Fin k) (rest : List Nat) :
    accumulate (List.ofFn x) (List.ofFn c) (listing a rest)
      (0, List.replicate k CPoint.getZero, List.replicate k 0) =
      some (cost CPoint.normSq x c a, List.ofFn fun j => ∑ i ∈ members a j, x i,
        List.ofFn fun j => (members a j).card) := by
  have run := forLoop_eq (Nat.zero_le n)
    (accumulateTurn (List.ofFn x) (List.ofFn c) (listing a rest))
    (fun i => accumulated x c a (below n i)) fun i _ inside => accumulateTurn_eq x c a rest ⟨i, inside⟩
  simp only [accumulated, below_zero, below_all, Finset.filter_empty, Finset.sum_empty,
    Finset.card_empty, ← CPoint.getZero_eq, ← replicate_eq_ofFn] at run
  rw [accumulate, List.length_ofFn]
  exact run

theorem assignTurn_eq {n k : Nat} [NeZero k] (x : Fin n → CPoint N) (c : Fin k → CPoint N)
    (i : Fin n) (indexes : List Nat) : assignTurn (List.ofFn x) (List.ofFn c) i indexes =
      write indexes i (assign CPoint.normSq x c i).val := by
  simp only [assignTurn, read_ofFn, findNearest_ofFn, Option.bind_eq_bind, Option.bind_some, assign]

theorem makeClusters_eq {n k : Nat} [NeZero k] (x : Fin n → CPoint N) (c : Fin k → CPoint N)
    (indexes : List Nat) : makeClusters (List.ofFn x) (List.ofFn c) indexes =
      some (listing (assign CPoint.normSq x c) (indexes.drop n)) := by
  have filled := forLoop_fill (fun i : Fin n => (assign CPoint.normSq x c i).val)
    (grow indexes n 0) (by rw [length_grow]; omega) _ (assignTurn_eq x c)
  have tail : (grow indexes n 0).drop n = indexes.drop n := by
    rcases le_total n indexes.length with le | le
    · rw [grow_of_le le]
    · rw [List.drop_of_length_le le, List.drop_of_length_le (by rw [length_grow]; omega)]
  rw [makeClusters, List.length_ofFn, filled, tail, listing]

theorem findNearest_listing {n k : Nat} [NeZero k] (x : Fin n → CPoint N) (c : Fin k → CPoint N)
    (rest : List Nat) {i : Nat} {pnt : CPoint N} (read : (List.ofFn x)[i]? = some pnt) :
    ∃ min_i dist2, findNearest pnt (List.ofFn c) = some (min_i, dist2) ∧
      (listing (assign CPoint.normSq x c) rest)[i]? = some min_i := by
  have inside : i < n := by simpa using (List.getElem?_eq_some_iff.mp read).1
  have point := read_ofFn x ⟨i, inside⟩
  obtain rfl : x ⟨i, inside⟩ = pnt := Option.some.inj (point.symm.trans read)
  exact ⟨_, _, findNearest_ofFn c _, read_listing _ rest ⟨i, inside⟩⟩

/-- The members of a cluster, in the order of the input. -/
def groupOf {n k : Nat} (x : Fin n → CPoint N) (a : Fin n → Fin k) (j : Fin k) : List (CPoint N) :=
  ((List.finRange n).filter fun i => a i = j).map x

theorem group_eq {n k : Nat} (x : Fin n → CPoint N) (c : Fin k → CPoint N) (a : Fin n → Fin k)
    (rest : List Nat) : group (List.ofFn x) (List.ofFn c) (listing a rest) =
      some (List.ofFn fun j => (c j, groupOf x a j)) := by
  have run := forLoop_eq (Nat.zero_le n) (groupTurn (List.ofFn x) (listing a rest))
    (fun m => List.ofFn fun j => (c j, (((List.finRange n).take m).filter fun i => a i = j).map x))
    (by
    intro m _ inside
    have next : (List.finRange n).take (m + 1) = (List.finRange n).take m ++ [⟨m, inside⟩] := by
      rw [List.take_add_one]
      simp [inside]
    have read := read_listing a rest ⟨m, inside⟩
    have point := read_ofFn x ⟨m, inside⟩
    simp only at read point
    simp only [groupTurn, read, point, Option.bind_eq_bind, Option.bind_some, modify_ofFn, next,
      List.filter_append, List.map_append]
    congr 2
    funext j
    rcases eq_or_ne j (a ⟨m, inside⟩) with rfl | other
    · simp
    · simp [Function.update_of_ne other, other.symm])
  have all : (List.finRange n).take n = List.finRange n := List.take_of_length_le (by simp)
  have pairs : (List.ofFn c).map (fun e => (e, ([] : List (CPoint N)))) =
      List.ofFn fun j => (c j, []) := by
    rw [List.map_ofFn]
    rfl
  rw [group, List.length_ofFn, pairs]
  simpa [all, groupOf] using run

/-! ## What a loop remembers between two passes -/

section Memory

variable {n k : Nat} [NeZero k] (x : Fin n → CPoint N) (empty : CPoint N → CPoint N)
  (c : Fin k → CPoint N) (unused : List Nat)

/-- The index array after `m` passes, when it was `unused` at first. -/
def storedIndexes : Nat → List Nat
  | 0 => unused
  | m + 1 => listing (indexes CPoint.normSq x empty c m) (unused.drop n)

theorem drop_storedIndexes (m : Nat) :
    (storedIndexes x empty c unused m).drop n = unused.drop n := by
  cases m with
  | zero => rfl
  | succ m => rw [storedIndexes, listing, List.drop_append_of_le_length (by simp)]; simp

/-- `oldV` after `m` passes; `-1` before the first one. -/
def olderCost : Nat → ℚ
  | 0 => -1
  | m + 1 => previous CPoint.normSq x empty c m

end Memory

end KMeans
