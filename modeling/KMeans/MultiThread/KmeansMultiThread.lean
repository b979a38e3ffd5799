import KMeans.LoopBody

/-! # `multiThread::CKmeans`

The centers stay in place and a separate accumulator collects the sums, so a
cluster without points keeps its center. The assignment pass is cut into twelve
tasks. Here the tasks of one pass run one after another, in an order that may be
any permutation; the threads come with the pool.
-/

namespace KMeans.multiThread

open Loops Arrays Lloyd

variable {N : Nat}

/-! ## The program -/

/-- Conversion of a `size_t` to `int`. -/
def toInt (n : Nat) : Int := (n : Int).bmod 4294967296

/-- Conversion of an `int` to `unsigned int`. -/
def toUnsigned (z : Int) : Nat := (z % 4294967296).toNat

/-- The range of a `CKMTask`; its other members are references to the vectors. -/
structure CKMTask where
  m_begin : Int
  m_end : Int
  deriving DecidableEq

/-- The constructor of `CKMTask`, which takes two `int` parameters. -/
def CKMTask.make (_begin _end : Nat) : CKMTask := ⟨toInt _begin, toInt _end⟩

/-- `CKMTask::Execute`. The counter is unsigned and so is the comparison; it stays
    below `m_end`, so its increment never wraps. -/
def CKMTask.Execute (task : CKMTask) (m_vpnts m_centers : List (CPoint N)) (m_indexes : List Nat) :
    Option (List Nat) :=
  forLoop (toUnsigned task.m_begin) (toUnsigned task.m_end) m_indexes (assignTurn m_vpnts m_centers)

def numTasks : Nat := 12

/-- The tasks of one iteration, for `size` points. -/
def makeTasks (size : Nat) : List CKMTask :=
  let curNums := size / (numTasks - 1)
  let additionly := size % (numTasks - 1)
  (List.range (numTasks - 1)).map (fun i => .make (i * curNums) (i * curNums + curNums)) ++
    [.make ((numTasks - 1) * curNums) ((numTasks - 1) * curNums + additionly)]

/-- `makeClusters`, when the tasks happen to be executed in the given order. -/
def makeClusters (m_vpnts : List (CPoint N)) (order : List CKMTask) (m_centers : List (CPoint N))
    (m_indexes : List Nat) : Option (List Nat) :=
  order.foldlM (fun m_indexes task => task.Execute m_vpnts m_centers m_indexes)
    (grow m_indexes m_vpnts.length 0)

/-- The variables of `kmeans` and the members it changes, between two iterations. -/
structure LoopState (N : Nat) where
  m_centers : List (CPoint N)
  m_indexes : List Nat
  numPoints : List Nat
  accumulator : List (CPoint N)
  V : ℚ
  oldV : ℚ
  numIterations : Nat
  deriving DecidableEq

/-- One turn of the loop that recomputes the centers. -/
def updateTurn (i : Nat) : List (CPoint N) × List Nat × List (CPoint N) →
    Option (List (CPoint N) × List Nat × List (CPoint N))
  | (m_centers, numPoints, accumulator) => do
    let n ← numPoints[i]?
    let m_centers ← if n > 0 then do
        let sum ← accumulator[i]?
        write m_centers i (sum / (n : ℚ))
      else some m_centers
    let numPoints ← write numPoints i 0
    let accumulator ← write accumulator i CPoint.getZero
    some (m_centers, numPoints, accumulator)

/-- How the assignment pass of an iteration comes out: from the number of
    iterations made before, the centers and the old indexes, the new indexes. -/
abbrev Assignment (N : Nat) := Nat → List (CPoint N) → List Nat → Option (List Nat)

/-- The sequential result of the assignment pass. -/
def inOrder (m_vpnts : List (CPoint N)) : Assignment N := fun _ => KMeans.makeClusters m_vpnts

/-- The assignment pass by tasks, executed in the order `order j` in iteration `j`. -/
def byTasks (m_vpnts : List (CPoint N)) (order : Nat → List CKMTask) : Assignment N :=
  fun j => makeClusters m_vpnts (order j)

/-- One iteration of `while (V != oldV)`. -/
def iteration (pass : Assignment N) (m_vpnts : List (CPoint N)) (s : LoopState N) :
    Option (LoopState N) := do
  let oldV := s.V
  let m_indexes ← pass s.numIterations s.m_centers s.m_indexes
  let (V, accumulator, numPoints) ← accumulate m_vpnts s.m_centers m_indexes
    (0, s.accumulator, s.numPoints)
  let (m_centers, numPoints, accumulator) ← forLoop 0 s.m_centers.length
    (s.m_centers, numPoints, accumulator) updateTurn
  some { m_centers, m_indexes, numPoints, accumulator, V, oldV
         numIterations := s.numIterations + 1 }

/-- The variables before the loop. -/
def start (m_centers : List (CPoint N)) (m_indexes : List Nat) : LoopState N where
  m_centers := m_centers
  m_indexes := m_indexes
  numPoints := List.replicate m_centers.length 0
  accumulator := List.replicate m_centers.length default
  V := 0
  oldV := -1
  numIterations := 0

def looping (s : LoopState N) : Bool := s.V != s.oldV

/-- The `while` loop of `kmeans`: the variables when it ends. -/
def kmeansLoop (pass : Assignment N) (fuel : Nat) (m_vpnts m_centers : List (CPoint N))
    (m_indexes : List Nat) : Option (LoopState N) :=
  whileLoop looping (iteration pass m_vpnts) fuel (start m_centers m_indexes)

/-- `kmeans`: the members `m_centers` and `m_indexes` as it leaves them. -/
def kmeans (pass : Assignment N) (fuel : Nat) (m_vpnts m_centers : List (CPoint N))
    (m_indexes : List Nat) : Option (List (CPoint N) × List Nat) := do
  let s ← kmeansLoop pass fuel m_vpnts m_centers m_indexes
  some (s.m_centers, s.m_indexes)

/-- The members of a `CKmeans` object that survive a call of `Run`. -/
structure Members (N : Nat) where
  m_indexes : List Nat
  m_centers : List (CPoint N)

/-- A freshly built object. -/
def Members.fresh : Members N := ⟨[], []⟩

/-- `Run`, for at most `fuel` iterations of the Lloyd loop. -/
def Run (pass : Assignment N) (fuel RAND_MAX : Nat) (rand : Nat → Nat) (m_vpnts : List (CPoint N))
    (m_numClusters : Nat) (members : Members N) :
    Option (Members N × List (CPoint N × List (CPoint N))) := do
  let m_centers ← kmeansPP RAND_MAX rand m_vpnts m_numClusters members.m_centers
  let (m_centers, m_indexes) ← kmeans pass fuel m_vpnts m_centers members.m_indexes
  let result ← group m_vpnts m_centers m_indexes
  some (⟨m_indexes, m_centers⟩, result)

/-! ## The tasks -/

theorem toUnsigned_toInt {n : Nat} (small : n < 2 ^ 32) : toUnsigned (toInt n) = n := by
  unfold toUnsigned toInt Int.bmod
  dsimp only
  split <;> omega

@[simp] theorem CKMTask.m_begin_make (lo hi : Nat) : (CKMTask.make lo hi).m_begin = toInt lo := by
  rw [CKMTask.make]

@[simp] theorem CKMTask.m_end_make (lo hi : Nat) : (CKMTask.make lo hi).m_end = toInt hi := by
  rw [CKMTask.make]

theorem makeTasks_eq (size : Nat) : makeTasks size =
    (List.range 11).map (fun i => .make (i * (size / 11)) (i * (size / 11) + size / 11)) ++
      [.make (11 * (size / 11)) (11 * (size / 11) + size % 11)] := rfl

theorem mem_makeTasks {size : Nat} (small : size < 2 ^ 32) {task : CKMTask}
    (member : task ∈ makeTasks size) : ∃ lo hi, lo ≤ hi ∧ hi ≤ size ∧
      toUnsigned task.m_begin = lo ∧ toUnsigned task.m_end = hi := by
  have parts := Nat.div_add_mod size 11
  have narrow : ∀ lo hi, lo ≤ hi → hi ≤ size → task = .make lo hi → ∃ lo hi, lo ≤ hi ∧ hi ≤ size ∧
      toUnsigned task.m_begin = lo ∧ toUnsigned task.m_end = hi := by
    rintro lo hi le high rfl
    rw [CKMTask.m_begin_make, CKMTask.m_end_make, toUnsigned_toInt (by omega),
      toUnsigned_toInt (by omega)]
    exact ⟨lo, hi, le, high, rfl, rfl⟩
  simp only [makeTasks_eq, List.mem_append, List.mem_map, List.mem_range, List.mem_singleton]
    at member
  rcases member with ⟨i, lt, same⟩ | same
  · have fits : (i + 1) * (size / 11) ≤ 11 * (size / 11) := Nat.mul_le_mul_right _ lt
    rw [Nat.add_mul, Nat.one_mul] at fits
    exact narrow _ _ (by omega) (by omega) same.symm
  · exact narrow _ _ (by omega) (by omega) same

/-- The ranges of the tasks cover the points, and nothing else. -/
theorem makeTasks_cover {size : Nat} (small : size < 2 ^ 32) (i : Nat) :
    (∃ task ∈ makeTasks size, toUnsigned task.m_begin ≤ i ∧ i < toUnsigned task.m_end) ↔
      i < size := by
  constructor
  · rintro ⟨task, member, low, high⟩
    obtain ⟨lo, hi, -, le, -, last⟩ := mem_makeTasks small member
    omega
  · intro inside
    have parts := Nat.div_add_mod size 11
    have covers : ∀ lo hi, lo ≤ i → i < hi → hi ≤ size → CKMTask.make lo hi ∈ makeTasks size →
        ∃ task ∈ makeTasks size, toUnsigned task.m_begin ≤ i ∧ i < toUnsigned task.m_end := by
      intro lo hi low high le member
      refine ⟨_, member, ?_⟩
      rw [CKMTask.m_begin_make, CKMTask.m_end_make, toUnsigned_toInt (by omega),
        toUnsigned_toInt (by omega)]
      exact ⟨low, high⟩
    rw [makeTasks_eq] at covers ⊢
    rcases Nat.lt_or_ge i (11 * (size / 11)) with chunk | rest
    · have block : i / (size / 11) < 11 := Nat.div_lt_of_lt_mul (by rwa [Nat.mul_comm] at chunk)
      have split := Nat.div_add_mod' i (size / 11)
      have remainder : i % (size / 11) < size / 11 := Nat.mod_lt _ (by omega)
      have fits : (i / (size / 11) + 1) * (size / 11) ≤ 11 * (size / 11) :=
        Nat.mul_le_mul_right _ block
      rw [Nat.add_mul, Nat.one_mul] at fits
      exact covers _ _ (Nat.div_mul_le_self i _) (by omega) (by omega) (List.mem_append_left _
        (List.mem_map.mpr ⟨_, List.mem_range.mpr block, rfl⟩))
    · exact covers _ _ rest (by omega) (by omega)
        (List.mem_append_right _ (List.mem_singleton.mpr rfl))

/-- The points that a list of tasks visits. -/
def visited (order : List CKMTask) : Set Nat :=
  {i | ∃ task ∈ order, toUnsigned task.m_begin ≤ i ∧ i < toUnsigned task.m_end}

section Tasks

variable {n k : Nat} [NeZero k] (x : Fin n → CPoint N) (c : Fin k → CPoint N)

/-- The cluster number that the program stores for point `i`. -/
def stored (i : Nat) : Nat := if inside : i < n then (assign CPoint.normSq x c ⟨i, inside⟩).val else 0

theorem assignTurn_stored {i : Nat} (inside : i < n) {indexes : List Nat}
    (room : i < indexes.length) : assignTurn (List.ofFn x) (List.ofFn c) i indexes =
      some (indexes.set i (stored x c i)) := by
  rw [assignTurn_eq x c ⟨i, inside⟩, write_eq room, stored, dif_pos inside]

theorem Execute_overwrites (task : CKMTask) (le : toUnsigned task.m_begin ≤ toUnsigned task.m_end)
    (fits : toUnsigned task.m_end ≤ n) {s : Set Nat} {xs ys : List Nat} (room : n ≤ xs.length)
    (before : Overwritten (stored x c) s xs ys) :
    ∃ zs, task.Execute (List.ofFn x) (List.ofFn c) ys = some zs ∧
      Overwritten (stored x c) (s ∪ visited [task]) xs zs := by
  obtain ⟨zs, run, done⟩ := forLoop_overwrites le before
    (assignTurn (List.ofFn x) (List.ofFn c))
    (fun i zs _ high sized => assignTurn_stored x c (by omega) (by omega)) (by omega)
  refine ⟨zs, run, ?_⟩
  have range : visited [task] = Set.Ico (toUnsigned task.m_begin) (toUnsigned task.m_end) := by
    ext i
    simp [visited]
  rwa [range]

theorem tasks_overwrite (small : n < 2 ^ 32) {order : List CKMTask}
    (created : ∀ task ∈ order, task ∈ makeTasks n) {s : Set Nat} {xs ys : List Nat}
    (room : n ≤ xs.length) (before : Overwritten (stored x c) s xs ys) :
    ∃ zs, order.foldlM (fun m_indexes task =>
      task.Execute (List.ofFn x) (List.ofFn c) m_indexes) ys = some zs ∧
      Overwritten (stored x c) (s ∪ visited order) xs zs := by
  induction order generalizing s ys with
  | nil => exact ⟨ys, rfl, by simpa [visited] using before⟩
  | cons task rest ih =>
      obtain ⟨lo, hi, le, fits, first, last⟩ := mem_makeTasks small (created task (by simp))
      obtain ⟨ws, run, done⟩ := Execute_overwrites x c task (by omega) (by omega)
        room before
      obtain ⟨zs, runs, all⟩ := ih (fun t member => created t (List.mem_cons_of_mem task member)) done
      refine ⟨zs, by rw [List.foldlM_cons, run]; exact runs, ?_⟩
      have joined : s ∪ visited (task :: rest) = s ∪ visited [task] ∪ visited rest := by
        ext i
        simp [visited, or_assoc]
      rwa [joined]

theorem inOrder_overwrites (m_indexes : List Nat) :
    ∃ zs, KMeans.makeClusters (List.ofFn x) (List.ofFn c) m_indexes = some zs ∧
      Overwritten (stored x c) (Set.Ico 0 n) (grow m_indexes n 0) zs := by
  have room : n ≤ (grow m_indexes n 0).length := by
    rw [length_grow]
    omega
  obtain ⟨zs, run, done⟩ := forLoop_overwrites (Nat.zero_le n)
    (Overwritten.none (stored x c) (grow m_indexes n 0))
    (assignTurn (List.ofFn x) (List.ofFn c))
    (fun i zs _ inside sized => assignTurn_stored x c inside (by omega)) room
  rw [Set.empty_union] at done
  exact ⟨zs, by rw [KMeans.makeClusters, List.length_ofFn, run], done⟩

/-- Whatever the order of the tasks, the pass assigns every point its nearest center. -/
theorem makeClusters_eq_inOrder (small : n < 2 ^ 32) {order : List CKMTask}
    (perm : order.Perm (makeTasks n)) (m_indexes : List Nat) :
    makeClusters (List.ofFn x) order (List.ofFn c) m_indexes =
      KMeans.makeClusters (List.ofFn x) (List.ofFn c) m_indexes := by
  have room : n ≤ (grow m_indexes n 0).length := by
    rw [length_grow]
    omega
  obtain ⟨ys, parallel, left⟩ := tasks_overwrite x c small (fun _ => perm.mem_iff.mp) room
    (Overwritten.none (stored x c) (grow m_indexes n 0))
  obtain ⟨zs, sequential, right⟩ := inOrder_overwrites x c m_indexes
  have tiled : visited order = Set.Ico 0 n := by
    ext i
    simp only [visited, Set.mem_ofPred_eq, perm.mem_iff, makeTasks_cover small, Set.mem_Ico,
      Nat.zero_le, true_and]
  rw [tiled, Set.empty_union] at left
  rw [makeClusters, List.length_ofFn, parallel, sequential, left.unique right]

end Tasks

/-! ## Refinement of the abstract algorithm -/

theorem updateTurn_eq {k : Nat} (x : Fin n → CPoint N) (a : Fin n → Fin k) (c : Fin k → CPoint N)
    (i : Fin k) :
    updateTurn i (List.ofFn (upTo i (recenter ℚ x id a c) c),
      List.ofFn (upTo i (fun _ => 0) fun j => (members a j).card),
      List.ofFn (upTo i (fun _ => CPoint.getZero) fun j => ∑ l ∈ members a j, x l)) =
      some (List.ofFn (upTo (i + 1) (recenter ℚ x id a c) c),
        List.ofFn (upTo (i + 1) (fun _ => 0) fun j => (members a j).card),
        List.ofFn (upTo (i + 1) (fun _ => CPoint.getZero) fun j => ∑ l ∈ members a j, x l)) := by
  simp only [updateTurn, write_ofFn, read_ofFn, upTo_next, Option.bind_eq_bind, Option.bind_some,
    ← update_upTo _ _ i]
  by_cases inhabited : (members a i).Nonempty
  · rw [if_pos inhabited.card_pos, recenter, if_pos inhabited, CPoint.div_eq_smul,
      LeastSquares.mean]
  · have none : ¬ (members a i).card > 0 := fun pos => inhabited (Finset.card_pos.mp pos)
    have unchanged : Function.update (upTo i (recenter ℚ x id a c) c) i (recenter ℚ x id a c i) =
        upTo i (recenter ℚ x id a c) c := by
      rw [recenter, if_neg inhabited, id, Function.update_eq_self_iff, upTo_next]
    rw [if_neg none, unchanged]

theorem update_eq {n k : Nat} (x : Fin n → CPoint N) (a : Fin n → Fin k) (c : Fin k → CPoint N) :
    forLoop 0 k (List.ofFn c, List.ofFn (fun j => (members a j).card),
      List.ofFn fun j => ∑ l ∈ members a j, x l) updateTurn =
      some (List.ofFn (recenter ℚ x id a c), List.replicate k 0,
        List.replicate k CPoint.getZero) := by
  have run := forLoop_eq (Nat.zero_le k) (updateTurn (N := N))
    (fun m => (List.ofFn (upTo m (recenter ℚ x id a c) c),
      List.ofFn (upTo m (fun _ => 0) fun j => (members a j).card),
      List.ofFn (upTo m (fun _ => CPoint.getZero) fun j => ∑ l ∈ members a j, x l)))
    fun m _ inside => updateTurn_eq x a c ⟨m, inside⟩
  simp only [upTo_zero, upTo_all, ← replicate_eq_ofFn] at run
  exact run

/-- An assignment pass that comes out as the sequential one does. -/
def Sequential {n : Nat} (pass : Assignment N) (x : Fin n → CPoint N) (k : Nat) : Prop :=
  ∀ j (c : Fin k → CPoint N) indexes, pass j (List.ofFn c) indexes =
    KMeans.makeClusters (List.ofFn x) (List.ofFn c) indexes

theorem sequential_inOrder {n : Nat} (x : Fin n → CPoint N) (k : Nat) :
    Sequential (inOrder (List.ofFn x)) x k := fun _ _ _ => rfl

theorem sequential_byTasks {n : Nat} (x : Fin n → CPoint N) (k : Nat) [NeZero k]
    (small : n < 2 ^ 32) {order : Nat → List CKMTask}
    (perm : ∀ j, (order j).Perm (makeTasks n)) : Sequential (byTasks (List.ofFn x) order) x k :=
  fun j c indexes => makeClusters_eq_inOrder x c small (perm j) indexes

section Trace

variable {n k : Nat} [NeZero k] (x : Fin n → CPoint N) (c : Fin k → CPoint N) (unused : List Nat)

/-- The state that the loop is in after `m` iterations. -/
def trace (m : Nat) : LoopState N where
  m_centers := List.ofFn (centers CPoint.normSq x id c m)
  m_indexes := storedIndexes x id c unused m
  numPoints := List.replicate k 0
  accumulator := List.replicate k CPoint.getZero
  V := previous CPoint.normSq x id c m
  oldV := olderCost x id c m
  numIterations := m

theorem start_eq : start (List.ofFn c) unused = trace x c unused 0 := by
  simp [start, trace, storedIndexes, olderCost, previous, centers, default]

variable {pass : Assignment N} (sequential : Sequential pass x k)

include sequential

theorem iteration_eq (m : Nat) : iteration pass (List.ofFn x) (trace x c unused m) =
    some (trace x c unused (m + 1)) := by
  simp only [iteration, trace, sequential m, makeClusters_eq, drop_storedIndexes,
    Option.bind_eq_bind, Option.bind_some, accumulate_eq, List.length_ofFn, update_eq, centers_succ]
  rfl

omit sequential in
theorem looping_trace_succ (m : Nat) : looping (trace x c unused (m + 1)) = false ↔
    value CPoint.normSq x id c m = previous CPoint.normSq x id c m := by
  simp [looping, trace, olderCost, previous]

omit sequential in
theorem looping_trace_zero : looping (trace x c unused 0) = true := by
  simp [looping, trace, olderCost, previous]

/-- The loop returns exactly after the first pass that repeats the cost. -/
theorem kmeansLoop_eq_some (fuel : Nat) (s : LoopState N) :
    kmeansLoop pass fuel (List.ofFn x) (List.ofFn c) unused = some s ↔
      ∃ m < fuel, StopsAt CPoint.normSq x id c m ∧ s = trace x c unused (m + 1) := by
  have run := whileLoop_eq_some_of_test (iteration_eq x c unused sequential)
    (looping_trace_zero x c unused) (looping_trace_succ x c unused) fuel
  simp only [kmeansLoop, start_eq x c unused, run, StopsAt, and_assoc]

omit sequential in
theorem stopsAt_iff_looping (m : Nat) : StopsAt CPoint.normSq x id c m ↔
    looping (trace x c unused (m + 1)) = false ∧
      ∀ l < m + 1, looping (trace x c unused l) = true := by
  simp only [StopsAt, looping_trace_succ]
  refine and_congr_right fun _ => ⟨fun before l lt => ?_, fun before l lt same => ?_⟩
  · cases l with
    | zero => exact looping_trace_zero x c unused
    | succ l =>
        rw [← Bool.not_eq_false, looping_trace_succ]
        exact before l (by omega)
  · have goes := before (l + 1) (by omega)
    rw [(looping_trace_succ x c unused l).mpr same] at goes
    cases goes

end Trace

/-- `Run` in terms of the passes. -/
theorem Run_eq_some {n k : Nat} [NeZero k] {x : Fin n → CPoint N} {c : Fin k → CPoint N}
    {pass : Assignment N} (sequential : Sequential pass x k) {RAND_MAX : Nat} {rand : Nat → Nat}
    {m_numClusters : Nat} (old : Members N)
    (seeds : kmeansPP RAND_MAX rand (List.ofFn x) m_numClusters old.m_centers =
      some (List.ofFn c)) (fuel : Nat)
    (members : Members N) (r : List (CPoint N × List (CPoint N))) :
    Run pass fuel RAND_MAX rand (List.ofFn x) m_numClusters old = some (members, r) ↔
      ∃ m < fuel, StopsAt CPoint.normSq x id c m ∧
        members = ⟨storedIndexes x id c old.m_indexes (m + 1),
          List.ofFn (centers CPoint.normSq x id c (m + 1))⟩ ∧
        r = List.ofFn fun j => (centers CPoint.normSq x id c (m + 1) j,
          groupOf x (indexes CPoint.normSq x id c m) j) := by
  simp only [Run, kmeans, seeds, Option.bind_eq_bind, Option.bind_some, Option.bind_assoc,
    Option.bind_eq_some_iff, kmeansLoop_eq_some x c old.m_indexes sequential]
  constructor
  · rintro ⟨s, ⟨m, lt, stop, rfl⟩, result, grouped, same⟩
    simp only [trace, storedIndexes, group_eq, Option.some.injEq] at grouped
    subst grouped
    obtain ⟨rfl, rfl⟩ := Prod.mk.inj (Option.some.inj same)
    exact ⟨m, lt, stop, rfl, rfl⟩
  · rintro ⟨m, lt, stop, rfl, rfl⟩
    exact ⟨_, ⟨m, lt, stop, rfl⟩, _, by simp only [trace, storedIndexes, group_eq], rfl⟩

theorem exists_seeds (RAND_MAX : Nat) (rand : Nat → Nat) {m_vpnts : List (CPoint N)}
    (some_point : m_vpnts ≠ []) {m_numClusters : Nat} (some_cluster : 1 ≤ m_numClusters)
    (members : Members N) : ∃ n k, ∃ _ : NeZero k, ∃ (x : Fin n → CPoint N) (c : Fin k → CPoint N),
      m_vpnts = List.ofFn x ∧
      kmeansPP RAND_MAX rand m_vpnts m_numClusters members.m_centers = some (List.ofFn c) := by
  obtain ⟨n, x, rfl⟩ := exists_ofFn m_vpnts
  obtain ⟨centers, seeds, length⟩ := kmeansPP_defined RAND_MAX rand some_point some_cluster
    members.m_centers
  obtain ⟨k, _, c, rfl⟩ := exists_ofFn_neZero (List.length_pos_iff.mp (by omega) : centers ≠ [])
  exact ⟨n, k, inferInstance, x, c, rfl, seeds⟩

end KMeans.multiThread
