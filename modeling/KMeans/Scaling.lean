import KMeans.Convergence
import KMeans.General.LloydSymmetry

/-! # Scale equivariance

Multiplying the points by a positive number multiplies every squared distance by the
square of that number, and so every sum of them. The default centers and the center that
an empty cluster is given are zero vectors, which stay, and the limits of the comparisons
are zero. So every phase of `Run` commutes with the multiplication.
-/

namespace KMeans

open Loops Arrays Lloyd

variable {N : Nat}

/-- Multiplication by a positive number, as a similarity. -/
def CPoint.scaling {s : ℚ} (pos : 0 < s) :
    Similarity (CPoint.normSq (N := N)) (CPoint.normSq (N := N)) where
  map :=
    { toFun p := p.scale s
      map_add' p q := by
        ext i
        exact add_mul (p.m_coord i) (q.m_coord i) s
      map_smul' k p := by
        ext i
        exact mul_assoc k (p.m_coord i) s }
  ratio := s * s
  positive := mul_pos pos pos
  scales p := by
    have product : ∀ i, p.m_coord i * s * (p.m_coord i * s) =
        s * s * (p.m_coord i * p.m_coord i) := fun i => by ring
    simp only [LinearMap.coe_mk, AddHom.coe_mk, CPoint.normSq_apply, CPoint.mul_eq_sum,
      CPoint.scale, product, Finset.mul_sum]

/-- Every point multiplied by `s`. -/
def scalePoints (s : ℚ) (vpnts : List (CPoint N)) : List (CPoint N) := vpnts.map fun p => p.scale s

/-- Every center and every point of every group multiplied by `s`. -/
def scaleResult (s : ℚ) (result : List (CPoint N × List (CPoint N))) :
    List (CPoint N × List (CPoint N)) :=
  result.map fun (center, group) => (center.scale s, scalePoints s group)

theorem scalePoints_ofFn {n : Nat} {s : ℚ} (pos : 0 < s) (x : Fin n → CPoint N) :
    scalePoints s (List.ofFn x) = List.ofFn ((CPoint.scaling pos).map ∘ x) :=
  List.map_ofFn

theorem scale_zero (s : ℚ) : (0 : CPoint N).scale s = 0 := by
  ext i
  exact zero_mul s

/-- What a loop over the scaled points leaves behind: the centers and the sums scaled, the
    indexes, the counters and the number of iterations as they are. -/
def singleThread.LoopState.scale (s : ℚ) (t : singleThread.LoopState N) :
    singleThread.LoopState N :=
  { t with
    centOld := scalePoints s t.centOld
    centNew := scalePoints s t.centNew
    V := s * s * t.V
    oldV := s * s * t.oldV }

def multiThread.LoopState.scale (s : ℚ) (t : multiThread.LoopState N) : multiThread.LoopState N :=
  { t with
    m_centers := scalePoints s t.m_centers
    accumulator := scalePoints s t.accumulator
    V := s * s * t.V
    oldV := s * s * t.oldV }

def multiThread.Members.scale (s : ℚ) (members : multiThread.Members N) : multiThread.Members N :=
  { members with m_centers := scalePoints s members.m_centers }

theorem multiThread.Members.scale_fresh (s : ℚ) :
    (Members.fresh : Members N).scale s = Members.fresh := rfl

/-! ## Seeding -/

section Seeding

variable {s : ℚ} (pos : 0 < s)

include pos

theorem findNearest_scale (pnt : CPoint N) (centers : List (CPoint N)) :
    findNearest (pnt.scale s) (scalePoints s centers) =
      (findNearest pnt centers).map (Prod.map id (s * s * ·)) := by
  cases centers with
  | nil => rfl
  | cons first rest =>
      obtain ⟨k, _, c, same⟩ := exists_ofFn_neZero (List.cons_ne_nil first rest)
      have found := nearest_carried (CPoint.scaling pos).symmetry c pnt
      have apart := (CPoint.scaling pos).symmetry.apart (c (nearest CPoint.normSq c pnt)) pnt
      rw [Similarity.coe_symmetry] at found apart
      have scaled := findNearest_ofFn ((CPoint.scaling pos).map ∘ c) ((CPoint.scaling pos).map pnt)
      rw [found, Function.comp_apply, apart] at scaled
      rw [same, scalePoints_ofFn pos, findNearest_ofFn c]
      exact scaled

/-- What the weighting loop holds, for the scaled points. -/
private def scaleWeights (s : ℚ) : List ℚ × ℚ → List ℚ × ℚ :=
  Prod.map (List.map (s * s * ·)) (s * s * ·)

theorem weighTurn_scale (vpnts centers : List (CPoint N)) (j : Nat) (w : List ℚ × ℚ) :
    kmeansPP.weighTurn (scalePoints s vpnts) (scalePoints s centers) j (scaleWeights s w) =
      (kmeansPP.weighTurn vpnts centers j w).map (scaleWeights s) := by
  obtain ⟨dist2, sum⟩ := w
  simp only [kmeansPP.weighTurn, scaleWeights, Prod.map_apply]
  rw [scalePoints, List.getElem?_map]
  cases vpnts[j]? with
  | none => rfl
  | some pnt =>
      simp only [Option.map_some, Option.bind_eq_bind, Option.bind_some, findNearest_scale pos]
      cases findNearest pnt centers with
      | none => rfl
      | some found =>
          obtain ⟨_, d⟩ := found
          simp only [Option.map_some, Option.bind_some, Prod.map_apply, write_map, ← mul_add]
          cases write dist2 j d with
          | none => rfl
          | some dist2 => rfl

theorem weigh_scale (vpnts centers : List (CPoint N)) (dist2 : List ℚ) :
    kmeansPP.weigh (scalePoints s vpnts) (scalePoints s centers) (dist2.map (s * s * ·)) =
      (kmeansPP.weigh vpnts centers dist2).map (scaleWeights s) := by
  have run := forLoop_map (weighTurn_scale pos vpnts centers) 0 vpnts.length (dist2, 0)
  simp only [scaleWeights, Prod.map_apply, mul_zero] at run
  simp only [kmeansPP.weigh, scalePoints, List.length_map]
  exact run

theorem selectTurn_scale (vpnts : List (CPoint N)) (dist2 : List ℚ) (n_cluster j : Nat)
    (t : ℚ × List (CPoint N)) :
    kmeansPP.selectTurn (scalePoints s vpnts) (dist2.map (s * s * ·)) n_cluster j
        (Prod.map (s * s * ·) (scalePoints s) t) =
      (kmeansPP.selectTurn vpnts dist2 n_cluster j t).map
        (Prod.map (Prod.map (s * s * ·) (scalePoints s)) id) := by
  obtain ⟨sum, centers⟩ := t
  simp only [kmeansPP.selectTurn, Prod.map_apply]
  rw [List.getElem?_map]
  cases dist2[j]? with
  | none => rfl
  | some d =>
      have reached : s * s * sum - s * s * d ≤ 0 ↔ sum - d ≤ 0 := by
        rw [← mul_sub, ← not_lt, ← not_lt, mul_pos_iff_of_pos_left (mul_pos pos pos)]
      simp only [Option.map_some, Option.bind_eq_bind, Option.bind_some, reached]
      split
      · rw [scalePoints, List.getElem?_map]
        cases vpnts[j]? with
        | none => rfl
        | some pnt =>
            simp only [Option.map_some, Option.bind_some, scalePoints, ← mul_sub,
              write_map fun p : CPoint N => p.scale s]
            cases write centers n_cluster pnt with
            | none => rfl
            | some centers => rfl
      · simp only [Option.map_some, Prod.map_apply, mul_sub, id]

theorem select_scale (vpnts : List (CPoint N)) (dist2 : List ℚ) (n_cluster : Nat) (sum : ℚ)
    (centers : List (CPoint N)) :
    kmeansPP.select (scalePoints s vpnts) (dist2.map (s * s * ·)) n_cluster (s * s * sum)
        (scalePoints s centers) =
      (kmeansPP.select vpnts dist2 n_cluster sum centers).map (scalePoints s) := by
  have run := forBreak_map (selectTurn_scale pos vpnts dist2 n_cluster) vpnts.length 0 (sum, centers)
  rw [Prod.map_apply] at run
  simp only [kmeansPP.select]
  rw [scalePoints, List.length_map, ← scalePoints, run]
  cases forBreak (kmeansPP.selectTurn vpnts dist2 n_cluster) vpnts.length 0 (sum, centers) with
  | none => rfl
  | some t => rfl

omit pos in
theorem randf_scale (RAND_MAX r : Nat) (m : ℚ) :
    randf RAND_MAX r (s * s * m) = s * s * randf RAND_MAX r m := by
  unfold randf
  rw [mul_assoc, mul_div_assoc]

theorem step_scale (RAND_MAX : Nat) (rand : Nat → Nat) (vpnts : List (CPoint N)) (n_cluster : Nat)
    (t : List ℚ × List (CPoint N)) :
    kmeansPP.step RAND_MAX rand (scalePoints s vpnts) n_cluster
        (Prod.map (List.map (s * s * ·)) (scalePoints s) t) =
      (kmeansPP.step RAND_MAX rand vpnts n_cluster t).map
        (Prod.map (List.map (s * s * ·)) (scalePoints s)) := by
  obtain ⟨dist2, centers⟩ := t
  simp only [kmeansPP.step, Prod.map_apply]
  rw [weigh_scale pos]
  cases kmeansPP.weigh vpnts centers dist2 with
  | none => rfl
  | some weighed =>
      obtain ⟨dist2, sum⟩ := weighed
      simp only [Option.map_some, scaleWeights, Prod.map_apply, Option.bind_eq_bind,
        Option.bind_some, randf_scale, select_scale pos]
      cases kmeansPP.select vpnts dist2 n_cluster (randf RAND_MAX (rand n_cluster) sum) centers with
      | none => rfl
      | some centers => rfl

theorem kmeansPP_scale (RAND_MAX : Nat) (rand : Nat → Nat) (vpnts : List (CPoint N)) (n_cent : Nat)
    (centers : List (CPoint N)) :
    kmeansPP RAND_MAX rand (scalePoints s vpnts) n_cent (scalePoints s centers) =
      (kmeansPP RAND_MAX rand vpnts n_cent centers).map (scalePoints s) := by
  have grown : grow (scalePoints s centers) n_cent default =
      scalePoints s (grow centers n_cent default) := by
    have zero : (default : CPoint N).scale s = default := scale_zero s
    have mapped := grow_map (fun p : CPoint N => p.scale s) centers n_cent default
    rw [zero] at mapped
    exact mapped
  have weights : (List.replicate vpnts.length (0 : ℚ)).map (s * s * ·) =
      List.replicate vpnts.length 0 := by
    rw [List.map_replicate, mul_zero]
  have length : (scalePoints s vpnts).length = vpnts.length := List.length_map _
  simp only [kmeansPP, grown, length]
  rw [scalePoints, List.getElem?_map]
  cases vpnts[rand 0 % vpnts.length]? with
  | none => rfl
  | some pnt =>
      simp only [Option.map_some, Option.bind_eq_bind, Option.bind_some]
      rw [scalePoints, write_map fun p : CPoint N => p.scale s]
      cases write (grow centers n_cent default) 0 pnt with
      | none => rfl
      | some centers =>
          have run := forLoop_map (step_scale pos RAND_MAX rand vpnts) 1 n_cent
            (List.replicate vpnts.length 0, centers)
          rw [Prod.map_apply, weights] at run
          simp only [Option.map_some, Option.bind_some]
          rw [← scalePoints, ← scalePoints, run]
          cases forLoop 1 n_cent (List.replicate vpnts.length 0, centers)
            (kmeansPP.step RAND_MAX rand vpnts) with
          | none => rfl
          | some seeded => rfl

end Seeding

/-! ## The Lloyd loops -/

theorem groupTurn_scale (s : ℚ) (vpnts : List (CPoint N)) (indexes : List Nat) (i : Nat)
    (result : List (CPoint N × List (CPoint N))) :
    groupTurn (scalePoints s vpnts) indexes i (scaleResult s result) =
      (groupTurn vpnts indexes i result).map (scaleResult s) := by
  unfold groupTurn
  cases indexes[i]? with
  | none => rfl
  | some ind =>
      simp only [Option.bind_eq_bind, Option.bind_some]
      rw [scalePoints, List.getElem?_map]
      cases vpnts[i]? with
      | none => rfl
      | some vpnt =>
          apply modify_map
          intro e
          simp only [scalePoints, List.map_append, List.map_cons, List.map_nil]

theorem group_scale (s : ℚ) (vpnts centers : List (CPoint N)) (indexes : List Nat) :
    group (scalePoints s vpnts) (scalePoints s centers) indexes =
      (group vpnts centers indexes).map (scaleResult s) := by
  have run := forLoop_map (groupTurn_scale s vpnts indexes) 0 vpnts.length
    (centers.map fun e => (e, []))
  unfold group
  rw [scalePoints, List.length_map, ← scalePoints, ← run]
  congr 1
  simp only [scaleResult, scalePoints, List.map_map]
  rfl

section Trace

variable {n k : Nat} [NeZero k] (S : Symmetry (CPoint.normSq (N := N)) (CPoint.normSq (N := N)))
  (x : Fin n → CPoint N) (c : Fin k → CPoint N) (unused : List Nat) {empty : CPoint N → CPoint N}
  (corresponds : ∀ e, empty (S.map e) = S.map (empty e))

include corresponds

theorem storedIndexes_carried (m : Nat) :
    storedIndexes (S.map ∘ x) empty (S.map ∘ c) unused m = storedIndexes x empty c unused m := by
  cases m with
  | zero => rfl
  | succ m =>
      have same := indexes_carried S (Equiv.refl (Fin n)) x c corresponds m
      rw [Equiv.coe_refl, Function.comp_id, Function.comp_id] at same
      rw [storedIndexes, same, storedIndexes]

theorem centers_listed (m : Nat) : List.ofFn (centers CPoint.normSq (S.map ∘ x) empty (S.map ∘ c) m) =
    (List.ofFn (centers CPoint.normSq x empty c m)).map S.map := by
  have carried := centers_carried S (Equiv.refl (Fin n)) x c corresponds m
  rw [Equiv.coe_refl, Function.comp_id] at carried
  rw [carried, List.map_ofFn]

end Trace

section Scaled

variable {s : ℚ} (pos : 0 < s) {n k : Nat} [NeZero k] (x : Fin n → CPoint N) (c : Fin k → CPoint N)
  (unused : List Nat) {empty : CPoint N → CPoint N}
  (corresponds : ∀ e, empty ((CPoint.scaling pos).map e) = (CPoint.scaling pos).map (empty e))

include corresponds

theorem storedIndexes_scale (m : Nat) :
    storedIndexes ((CPoint.scaling pos).map ∘ x) empty ((CPoint.scaling pos).map ∘ c) unused m =
      storedIndexes x empty c unused m :=
  storedIndexes_carried (CPoint.scaling pos).symmetry x c unused corresponds m

theorem previous_scale (m : Nat) :
    previous CPoint.normSq ((CPoint.scaling pos).map ∘ x) empty ((CPoint.scaling pos).map ∘ c) m =
      s * s * previous CPoint.normSq x empty c m :=
  previous_carried (CPoint.scaling pos).symmetry (Equiv.refl (Fin n)) x c corresponds m

theorem centers_scale (m : Nat) :
    List.ofFn (centers CPoint.normSq ((CPoint.scaling pos).map ∘ x) empty
        ((CPoint.scaling pos).map ∘ c) m) =
      scalePoints s (List.ofFn (centers CPoint.normSq x empty c m)) :=
  centers_listed (CPoint.scaling pos).symmetry x c corresponds m

theorem stopsAt_scale (m : Nat) :
    StopsAt CPoint.normSq ((CPoint.scaling pos).map ∘ x) empty ((CPoint.scaling pos).map ∘ c) m ↔
      StopsAt CPoint.normSq x empty c m :=
  stopsAt_carried (CPoint.scaling pos).symmetry (Equiv.refl (Fin n)) x c corresponds m

end Scaled

theorem scalePoints_zeros (s : ℚ) (k : Nat) :
    scalePoints s (List.replicate k (CPoint.getZero : CPoint N)) = List.replicate k CPoint.getZero := by
  rw [scalePoints, List.map_replicate, CPoint.getZero_eq, scale_zero]

/-! ## Single-threaded -/

namespace singleThread

section Scaled

variable {s : ℚ} (pos : 0 < s)

include pos

theorem emptied_scale (e : CPoint N) :
    emptied ((CPoint.scaling pos).map e) = (CPoint.scaling pos).map (emptied e) :=
  (map_zero (CPoint.scaling pos).map).symm

theorem trace_scale {n k : Nat} [NeZero k] (x : Fin n → CPoint N) (c : Fin k → CPoint N)
    (unused : List Nat) (m : Nat) :
    trace ((CPoint.scaling pos).map ∘ x) ((CPoint.scaling pos).map ∘ c) unused (m + 1) =
      (trace x c unused (m + 1)).scale s := by
  simp only [trace, LoopState.scale, olderCost, storedIndexes_scale pos x c unused (emptied_scale pos),
    previous_scale pos x c (emptied_scale pos), centers_scale pos x c (emptied_scale pos),
    scalePoints_zeros]

theorem kmeansLoop_scale (fuel : Nat) (vpnts : List (CPoint N)) {cent : List (CPoint N)}
    (some_center : cent ≠ []) (indexes : List Nat) :
    kmeansLoop fuel (scalePoints s vpnts) (scalePoints s cent) indexes =
      (kmeansLoop fuel vpnts cent indexes).map (LoopState.scale s) := by
  obtain ⟨n, x, rfl⟩ := exists_ofFn vpnts
  obtain ⟨k, _, c, rfl⟩ := exists_ofFn_neZero some_center
  rw [scalePoints_ofFn pos, scalePoints_ofFn pos]
  apply returns_map (kmeansLoop_eq_some x c indexes fuel) (kmeansLoop_eq_some _ _ indexes fuel)
  · exact stopsAt_scale pos x c (emptied_scale pos)
  · exact trace_scale pos x c indexes

theorem seeds_scale {RAND_MAX : Nat} {rand : Nat → Nat} {vpnts cent : List (CPoint N)} {k : Nat}
    (seeds : kmeansPP RAND_MAX rand vpnts k [] = some cent) :
    kmeansPP RAND_MAX rand (scalePoints s vpnts) k [] = some (scalePoints s cent) := by
  have scaled := kmeansPP_scale pos RAND_MAX rand vpnts k []
  rw [show KMeans.kmeansPP RAND_MAX rand vpnts k [] = some cent from seeds] at scaled
  exact scaled

theorem result_scale {RAND_MAX : Nat} {rand : Nat → Nat} {vpnts cent : List (CPoint N)} {k : Nat}
    (seeds : kmeansPP RAND_MAX rand vpnts k [] = some cent) (some_center : cent ≠ []) (fuel : Nat) :
    Run fuel RAND_MAX rand (scalePoints s vpnts) k =
      (Run fuel RAND_MAX rand vpnts k).map (scaleResult s) := by
  simp only [Run, kmeans, seeds, seeds_scale pos seeds, Option.bind_eq_bind, Option.bind_some,
    kmeansLoop_scale pos fuel vpnts some_center]
  cases kmeansLoop fuel vpnts cent [] with
  | none => rfl
  | some t => exact group_scale s vpnts t.centOld t.indexes

end Scaled

end singleThread

/-! ## Multithreaded -/

namespace multiThread

section Scaled

variable {s : ℚ} (pos : 0 < s)

include pos

theorem id_scale (e : CPoint N) :
    id ((CPoint.scaling pos).map e) = (CPoint.scaling pos).map (id e) := rfl

theorem trace_scale {n k : Nat} [NeZero k] (x : Fin n → CPoint N) (c : Fin k → CPoint N)
    (unused : List Nat) (m : Nat) :
    trace ((CPoint.scaling pos).map ∘ x) ((CPoint.scaling pos).map ∘ c) unused (m + 1) =
      (trace x c unused (m + 1)).scale s := by
  simp only [trace, LoopState.scale, olderCost, storedIndexes_scale pos x c unused (id_scale pos),
    previous_scale pos x c (id_scale pos), centers_scale pos x c (id_scale pos), scalePoints_zeros]

theorem kmeansLoop_scale (fuel : Nat) (vpnts : List (CPoint N)) {cent : List (CPoint N)}
    (some_center : cent ≠ []) (m_indexes : List Nat) :
    kmeansLoop (inOrder (scalePoints s vpnts)) fuel (scalePoints s vpnts) (scalePoints s cent)
        m_indexes =
      (kmeansLoop (inOrder vpnts) fuel vpnts cent m_indexes).map (LoopState.scale s) := by
  obtain ⟨n, x, rfl⟩ := exists_ofFn vpnts
  obtain ⟨k, _, c, rfl⟩ := exists_ofFn_neZero some_center
  rw [scalePoints_ofFn pos, scalePoints_ofFn pos]
  apply returns_map (kmeansLoop_eq_some x c m_indexes (sequential_inOrder x k) fuel)
    (kmeansLoop_eq_some _ _ m_indexes (sequential_inOrder _ k) fuel)
  · exact stopsAt_scale pos x c (id_scale pos)
  · exact trace_scale pos x c m_indexes

theorem seeds_scale {RAND_MAX : Nat} {rand : Nat → Nat} {vpnts cent : List (CPoint N)} {k : Nat}
    {members : Members N}
    (seeds : kmeansPP RAND_MAX rand vpnts k members.m_centers = some cent) :
    kmeansPP RAND_MAX rand (scalePoints s vpnts) k (members.scale s).m_centers =
      some (scalePoints s cent) := by
  have scaled := kmeansPP_scale pos RAND_MAX rand vpnts k members.m_centers
  rw [show KMeans.kmeansPP RAND_MAX rand vpnts k members.m_centers = some cent from seeds] at scaled
  exact scaled

theorem result_scale {RAND_MAX : Nat} {rand : Nat → Nat} {vpnts cent : List (CPoint N)} {k : Nat}
    {members : Members N} (seeds : kmeansPP RAND_MAX rand vpnts k members.m_centers = some cent)
    (some_center : cent ≠ []) (fuel : Nat) :
    Run (inOrder (scalePoints s vpnts)) fuel RAND_MAX rand (scalePoints s vpnts) k
        (members.scale s) =
      (Run (inOrder vpnts) fuel RAND_MAX rand vpnts k members).map
        (Prod.map (Members.scale s) (scaleResult s)) := by
  have old : (members.scale s).m_indexes = members.m_indexes := rfl
  simp only [Run, kmeans, seeds, seeds_scale pos seeds, old, Option.bind_eq_bind, Option.bind_some,
    kmeansLoop_scale pos fuel vpnts some_center]
  cases kmeansLoop (inOrder vpnts) fuel vpnts cent members.m_indexes with
  | none => rfl
  | some t =>
      simp only [Option.map_some, Option.bind_some, LoopState.scale, group_scale]
      cases group vpnts t.m_centers t.m_indexes with
      | none => rfl
      | some result => rfl

end Scaled

end multiThread

/-! ## Both -/

/-- `Run` on the points multiplied by `s` goes through the seeds and the centers multiplied by
    `s`. It ends its loop with the same `indexes` after the same number of iterations, and
    returns the same groups around the centers multiplied by `s`; so it does in the
    multithreaded class, in every call on one object. -/
theorem Run_scale (vpnts : List (CPoint N)) (some_point : vpnts ≠ []) (numGroups : Nat)
    (some_cluster : 1 ≤ numGroups) (RAND_MAX : Nat) (rand : Nat → Nat) (s : ℚ) (pos : 0 < s)
    (members : multiThread.Members N) :
    (∃ cent, singleThread.kmeansPP RAND_MAX rand vpnts numGroups [] = some cent ∧
      singleThread.kmeansPP RAND_MAX rand (scalePoints s vpnts) numGroups [] =
        some (scalePoints s cent) ∧
      (∀ fuel, singleThread.kmeansLoop fuel (scalePoints s vpnts) (scalePoints s cent) [] =
          (singleThread.kmeansLoop fuel vpnts cent []).map (.scale s) ∧
        singleThread.Run fuel RAND_MAX rand (scalePoints s vpnts) numGroups =
          (singleThread.Run fuel RAND_MAX rand vpnts numGroups).map (scaleResult s)) ∧
      ∃ bound, ∀ fuel ≥ bound, (singleThread.Run fuel RAND_MAX rand vpnts numGroups).isSome) ∧
    ∃ cent, multiThread.kmeansPP RAND_MAX rand vpnts numGroups members.m_centers = some cent ∧
      multiThread.kmeansPP RAND_MAX rand (scalePoints s vpnts) numGroups
        (members.scale s).m_centers = some (scalePoints s cent) ∧
      (∀ fuel, multiThread.kmeansLoop (multiThread.inOrder (scalePoints s vpnts)) fuel
          (scalePoints s vpnts) (scalePoints s cent) (members.scale s).m_indexes =
          (multiThread.kmeansLoop (multiThread.inOrder vpnts) fuel vpnts cent
            members.m_indexes).map (.scale s) ∧
        multiThread.Run (multiThread.inOrder (scalePoints s vpnts)) fuel RAND_MAX rand
          (scalePoints s vpnts) numGroups (members.scale s) =
          (multiThread.Run (multiThread.inOrder vpnts) fuel RAND_MAX rand vpnts numGroups
            members).map (Prod.map (.scale s) (scaleResult s))) ∧
      ∃ bound, ∀ fuel ≥ bound, (multiThread.Run (multiThread.inOrder vpnts) fuel RAND_MAX rand
        vpnts numGroups members).isSome := by
  constructor
  · obtain ⟨cent, seeds, length⟩ := kmeansPP_defined RAND_MAX rand some_point some_cluster []
    have some_center : cent ≠ [] := List.length_pos_iff.mp (by omega)
    refine ⟨cent, seeds, singleThread.seeds_scale pos seeds, fun fuel => ⟨?_, ?_⟩, ?_⟩
    · exact singleThread.kmeansLoop_scale pos fuel vpnts some_center []
    · exact singleThread.result_scale pos seeds some_center fuel
    · exact singleThread.Run_returns RAND_MAX rand some_point some_cluster
  · obtain ⟨cent, seeds, length⟩ := kmeansPP_defined RAND_MAX rand some_point some_cluster
      members.m_centers
    have some_center : cent ≠ [] := List.length_pos_iff.mp (by omega)
    refine ⟨cent, seeds, multiThread.seeds_scale pos seeds, fun fuel => ⟨?_, ?_⟩, ?_⟩
    · exact multiThread.kmeansLoop_scale pos fuel vpnts some_center members.m_indexes
    · exact multiThread.result_scale pos seeds some_center fuel
    · exact multiThread.Run_returns RAND_MAX rand some_point some_cluster members

theorem Run_scale_on_two_points :
    (∃ (fuel : Nat) (r : List (CPoint 1 × List (CPoint 1))),
      singleThread.Run fuel 32767 (fun _ => 0) [⟨![0]⟩, ⟨![2]⟩] 3 = some r ∧
      singleThread.Run fuel 32767 (fun _ => 0) (scalePoints (3 / 2) [⟨![0]⟩, ⟨![2]⟩]) 3 =
        some (scaleResult (3 / 2) r)) ∧
    ∃ (fuel : Nat) (members : multiThread.Members 1) (r : List (CPoint 1 × List (CPoint 1))),
      multiThread.Run (multiThread.inOrder [⟨![0]⟩, ⟨![2]⟩]) fuel 32767 (fun _ => 0)
        [⟨![0]⟩, ⟨![2]⟩] 3 .fresh = some (members, r) ∧
      multiThread.Run (multiThread.inOrder (scalePoints (3 / 2) [⟨![0]⟩, ⟨![2]⟩])) fuel 32767
        (fun _ => 0) (scalePoints (3 / 2) [⟨![0]⟩, ⟨![2]⟩]) 3 .fresh =
        some (members.scale (3 / 2), scaleResult (3 / 2) r) := by
  obtain ⟨⟨_, _, _, single, bound, returns⟩, _, _, _, multi, bound', returns'⟩ := Run_scale
    [⟨![0]⟩, (⟨![2]⟩ : CPoint 1)] (by simp) 3 (by decide) 32767 (fun _ => 0) (3 / 2) (by norm_num)
    .fresh
  constructor
  · obtain ⟨r, run⟩ := Option.isSome_iff_exists.mp (returns bound le_rfl)
    have scaled := (single bound).2
    rw [run] at scaled
    exact ⟨bound, r, run, scaled⟩
  · obtain ⟨⟨members, r⟩, run⟩ := Option.isSome_iff_exists.mp (returns' bound' le_rfl)
    have scaled := (multi bound').2
    rw [run, multiThread.Members.scale_fresh] at scaled
    exact ⟨bound', members, r, run, scaled⟩

end KMeans
