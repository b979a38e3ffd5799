import KMeans.MultiThread.Seeding
import KMeans.Rosetta.Passes

/-! # The seeds of `kpp`

`kpp` scans only the centers chosen so far, where `kmeansPP` scans the whole vector. A step
that chooses no point leaves its cell as `malloc` gave it, and the next scan reads it.
-/

namespace KMeans.Rosetta

open Loops Arrays Lloyd

variable {n : Nat} {x : Fin n → CPoint 2} {g : Fin n → Int} {RAND_MAX : Nat} {rand : Nat → Nat}

/-- The first `m + 1` centers, unless a step before chooses none. -/
def seeds (RAND_MAX : Nat) (rand : Nat → Nat) (vpnts : List (CPoint 2)) :
    Nat → Option (List (CPoint 2))
  | 0 => vpnts[rand 0 % vpnts.length]?.map fun pnt => [pnt]
  | m + 1 => do
    let chosen ← seeds RAND_MAX rand vpnts m
    let pnt ← seedFor RAND_MAX (rand (m + 1)) vpnts chosen
    some (chosen ++ [pnt])

theorem length_seeds {vpnts s : List (CPoint 2)} {m : Nat}
    (chosen : seeds RAND_MAX rand vpnts m = some s) : s.length = m + 1 := by
  induction m generalizing s with
  | zero =>
      obtain ⟨_, _, rfl⟩ := Option.map_eq_some_iff.mp chosen
      rfl
  | succ m ih =>
      obtain ⟨before, earlier, later⟩ := Option.bind_eq_some_iff.mp chosen
      obtain ⟨_, _, last⟩ := Option.bind_eq_some_iff.mp later
      cases last
      rw [List.length_append, ih earlier, List.length_singleton]

/-! ## A scan -/

/-- The first cells hold the centers `s`, and the others are as `malloc` gave them. -/
structure Chosen (cent : Cells point_t) (s : List (CPoint 2)) : Prop where
  some_center : s ≠ []
  within : s.length ≤ cent.length
  held : ∀ j, (inside : j < s.length) → ∃ h, load cent (j : Nat) = some (asPoint (some s[j]) h)
  unset : ∀ j, s.length ≤ j → load cent (j : Nat) = none

theorem Chosen.nearest_eq {cent : Cells point_t} {s : List (CPoint 2)} (chosen : Chosen cent s)
    (p : CPoint 2) (h : Int) :
    ∃ i : Nat, KMeans.findNearest p s = some (i, weight s p) ∧
      nearest (asPoint (some p) h) cent s.length = some ((i : Int), (weight s p : WithTop ℚ)) := by
  obtain ⟨some_center, _, held, _⟩ := chosen
  obtain ⟨k, _, c, rfl⟩ := exists_ofFn_neZero some_center
  rw [List.length_ofFn]
  have holds : Held cent fun j : Fin k => some (c j) := by
    intro j
    obtain ⟨h, read⟩ := held j (by simp)
    exact ⟨h, by simpa using read⟩
  have scan := @Rosetta.nearest_eq k cent _ p h _ holds ⟨0, Option.some_ne_none _⟩
  have found := findNearest_ofFn c p
  rw [firstLeast_gap, gap, Option.elim_some] at scan
  have least : weight (List.ofFn c) p = CPoint.normSq (c (Lloyd.nearest CPoint.normSq c p) - p) := by
    rw [weight, found]
    rfl
  rw [← least] at scan found
  exact ⟨(Lloyd.nearest CPoint.normSq c p).val, found, scan⟩

/-- A scan that meets a cell as `malloc` gave it is undefined. -/
theorem nearest_unset {cent : Cells point_t} {j m : Nat} (unset : load cent (j : Nat) = none)
    (inside : j < m) (p : point_t) : nearest p cent m = none := by
  have fails : ∀ s, nearest.turn p cent j s = none := by
    intro s
    unfold nearest.turn
    rw [unset]
    rfl
  unfold nearest
  rw [forLoop_eq_none (Nat.zero_le j) inside fails]
  split <;> rfl

/-! ## A step -/

/-- What the selection leaves in cell `m`. -/
inductive Stored (cent : Cells point_t) (m : Nat) : Option (CPoint 2) → Cells point_t → Prop
  | none : Stored cent m none cent
  | some (pnt : CPoint 2) (h : Int) :
      Stored cent m (some pnt) (cent.set m (some (asPoint (some pnt) h)))

section Step

variable {cent : Cells point_t} {s : List (CPoint 2)} (chosen : Chosen cent s)

include chosen

theorem weigh_eq {d : Cells ℚ} (sized : d.length = n) :
    forLoop 0 n (d, 0) (kpp.weighTurn (table x g) cent s.length) =
      some (((List.ofFn x).map (weight s)).map some, ((List.ofFn x).map (weight s)).sum) := by
  obtain ⟨m, d, rfl⟩ := exists_ofFn d
  rw [List.length_ofFn] at sized
  subst sized
  have run := forLoop_eq (Nat.zero_le m) (kpp.weighTurn (table x g) cent s.length)
    (fun i => (List.ofFn (upTo i (fun j => some (weight s (x j))) d),
      ∑ j ∈ below m i, weight s (x j)))
    fun i _ inside => by
      obtain ⟨_, _, found⟩ := chosen.nearest_eq (x ⟨i, inside⟩) (g ⟨i, inside⟩)
      have point := read_table x g ⟨i, inside⟩
      have written := store_ofFn (upTo i (fun j => some (weight s (x j))) d) ⟨i, inside⟩
        (weight s (x ⟨i, inside⟩))
      have added := Finset.sum_insert (f := fun j => weight s (x j))
        (notMem_below (⟨i, inside⟩ : Fin m))
      rw [← below_succ] at added
      simp only at point written
      simp only [kpp.weighTurn, point, found, Option.bind_eq_bind, Option.bind_some,
        WithTop.recTopCoe_coe, written]
      rw [added, add_comm, ← update_upTo _ _ ⟨i, inside⟩]
  simp only [upTo_zero, below_zero, Finset.sum_empty, upTo_all, below_all] at run
  rw [run, List.map_ofFn, List.map_ofFn, List.sum_ofFn]
  rfl

omit chosen in
/-- From index `lo` on, with the weights `rest` still to come. -/
theorem selectLoop_eq {m : Nat} (room : m < cent.length) {weights rest : List ℚ} {lo : Nat}
    (here : weights.drop lo = rest) (sized : lo + rest.length = n) (t : ℚ) :
    ∃ t' cent', forBreak (kpp.selectTurn (table x g) (weights.map some) m) rest.length lo (t, cent) =
        some (t', cent') ∧
      Stored cent m ((Roulette.pick rest t).bind fun j => (List.ofFn x)[lo + j]?) cent' := by
  induction rest generalizing lo t with
  | nil => exact ⟨t, cent, rfl, .none⟩
  | cons w rest ih =>
      rw [List.length_cons] at sized
      have inside : lo < n := by omega
      have weighs : load (weights.map some) (lo : Nat) = some w := by
        have head : weights[lo]? = some w := by
          rw [← List.head?_drop, here]
          rfl
        simp [load, head]
      have next : weights.drop (lo + 1) = rest := by
        rw [← List.drop_drop, here]
        rfl
      have point := read_table x g ⟨lo, inside⟩
      have stores : store cent (m : Nat) (asPoint (some (x ⟨lo, inside⟩)) (g ⟨lo, inside⟩)) =
          some (cent.set m (some (asPoint (some (x ⟨lo, inside⟩)) (g ⟨lo, inside⟩)))) := by
        rw [store, if_pos (Int.natCast_nonneg _), Int.toNat_natCast, write_eq room]
      simp only at point
      unfold Roulette.pick
      simp only [List.length_cons, forBreak, kpp.selectTurn, weighs, Option.bind_eq_bind,
        Option.bind_some]
      by_cases reached : t - w ≤ 0
      · have stop : ¬ t - w > 0 := not_lt.mpr reached
        simp only [stop, reached, if_false, if_true, point, stores, Option.bind_some]
        have here : (List.ofFn x)[lo + 0]? = some (x ⟨lo, inside⟩) := read_ofFn x ⟨lo, inside⟩
        rw [here]
        exact ⟨_, _, rfl, .some _ _⟩
      · have go : t - w > 0 := not_le.mp reached
        obtain ⟨t', cent', run, result⟩ := ih next (by omega) (t - w)
        have shift : (fun j => (List.ofFn x)[lo + (j + 1)]?) =
            fun j => (List.ofFn x)[lo + 1 + j]? := by
          funext j
          rw [Nat.add_right_comm, Nat.add_assoc]
        simp only [go, reached, if_true, if_false, run, Option.bind_some, Option.bind_map,
          Function.comp_def, shift]
        exact ⟨t', cent', rfl, result⟩

/-- A step chooses the next center, or leaves its cell unset. -/
theorem step_eq (room : s.length < cent.length) {d : Cells ℚ} (sized : d.length = n) :
    ∃ d' cent', kpp.step RAND_MAX rand (table x g) s.length (d, cent) = some (d', cent') ∧
      d'.length = n ∧ cent'.length = cent.length ∧
      match seedFor RAND_MAX (rand s.length) (List.ofFn x) s with
      | none => load cent' (s.length : Nat) = none
      | some pnt => Chosen cent' (s ++ [pnt]) := by
  have all : ((List.ofFn x).map (weight s)).drop 0 = (List.ofFn x).map (weight s) := List.drop_zero
  have count : ((List.ofFn x).map (weight s)).length = n := by simp
  obtain ⟨t, cent', run, result⟩ := @selectLoop_eq n x g cent s.length room _ _ 0 all
    (by rw [count, Nat.zero_add])
    (KMeans.randf RAND_MAX (rand s.length) ((List.ofFn x).map (weight s)).sum)
  rw [count] at run
  have length : (table x g).length = n := by simp [table]
  refine ⟨((List.ofFn x).map (weight s)).map some, cent', ?_, by simp, ?_⟩
  · simp only [kpp.step, length, weigh_eq chosen sized, Option.bind_eq_bind, Option.bind_some, randf,
      run]
  · have shift : (fun j => (List.ofFn x)[0 + j]?) = fun j => (List.ofFn x)[j]? := by
      funext j
      rw [Nat.zero_add]
    rw [shift] at result
    change Stored cent s.length (seedFor RAND_MAX (rand s.length) (List.ofFn x) s) cent' at result
    cases selected : seedFor RAND_MAX (rand s.length) (List.ofFn x) s with
    | none =>
        rw [selected] at result
        cases result
        exact ⟨rfl, chosen.unset s.length le_rfl⟩
    | some pnt =>
        rw [selected] at result
        cases result
        rename_i h
        refine ⟨by simp, by simp, by simpa using room, ?_, ?_⟩
        · intro j inside
          rw [List.length_append, List.length_singleton] at inside
          rcases Nat.lt_succ_iff_lt_or_eq.mp inside with before | rfl
          · obtain ⟨h', read⟩ := chosen.held j before
            refine ⟨h', ?_⟩
            rw [List.getElem_append_left before, ← read]
            simp [load, List.getElem?_set_ne (Nat.ne_of_gt before)]
          · exact ⟨h, by simp [load, room]⟩
        · intro j beyond
          rw [List.length_append, List.length_singleton] at beyond
          rw [← chosen.unset j (Nat.le_of_succ_le beyond)]
          simp [load, List.getElem?_set_ne (Nat.ne_of_lt beyond)]

end Step

/-! ## A run -/

section Run

variable {k : Nat}

/-- The first center. -/
theorem chosen_first (some_cluster : 1 ≤ k) (p : CPoint 2) (h : Int) :
    ∃ cent, store (List.replicate k none) 0 (asPoint (some p) h) = some cent ∧
      cent.length = k ∧ Chosen cent [p] := by
  refine ⟨(List.replicate k none).set 0 (some (asPoint (some p) h)), ?_, by simp, by simp,
    by simpa using some_cluster, ?_, ?_⟩
  · rw [store, if_pos le_rfl, Int.toNat_zero, write_eq]
    simpa using Nat.lt_of_lt_of_le Nat.one_pos some_cluster
  · intro j inside
    obtain rfl : j = 0 := by simpa using inside
    exact ⟨h, by simp [load, Nat.lt_of_lt_of_le Nat.one_pos some_cluster]⟩
  · intro j beyond
    rw [List.length_singleton] at beyond
    simp only [load, if_pos (Int.natCast_nonneg j), Int.toNat_natCast,
      List.getElem?_set_ne (Nat.ne_of_lt beyond), List.getElem?_replicate]
    split <;> rfl

/-- The loop over `n_cluster` before turn `m + 1`, if all steps have chosen a center. -/
theorem steps_chosen {cent : Cells point_t} (sized : cent.length = k) {p : CPoint 2}
    (first : Chosen cent [p]) (drawn : (List.ofFn x)[rand 0 % n]? = some p) {m : Nat} (lt : m < k)
    {s : List (CPoint 2)} (chosen : seeds RAND_MAX rand (List.ofFn x) m = some s) :
    ∃ d cent', forLoop 1 (m + 1) (List.replicate n none, cent)
        (kpp.step RAND_MAX rand (table x g)) = some (d, cent') ∧
      d.length = n ∧ cent'.length = k ∧ Chosen cent' s := by
  induction m generalizing s with
  | zero =>
      simp only [seeds, List.length_ofFn, drawn, Option.map_some, Option.some.injEq] at chosen
      subst chosen
      exact ⟨_, _, forLoop_empty 1 _ _, by simp, sized, first⟩
  | succ m ih =>
      obtain ⟨before, earlier, later⟩ := Option.bind_eq_some_iff.mp chosen
      obtain ⟨pnt, selected, last⟩ := Option.bind_eq_some_iff.mp later
      cases last
      obtain ⟨d, cent', run, length, room, held⟩ := ih (by omega) earlier
      have count := length_seeds earlier
      obtain ⟨d', next, step, length', room', result⟩ := @step_eq n x g RAND_MAX rand cent' before
        held (by omega) d length
      rw [count] at step result
      rw [selected] at result
      refine ⟨d', next, ?_, length', room'.trans room, result⟩
      rw [forLoop_succ (by omega), run]
      exact step

/-- If a step has chosen no center, the loop has failed or has left a cell unset. -/
theorem steps_unset {cent : Cells point_t} (some_point : 0 < n) (sized : cent.length = k)
    {p : CPoint 2} (first : Chosen cent [p]) (drawn : (List.ofFn x)[rand 0 % n]? = some p) {m : Nat}
    (lt : m < k) (stuck : seeds RAND_MAX rand (List.ofFn x) m = none) {d : Cells ℚ}
    {cent' : Cells point_t} (run : forLoop 1 (m + 1) (List.replicate n none, cent)
      (kpp.step RAND_MAX rand (table x g)) = some (d, cent')) :
    ∃ j ≤ m, load cent' (j : Nat) = none := by
  induction m generalizing d cent' with
  | zero => simp [seeds, drawn] at stuck
  | succ m ih =>
      rw [forLoop_succ (by omega)] at run
      obtain ⟨⟨d', before⟩, earlier, step⟩ := Option.bind_eq_some_iff.mp run
      cases chosen : seeds RAND_MAX rand (List.ofFn x) m with
      | none =>
          obtain ⟨j, le, unset⟩ := ih (by omega) chosen earlier
          have fails : forLoop 0 n (d', (0 : ℚ)) (kpp.weighTurn (table x g) before (m + 1)) = none := by
            apply forLoop_eq_none le_rfl some_point
            intro t
            have read := read_table x g ⟨0, some_point⟩
            simp only at read
            simp only [kpp.weighTurn, read, nearest_unset unset (Nat.lt_succ_of_le le),
              Option.bind_eq_bind, Option.bind_some, Option.bind_none]
          have length : (table x g).length = n := by simp [table]
          simp [kpp.step, length, fails] at step
      | some s =>
          obtain ⟨d'', cent'', run', length, room, held⟩ := steps_chosen sized first drawn
            (by omega) chosen
          cases earlier.symm.trans run'
          have count := length_seeds chosen
          have none : seedFor RAND_MAX (rand (m + 1)) (List.ofFn x) s = none := by
            cases selected : seedFor RAND_MAX (rand (m + 1)) (List.ofFn x) s with
            | none => rfl
            | some pnt => simp [seeds, chosen, selected] at stuck
          obtain ⟨_, next, step', _, _, result⟩ := @step_eq n x g RAND_MAX rand before s held
            (by omega) d' length
          rw [count] at step' result
          rw [none] at result
          cases step.symm.trans step'
          exact ⟨m + 1, le_rfl, result⟩

/-- The last loop gives each point to the nearest seed. -/
theorem group_eq [NeZero k] {cent : Cells point_t} {c : Fin k → CPoint 2}
    (held : Held cent fun j => some (c j)) :
    forLoop 0 n (table x g) (kpp.groupTurn cent k) =
      some (table x (stored (assign CPoint.normSq x c))) := by
  have run := forLoop_eq (Nat.zero_le n) (kpp.groupTurn cent k)
    (fun m => table x (upTo m (stored (assign CPoint.normSq x c)) g)) (by
    intro m _ inside
    have read := read_table x (upTo m (stored (assign CPoint.normSq x c)) g) ⟨m, inside⟩
    have written := write_table x (upTo m (stored (assign CPoint.normSq x c)) g) ⟨m, inside⟩
      (upTo m (stored (assign CPoint.normSq x c)) g ⟨m, inside⟩)
      (stored (assign CPoint.normSq x c) ⟨m, inside⟩)
    have scan := @Rosetta.nearest_eq k cent _ (x ⟨m, inside⟩)
      (upTo m (stored (assign CPoint.normSq x c)) g ⟨m, inside⟩) _ held ⟨0, Option.some_ne_none _⟩
    rw [firstLeast_gap] at scan
    simp only at read
    simp only [kpp.groupTurn, read, scan, Option.bind_eq_bind, Option.bind_some]
    refine written.trans ?_
    rw [update_upTo _ _ (⟨m, inside⟩ : Fin n)])
  rwa [upTo_zero, upTo_all] at run

theorem drawn_first (some_point : 0 < n) (x : Fin n → CPoint 2) (rand : Nat → Nat) :
    ∃ p, (List.ofFn x)[rand 0 % n]? = some p ∧ ∃ h, (table x g)[rand 0 % n]? =
      some (asPoint (some p) h) :=
  ⟨_, read_ofFn x ⟨_, Nat.mod_lt _ some_point⟩, _, read_table x g ⟨_, Nat.mod_lt _ some_point⟩⟩

/-- `kpp` when every step chooses a center. -/
theorem kpp_of_seeds (some_point : 0 < n) {m : Nat} {s : List (CPoint 2)}
    (chosen : seeds RAND_MAX rand (List.ofFn x) m = some s) :
    ∃ (c : Fin (m + 1) → CPoint 2) (cent : Cells point_t), s = List.ofFn c ∧
      kpp RAND_MAX rand (table x g) (List.replicate (m + 1) none) (m + 1) =
        some (table x (stored (assign CPoint.normSq x c)), cent) ∧
      cent.length = m + 1 ∧ Held cent fun j => some (c j) := by
  obtain ⟨p, drawn, h, read⟩ := @drawn_first n g some_point x rand
  obtain ⟨cent₀, stores, sized, first⟩ := chosen_first (Nat.le_add_left 1 m) p h
  obtain ⟨d, cent, run, _, room, held⟩ := @steps_chosen n x g RAND_MAX rand (m + 1) cent₀ sized p
    first drawn m m.lt_succ_self s chosen
  obtain ⟨k, c, rfl⟩ := exists_ofFn s
  have count := length_seeds chosen
  rw [List.length_ofFn] at count
  subst count
  have holds : Held cent fun j => some (c j) := by
    intro j
    obtain ⟨h, cell⟩ := held.held j ((List.length_ofFn (f := c)).symm ▸ j.isLt)
    exact ⟨h, by rw [cell, List.getElem_ofFn]⟩
  have length : (table x g).length = n := by simp [table]
  refine ⟨c, cent, rfl, ?_, room, holds⟩
  simp only [kpp, length, read, stores, run, Option.bind_eq_bind, Option.bind_some,
    Nat.max_eq_right (Nat.le_add_left 1 m), group_eq holds]

/-- `kpp` when some step chooses none: a later scan reads what `malloc` gave. -/
theorem kpp_of_stuck (some_point : 0 < n) {m : Nat}
    (stuck : seeds RAND_MAX rand (List.ofFn x) m = none) :
    kpp RAND_MAX rand (table x g) (List.replicate (m + 1) none) (m + 1) = none := by
  obtain ⟨p, drawn, h, read⟩ := @drawn_first n g some_point x rand
  obtain ⟨cent₀, stores, sized, first⟩ := chosen_first (Nat.le_add_left 1 m) p h
  have length : (table x g).length = n := by simp [table]
  simp only [kpp, length, read, stores, Option.bind_eq_bind, Option.bind_some,
    Nat.max_eq_right (Nat.le_add_left 1 m)]
  cases run : forLoop 1 (m + 1) (List.replicate n none, cent₀)
      (kpp.step RAND_MAX rand (table x g)) with
  | none => rfl
  | some state =>
      obtain ⟨d, cent⟩ := state
      obtain ⟨j, le, unset⟩ := steps_unset some_point sized first drawn m.lt_succ_self stuck run
      have fails : forLoop 0 n (table x g) (kpp.groupTurn cent (m + 1)) = none := by
        apply forLoop_eq_none le_rfl some_point
        intro pts
        unfold kpp.groupTurn
        cases pts[0]? with
        | none => rfl
        | some p =>
            simp only [nearest_unset unset (Nat.lt_succ_of_le le), Option.bind_eq_bind,
              Option.bind_some, Option.bind_none]
      simp only [Option.bind_some, fails, Option.bind_none]

theorem isSome_kpp (some_point : 0 < n) (m : Nat) :
    (kpp RAND_MAX rand (table x g) (List.replicate (m + 1) none) (m + 1)).isSome =
      (seeds RAND_MAX rand (List.ofFn x) m).isSome := by
  cases chosen : seeds RAND_MAX rand (List.ofFn x) m with
  | none =>
      rw [kpp_of_stuck some_point chosen]
      rfl
  | some s =>
      obtain ⟨_, _, _, run, _⟩ := @kpp_of_seeds n x g RAND_MAX rand some_point m s chosen
      rw [run]
      rfl

/-- All points are among the centers in the cells. -/
theorem held_all {cent : Cells point_t} {c : Fin k → CPoint 2}
    (held : Held cent fun j => some (c j)) :
    (∀ i, ∃ j < k, ∃ h, load cent (j : Nat) = some (asPoint (some (x i)) h)) ↔
      ∀ pnt ∈ List.ofFn x, pnt ∈ List.ofFn c := by
  constructor
  · intro cells pnt member
    obtain ⟨i, rfl⟩ := List.mem_ofFn.mp member
    obtain ⟨j, lt, h, read⟩ := cells i
    obtain ⟨h', own⟩ := held ⟨j, lt⟩
    have same := asPoint_inj (Option.some.inj (read.symm.trans own))
    exact List.mem_ofFn.mpr ⟨⟨j, lt⟩, same.symm⟩
  · intro all i
    obtain ⟨j, same⟩ := List.mem_ofFn.mp (all (x i) (List.mem_ofFn.mpr ⟨i, rfl⟩))
    obtain ⟨h, read⟩ := held j
    exact ⟨j, j.isLt, h, same ▸ read⟩

end Run

/-! ## The seeds -/

section Seeding

variable {vpnts : List (CPoint 2)}

theorem seeds_ne_nil {m : Nat} {s : List (CPoint 2)}
    (chosen : seeds RAND_MAX rand vpnts m = some s) : s ≠ [] := by
  apply List.ne_nil_of_length_pos
  rw [length_seeds chosen]
  exact m.succ_pos

/-- A step chooses a center unless the draw is the greatest and a point is left over. -/
theorem isSome_seeds_succ (large : 1 < RAND_MAX) (some_point : vpnts ≠ []) {m : Nat}
    {s : List (CPoint 2)} (chosen : seeds RAND_MAX rand vpnts m = some s) :
    (seeds RAND_MAX rand vpnts (m + 1)).isSome ↔
      rand (m + 1) < RAND_MAX ∨ ∀ pnt ∈ vpnts, pnt ∈ s := by
  have missed := @seedFor_eq_none 2 vpnts s (seeds_ne_nil chosen) RAND_MAX (rand (m + 1)) large
    some_point
  have same : (seeds RAND_MAX rand vpnts (m + 1)).isSome =
      (seedFor RAND_MAX (rand (m + 1)) vpnts s).isSome := by
    simp only [seeds, chosen, Option.bind_eq_bind, Option.bind_some]
    cases seedFor RAND_MAX (rand (m + 1)) vpnts s with
    | none => rfl
    | some pnt => rfl
  rw [same, ← Option.ne_none_iff_isSome, Ne, missed, not_and_or, not_le, not_not]

theorem seeds_points {m : Nat} {s : List (CPoint 2)}
    (chosen : seeds RAND_MAX rand vpnts m = some s) : ∀ pnt ∈ s, pnt ∈ vpnts := by
  induction m generalizing s with
  | zero =>
      obtain ⟨p, drawn, rfl⟩ := Option.map_eq_some_iff.mp chosen
      intro pnt member
      rw [List.mem_singleton.mp member]
      exact List.mem_of_getElem? drawn
  | succ m ih =>
      obtain ⟨before, earlier, later⟩ := Option.bind_eq_some_iff.mp chosen
      obtain ⟨p, selected, last⟩ := Option.bind_eq_some_iff.mp later
      cases last
      intro pnt member
      cases List.mem_append.mp member with
      | inl old => exact ih earlier pnt old
      | inr new =>
          rw [List.mem_singleton.mp new]
          exact seedFor_mem selected

/-- A seed repeats an earlier one only for the least result of `rand()`, or where every point
    is a seed already. -/
theorem seeds_new (large : 1 < RAND_MAX) {m : Nat} {s : List (CPoint 2)}
    (chosen : seeds RAND_MAX rand vpnts m = some s) {l j : Nat} (inside : l < s.length)
    (earlier : j < l) (same : s[j] = s[l]) :
    rand l = 0 ∨ ∀ pnt ∈ vpnts, pnt ∈ s.take l := by
  induction m generalizing s with
  | zero =>
      rw [length_seeds chosen] at inside
      omega
  | succ m ih =>
      obtain ⟨before, first, later⟩ := Option.bind_eq_some_iff.mp chosen
      obtain ⟨p, selected, last⟩ := Option.bind_eq_some_iff.mp later
      cases last
      have count := length_seeds first
      rw [List.length_append, List.length_singleton] at inside
      rw [List.getElem_append_left (by omega)] at same
      rcases Nat.lt_succ_iff_lt_or_eq.mp inside with old | rfl
      · rw [List.getElem_append_left old] at same
        rw [List.take_append_of_le_length old.le]
        exact ih first old same
      · rw [List.getElem_concat_length rfl] at same
        rw [List.take_left]
        by_contra neither
        obtain ⟨positive, some_new⟩ := not_or.mp neither
        rw [count] at positive
        have absent := seedFor_new (seeds_ne_nil first) large (Nat.pos_of_ne_zero positive) some_new
          selected
        exact absent (same ▸ List.getElem_mem _)

/-- With no zero vector in the way both programs choose the same seeds. -/
theorem seeds_eq_seeding {k : Nat} (large : 1 < RAND_MAX) (some_point : vpnts ≠ [])
    (some_cluster : 1 ≤ k) (nearer : FirstNearer rand vpnts)
    (below : ∀ m, 1 ≤ m → m < k → rand m < RAND_MAX) {m : Nat} (lt : m < k) :
    seeds RAND_MAX rand vpnts m =
      some ((seeding RAND_MAX rand vpnts (zeros k) m).take (m + 1)) := by
  induction m with
  | zero =>
      obtain ⟨first, drawn⟩ := drawn_point rand some_point
      have head : (seeding RAND_MAX rand vpnts (zeros k) 0)[0]? = some first :=
        seeding_first some_cluster drawn 0
      have one : (seeding RAND_MAX rand vpnts (zeros k) 0).take 1 = [first] := by
        rw [List.take_one, List.head?_eq_getElem?, head]
        rfl
      rw [seeds, drawn, one]
      rfl
  | succ m ih =>
      have chosen := ih (by omega)
      have weighs := (weighsChosen_succ some_point some_cluster (Nat.lt_of_succ_lt lt)).mp
        (@weighs_of_firstNearer 2 RAND_MAX rand vpnts k some_point some_cluster nearer m
          (Nat.lt_of_succ_lt lt))
      have some_center := seeding_ne_nil RAND_MAX rand vpnts some_cluster m
      have same : vpnts.map (weight ((seeding RAND_MAX rand vpnts (zeros k) m).take (m + 1))) =
          vpnts.map (weight (seeding RAND_MAX rand vpnts (zeros k) m)) := by
        apply List.map_congr_left
        intro pnt member
        obtain ⟨i, low, c, cell, reached⟩ := weighs pnt member
        have chosen_least := weight_isLeast (seeds_ne_nil chosen) pnt
        have least := weight_isLeast some_center pnt
        apply le_antisymm
        · rw [← reached]
          apply chosen_least.2
          refine ⟨c, List.mem_of_getElem? (i := i) ?_, rfl⟩
          rw [List.getElem?_take_of_lt low, cell]
        · obtain ⟨d, there, at_d⟩ := chosen_least.1
          rw [← at_d]
          exact least.2 ⟨d, List.mem_of_mem_take there, rfl⟩
      have seed : seedFor RAND_MAX (rand (m + 1)) vpnts
          ((seeding RAND_MAX rand vpnts (zeros k) m).take (m + 1)) =
          seedFor RAND_MAX (rand (m + 1)) vpnts (seeding RAND_MAX rand vpnts (zeros k) m) := by
        unfold seedFor
        rw [same]
      have found : seedFor RAND_MAX (rand (m + 1)) vpnts (seeding RAND_MAX rand vpnts (zeros k) m) ≠
          none := by
        intro none
        have most := ((seedFor_eq_none some_center large some_point).mp none).1
        exact absurd (below (m + 1) (Nat.le_add_left 1 m) lt) (not_lt.mpr most)
      obtain ⟨pnt, selected⟩ := Option.ne_none_iff_exists'.mp found
      have length : (zeros k : List (CPoint 2)).length = k := List.length_replicate
      have here := @seeding_here 2 RAND_MAX rand vpnts (zeros k) m (length.symm ▸ lt)
      rw [selected, Option.some_or] at here
      have before := @take_seeding 2 RAND_MAX rand vpnts (zeros k) m (m + 1) (Nat.le_succ m)
      rw [seeds, chosen, Option.bind_eq_bind, Option.bind_some, seed, selected, Option.bind_eq_bind,
        Option.bind_some, @List.take_add_one _ _ (m + 1), here, before]
      rfl

end Seeding

end KMeans.Rosetta
