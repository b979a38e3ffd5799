import KMeans.General.Roulette
import KMeans.MultiThread.KmeansPP

/-! # The steps of `kmeansPP`

What a step of the seeding computes from the vector of centers it finds: the weight of each
point, and the point whose weight the threshold reaches. The vector has its full length from
the beginning, and `findNearest` scans all of it.
-/

namespace KMeans

open Loops Arrays

variable {N : Nat}

/-- The squared distance from a point to the nearest of all the centers in the vector. -/
def weight (centers : List (CPoint N)) (pnt : CPoint N) : ℚ :=
  ((findNearest pnt centers).map Prod.snd).getD 0

section Weights

variable {centers : List (CPoint N)} (some_center : centers ≠ [])

include some_center

theorem findNearest_weight (pnt : CPoint N) :
    ∃ i, findNearest pnt centers = some (i, weight centers pnt) := by
  obtain ⟨⟨i, d⟩, found⟩ := findNearest_defined some_center pnt
  refine ⟨i, ?_⟩
  rw [weight, found]
  rfl

theorem weight_isLeast (pnt : CPoint N) :
    IsLeast {d : ℚ | ∃ c ∈ centers, (c - pnt) * (c - pnt) = d} (weight centers pnt) := by
  obtain ⟨k, _, c, rfl⟩ := exists_ofFn_neZero some_center
  rw [weight, findNearest_ofFn]
  constructor
  · exact ⟨_, List.mem_ofFn.mpr ⟨Lloyd.nearest CPoint.normSq c pnt, rfl⟩, rfl⟩
  · intro d reached
    obtain ⟨e, member, rfl⟩ := reached
    obtain ⟨l, rfl⟩ := List.mem_ofFn.mp member
    exact Lloyd.nearest_le CPoint.normSq c pnt l

theorem weight_nonneg (pnt : CPoint N) : 0 ≤ weight centers pnt := by
  obtain ⟨c, _, same⟩ := (weight_isLeast some_center pnt).1
  rw [← same]
  exact CPoint.normSq_posDef.nonneg (c - pnt)

/-- A point has weight zero exactly if it is in the vector. -/
theorem weight_eq_zero (pnt : CPoint N) : weight centers pnt = 0 ↔ pnt ∈ centers := by
  have least := weight_isLeast some_center pnt
  constructor
  · intro zero
    obtain ⟨c, member, same⟩ := least.1
    rw [zero] at same
    have gap : c - pnt = 0 := CPoint.normSq_posDef.le_zero_iff.mp same.le
    rwa [← sub_eq_zero.mp gap]
  · intro member
    apply le_antisymm _ (weight_nonneg some_center pnt)
    have below := least.2 ⟨pnt, member, rfl⟩
    rw [sub_self, ← CPoint.normSq_apply, map_zero] at below
    exact below

/-- The weighting loop overwrites `dist2`. -/
theorem weigh_eq {vpnts : List (CPoint N)} {dist2 : List ℚ} (sized : dist2.length = vpnts.length) :
    kmeansPP.weigh vpnts centers dist2 =
      some (vpnts.map (weight centers), (vpnts.map (weight centers)).sum) := by
  obtain ⟨n, x, rfl⟩ := exists_ofFn vpnts
  obtain ⟨m, d, rfl⟩ := exists_ofFn dist2
  rw [List.length_ofFn, List.length_ofFn] at sized
  subst sized
  have run := forLoop_eq (Nat.zero_le m) (kmeansPP.weighTurn (List.ofFn x) centers)
    (fun i => (List.ofFn (upTo i (weight centers ∘ x) d), ∑ j ∈ below m i, weight centers (x j)))
    fun i _ inside => by
      obtain ⟨_, found⟩ := findNearest_weight some_center (x ⟨i, inside⟩)
      have point : (List.ofFn x)[i]? = some (x ⟨i, inside⟩) := read_ofFn x ⟨i, inside⟩
      have written := write_ofFn (upTo i (weight centers ∘ x) d) ⟨i, inside⟩
        (weight centers (x ⟨i, inside⟩))
      have added := Finset.sum_insert (f := fun j => weight centers (x j))
        (notMem_below (⟨i, inside⟩ : Fin m))
      rw [← below_succ] at added
      simp only [kmeansPP.weighTurn, point, found, Option.bind_eq_bind, Option.bind_some, written]
      rw [added, add_comm, ← update_upTo _ _ ⟨i, inside⟩]
      rfl
  simp only [upTo_zero, below_zero, Finset.sum_empty, upTo_all, below_all] at run
  rw [kmeansPP.weigh, List.length_ofFn, run, List.map_ofFn, List.sum_ofFn]
  rfl

end Weights

/-! ## The selection loop -/

theorem selectTurn_eq {vpnts centers : List (CPoint N)} {dist2 : List ℚ} {m lo : Nat} {w : ℚ}
    {pnt : CPoint N} (weighs : dist2[lo]? = some w) (point : vpnts[lo]? = some pnt)
    (room : m < centers.length) (t : ℚ) : kmeansPP.selectTurn vpnts dist2 m lo (t, centers) =
      some (if t - w ≤ 0 then ((t - w, centers.set m pnt), false) else ((t - w, centers), true)) := by
  simp only [kmeansPP.selectTurn, weighs, point, Option.bind_eq_bind, Option.bind_some,
    write_eq room]
  split <;> rfl

/-- From index `lo` on, with the weights `rest` still to come. -/
theorem selectLoop_eq {vpnts centers : List (CPoint N)} {dist2 : List ℚ} {m : Nat}
    (room : m < centers.length) {rest : List ℚ} {lo : Nat} (here : dist2.drop lo = rest)
    (sized : lo + rest.length = vpnts.length) (t : ℚ) :
    (∃ t', forBreak (kmeansPP.selectTurn vpnts dist2 m) rest.length lo (t, centers) =
      some (t', ((Roulette.pick rest t).bind fun j => vpnts[lo + j]?).elim centers
        (centers.set m))) ∧
    breaks (kmeansPP.selectTurn vpnts dist2 m) rest.length lo (t, centers) =
      some (Roulette.pick rest t).isSome := by
  induction rest generalizing lo t with
  | nil => exact ⟨⟨t, rfl⟩, rfl⟩
  | cons w rest ih =>
      rw [List.length_cons] at sized
      have weighs : dist2[lo]? = some w := by
        rw [← List.head?_drop, here]
        rfl
      have next : dist2.drop (lo + 1) = rest := by
        rw [← List.drop_drop, here]
        rfl
      have point : vpnts[lo]? = some vpnts[lo] := List.getElem?_eq_getElem (by omega)
      have turn := selectTurn_eq weighs point room t
      unfold Roulette.pick
      simp only [List.length_cons, forBreak, breaks, turn, Option.bind_eq_bind, Option.bind_some]
      by_cases reached : t - w ≤ 0
      · simp [reached, point]
      · obtain ⟨⟨t', run⟩, left⟩ := ih next (by omega) (t - w)
        have shift : (fun j => vpnts[lo + (j + 1)]?) = fun j => vpnts[lo + 1 + j]? := by
          funext j
          rw [Nat.add_right_comm, Nat.add_assoc]
        simp only [reached, if_false, if_true, run, left, Option.bind_map, Function.comp_def, shift,
          Option.isSome_map]
        exact ⟨⟨t', rfl⟩, trivial⟩

/-- The point that a step selects, if its loop is left by `break`. -/
def seedFor (RAND_MAX r : Nat) (vpnts centers : List (CPoint N)) : Option (CPoint N) :=
  (Roulette.pick (vpnts.map (weight centers))
    (randf RAND_MAX r (vpnts.map (weight centers)).sum)).bind (vpnts[·]?)

/-- The vector after a step: where no point is selected the center keeps its value. -/
def place (centers : List (CPoint N)) (n_cluster : Nat) (selected : Option (CPoint N)) :
    List (CPoint N) := selected.elim centers (centers.set n_cluster)

@[simp] theorem length_place (centers : List (CPoint N)) (n_cluster : Nat)
    (selected : Option (CPoint N)) : (place centers n_cluster selected).length = centers.length := by
  cases selected with
  | none => rfl
  | some pnt => exact List.length_set

theorem place_elsewhere (centers : List (CPoint N)) {n_cluster i : Nat} (other : n_cluster ≠ i)
    (selected : Option (CPoint N)) : (place centers n_cluster selected)[i]? = centers[i]? := by
  cases selected with
  | none => rfl
  | some pnt => exact List.getElem?_set_ne other

theorem place_here {centers : List (CPoint N)} {n_cluster : Nat} (room : n_cluster < centers.length)
    (selected : Option (CPoint N)) :
    (place centers n_cluster selected)[n_cluster]? = selected.or centers[n_cluster]? := by
  cases selected with
  | none => rfl
  | some pnt => exact List.getElem?_set_self room

section Step

variable {vpnts centers : List (CPoint N)}

theorem isSome_seedFor (RAND_MAX r : Nat) : (seedFor RAND_MAX r vpnts centers).isSome =
    (Roulette.pick (vpnts.map (weight centers))
      (randf RAND_MAX r (vpnts.map (weight centers)).sum)).isSome := by
  unfold seedFor
  cases picked : Roulette.pick (vpnts.map (weight centers))
    (randf RAND_MAX r (vpnts.map (weight centers)).sum) with
  | none => rfl
  | some j =>
      have inside := Roulette.pick_lt picked
      rw [List.length_map] at inside
      simp [inside]

theorem seedFor_mem {RAND_MAX r : Nat} {pnt : CPoint N}
    (selected : seedFor RAND_MAX r vpnts centers = some pnt) : pnt ∈ vpnts := by
  obtain ⟨j, _, there⟩ := Option.bind_eq_some_iff.mp selected
  exact List.mem_of_getElem? there

theorem select_eq {n_cluster : Nat} (room : n_cluster < centers.length) (RAND_MAX r : Nat) :
    kmeansPP.select vpnts (vpnts.map (weight centers)) n_cluster
        (randf RAND_MAX r (vpnts.map (weight centers)).sum) centers =
      some (place centers n_cluster (seedFor RAND_MAX r vpnts centers)) ∧
    breaks (kmeansPP.selectTurn vpnts (vpnts.map (weight centers)) n_cluster) vpnts.length 0
        (randf RAND_MAX r (vpnts.map (weight centers)).sum, centers) =
      some (seedFor RAND_MAX r vpnts centers).isSome := by
  have all : (vpnts.map (weight centers)).drop 0 = vpnts.map (weight centers) := List.drop_zero
  have sized : 0 + (vpnts.map (weight centers)).length = vpnts.length := by
    rw [Nat.zero_add, List.length_map]
  obtain ⟨⟨t, run⟩, left⟩ := selectLoop_eq room all sized
    (randf RAND_MAX r (vpnts.map (weight centers)).sum)
  rw [List.length_map] at run left
  simp only [Nat.zero_add] at run
  constructor
  · rw [kmeansPP.select, run]
    rfl
  · rw [left, isSome_seedFor]

variable (some_center : centers ≠ [])

include some_center

theorem step_eq {dist2 : List ℚ} (sized : dist2.length = vpnts.length) {n_cluster : Nat}
    (room : n_cluster < centers.length) (RAND_MAX : Nat) (rand : Nat → Nat) :
    kmeansPP.step RAND_MAX rand vpnts n_cluster (dist2, centers) =
      some (vpnts.map (weight centers),
        place centers n_cluster (seedFor RAND_MAX (rand n_cluster) vpnts centers)) := by
  simp only [kmeansPP.step, weigh_eq some_center sized, Option.bind_eq_bind, Option.bind_some,
    (select_eq room RAND_MAX (rand n_cluster)).1]

theorem weights_nonneg (vpnts : List (CPoint N)) : ∀ w ∈ vpnts.map (weight centers), 0 ≤ w := by
  intro w member
  obtain ⟨pnt, _, rfl⟩ := List.mem_map.mp member
  exact weight_nonneg some_center pnt

/-- The weights sum to zero exactly if every point is in the vector. -/
theorem weights_sum : (vpnts.map (weight centers)).sum = 0 ↔ ∀ pnt ∈ vpnts, pnt ∈ centers := by
  constructor
  · intro zero pnt member
    rw [← weight_eq_zero some_center]
    exact List.all_zero_of_le_zero_le_of_sum_eq_zero (weights_nonneg some_center vpnts) zero
      (List.mem_map_of_mem member)
  · intro all
    apply List.sum_eq_zero
    intro w member
    obtain ⟨pnt, inside, rfl⟩ := List.mem_map.mp member
    exact (weight_eq_zero some_center pnt).mpr (all pnt inside)

/-! ## The ends of the random range -/

/-- The threshold is zero for the least result of `rand()` and where every point is in the vector,
    and the first index is taken. -/
theorem seedFor_first {RAND_MAX r : Nat} (some_point : vpnts ≠ [])
    (least : r = 0 ∨ ∀ pnt ∈ vpnts, pnt ∈ centers) : seedFor RAND_MAX r vpnts centers = vpnts[0]? := by
  have zero : randf RAND_MAX r (vpnts.map (weight centers)).sum = 0 := by
    unfold randf
    cases least with
    | inl none => rw [none, Nat.cast_zero, mul_zero, zero_div]
    | inr all => rw [(weights_sum some_center).mpr all, zero_mul, zero_div]
  rw [seedFor, zero, Roulette.pick_zero (weights_nonneg some_center vpnts) (by simpa using some_point)]
  rfl

/-- The threshold is above the sum for the greatest result of `rand()`, because `randf` divides
    by one less. -/
theorem seedFor_eq_none {RAND_MAX r : Nat} (large : 1 < RAND_MAX) (some_point : vpnts ≠ []) :
    seedFor RAND_MAX r vpnts centers = none ↔
      RAND_MAX ≤ r ∧ ¬ ∀ pnt ∈ vpnts, pnt ∈ centers := by
  have total := List.sum_nonneg (weights_nonneg some_center vpnts)
  have divisor : (0 : ℚ) < (RAND_MAX : ℚ) - 1 := sub_pos.mpr (by exact_mod_cast large)
  have missed : seedFor RAND_MAX r vpnts centers = none ↔
      (vpnts.map (weight centers)).sum < randf RAND_MAX r (vpnts.map (weight centers)).sum := by
    rw [← Option.not_isSome_iff_eq_none, isSome_seedFor, Option.not_isSome_iff_eq_none,
      Roulette.pick_eq_none (weights_nonneg some_center vpnts), List.map_eq_nil_iff]
    simp [some_point]
  rw [missed, ← weights_sum some_center]
  generalize (vpnts.map (weight centers)).sum = sum at total
  unfold randf
  rw [lt_div_iff₀ divisor]
  have above : RAND_MAX ≤ r ↔ (RAND_MAX : ℚ) - 1 < r := by
    rw [sub_lt_iff_lt_add]
    exact_mod_cast Nat.lt_succ_iff.symm
  rw [above]
  constructor
  · intro more
    have nonzero : sum ≠ 0 := by
      intro zero
      simp [zero] at more
    exact ⟨lt_of_mul_lt_mul_left more total, nonzero⟩
  · intro both
    obtain ⟨more, nonzero⟩ := both
    exact mul_lt_mul_of_pos_left more (lt_of_le_of_ne total (Ne.symm nonzero))

/-- A positive threshold selects a point that is not in the vector. -/
theorem seedFor_new {RAND_MAX r : Nat} (large : 1 < RAND_MAX) (positive : 0 < r)
    (some_new : ¬ ∀ pnt ∈ vpnts, pnt ∈ centers) {pnt : CPoint N}
    (selected : seedFor RAND_MAX r vpnts centers = some pnt) : pnt ∉ centers := by
  have total := List.sum_nonneg (weights_nonneg some_center vpnts)
  have divisor : (0 : ℚ) < (RAND_MAX : ℚ) - 1 := sub_pos.mpr (by exact_mod_cast large)
  rw [← weights_sum some_center] at some_new
  have threshold : 0 < randf RAND_MAX r (vpnts.map (weight centers)).sum := by
    have sum := lt_of_le_of_ne total (Ne.symm some_new)
    unfold randf
    positivity
  obtain ⟨j, picked, there⟩ := Option.bind_eq_some_iff.mp selected
  obtain ⟨w, weighs, above⟩ := Roulette.pick_pos threshold picked
  rw [List.getElem?_map, there, Option.map_some, Option.some.injEq] at weighs
  rw [← weight_eq_zero some_center, weighs]
  exact above.ne'

end Step

/-! ## The run -/

/-- The variables `dist2` and `centers` of `kmeansPP` when step `n_cluster` begins. -/
def kmeansPP.before (RAND_MAX : Nat) (rand : Nat → Nat) (vpnts : List (CPoint N)) (n_cent : Nat)
    (centers : List (CPoint N)) (n_cluster : Nat) : Option (List ℚ × List (CPoint N)) := do
  let dist2 := List.replicate vpnts.length 0
  let centers := grow centers n_cent default
  let pnt ← vpnts[rand 0 % vpnts.length]?
  let centers ← write centers 0 pnt
  forLoop 1 n_cluster (dist2, centers) (kmeansPP.step RAND_MAX rand vpnts)

/-- The call is the steps up to the last one. -/
theorem kmeansPP_eq_before (RAND_MAX : Nat) (rand : Nat → Nat) (vpnts : List (CPoint N))
    (n_cent : Nat) (centers : List (CPoint N)) : kmeansPP RAND_MAX rand vpnts n_cent centers =
      (kmeansPP.before RAND_MAX rand vpnts n_cent centers n_cent).map Prod.snd := by
  unfold kmeansPP kmeansPP.before
  cases vpnts[rand 0 % vpnts.length]? with
  | none => rfl
  | some pnt =>
      simp only [Option.bind_eq_bind, Option.bind_some]
      cases write (grow centers n_cent default) 0 pnt with
      | none => rfl
      | some centers =>
          simp only [Option.bind_some]
          cases forLoop 1 n_cent (List.replicate vpnts.length 0, centers)
            (kmeansPP.step RAND_MAX rand vpnts) with
          | none => rfl
          | some seeded => rfl

/-- The centers when step `m + 1` begins, for a vector that begins as `base`. -/
def seeding (RAND_MAX : Nat) (rand : Nat → Nat) (vpnts base : List (CPoint N)) :
    Nat → List (CPoint N)
  | 0 => base.set 0 (vpnts[rand 0 % vpnts.length]?.getD default)
  | m + 1 => place (seeding RAND_MAX rand vpnts base m) (m + 1)
      (seedFor RAND_MAX (rand (m + 1)) vpnts (seeding RAND_MAX rand vpnts base m))

section Run

variable {RAND_MAX : Nat} {rand : Nat → Nat} {vpnts base : List (CPoint N)}

@[simp] theorem length_seeding (m : Nat) :
    (seeding RAND_MAX rand vpnts base m).length = base.length := by
  induction m with
  | zero => exact List.length_set
  | succ m ih => rw [seeding, length_place, ih]

/-- A step leaves the cells after its own as they were at the beginning. -/
theorem seeding_ahead {m i : Nat} (ahead : m < i) :
    (seeding RAND_MAX rand vpnts base m)[i]? = base[i]? := by
  induction m with
  | zero => exact List.getElem?_set_ne (by omega)
  | succ m ih => rw [seeding, place_elsewhere _ (by omega), ih (by omega)]

/-- No later step changes a center that was chosen. -/
theorem seeding_behind {m n i : Nat} (le : m ≤ n) (behind : i ≤ m) :
    (seeding RAND_MAX rand vpnts base n)[i]? = (seeding RAND_MAX rand vpnts base m)[i]? := by
  induction n, le using Nat.le_induction with
  | base => rfl
  | succ n le ih => rw [seeding, place_elsewhere _ (by omega), ih]

theorem take_seeding {m n : Nat} (le : m ≤ n) :
    (seeding RAND_MAX rand vpnts base n).take (m + 1) =
      (seeding RAND_MAX rand vpnts base m).take (m + 1) := by
  apply List.ext_getElem?
  intro i
  rcases Nat.lt_or_ge i (m + 1) with low | high
  · rw [List.getElem?_take_of_lt low, List.getElem?_take_of_lt low,
      seeding_behind le (Nat.lt_succ_iff.mp low)]
  · rw [List.getElem?_take_eq_none high, List.getElem?_take_eq_none high]

theorem seeding_here {m : Nat} (room : m + 1 < base.length) :
    (seeding RAND_MAX rand vpnts base (m + 1))[m + 1]? =
      (seedFor RAND_MAX (rand (m + 1)) vpnts (seeding RAND_MAX rand vpnts base m)).or
        base[m + 1]? := by
  rw [seeding, place_here (by rwa [length_seeding]), seeding_ahead m.lt_succ_self]

variable (RAND_MAX rand) in
theorem before_eq {n_cent : Nat} (centers : List (CPoint N)) (some_point : vpnts ≠ [])
    (some_cluster : 1 ≤ n_cent) {m : Nat} (inside : m < n_cent) :
    ∃ dist2, dist2.length = vpnts.length ∧
      kmeansPP.before RAND_MAX rand vpnts n_cent centers (m + 1) =
        some (dist2, seeding RAND_MAX rand vpnts (grow centers n_cent default) m) := by
  have drawn : rand 0 % vpnts.length < vpnts.length :=
    Nat.mod_lt _ (List.length_pos_iff.mpr some_point)
  have room : ∀ i < n_cent, i < (grow centers n_cent (default : CPoint N)).length := by
    intro i lt
    rw [length_grow]
    omega
  unfold kmeansPP.before
  rw [List.getElem?_eq_getElem drawn]
  simp only [Option.bind_eq_bind, Option.bind_some, write_eq (room 0 some_cluster)]
  induction m with
  | zero =>
      refine ⟨List.replicate vpnts.length 0, List.length_replicate, ?_⟩
      rw [forLoop_empty, seeding, List.getElem?_eq_getElem drawn]
      rfl
  | succ m ih =>
      obtain ⟨dist2, sized, run⟩ := ih (by omega)
      refine ⟨vpnts.map (weight (seeding RAND_MAX rand vpnts (grow centers n_cent default) m)),
        List.length_map _, ?_⟩
      rw [forLoop_succ (by omega), run, Option.bind_some, seeding]
      have own : m + 1 < (seeding RAND_MAX rand vpnts (grow centers n_cent default) m).length := by
        rw [length_seeding]
        exact room (m + 1) inside
      exact step_eq (List.ne_nil_of_length_pos (by omega)) sized own RAND_MAX rand

theorem kmeansPP_eq {n_cent : Nat} {centers : List (CPoint N)} (some_point : vpnts ≠ [])
    (some_cluster : 1 ≤ n_cent) : kmeansPP RAND_MAX rand vpnts n_cent centers =
      some (seeding RAND_MAX rand vpnts (grow centers n_cent default) (n_cent - 1)) := by
  obtain ⟨m, rfl⟩ := Nat.exists_eq_add_of_le' some_cluster
  obtain ⟨dist2, _, run⟩ := before_eq RAND_MAX rand centers some_point some_cluster
    m.lt_succ_self
  rw [kmeansPP_eq_before, run]
  rfl

end Run

end KMeans
