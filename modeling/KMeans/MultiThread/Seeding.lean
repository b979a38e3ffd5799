import KMeans.MultiThread.SeedingSteps

/-! # What the seeding guarantees

The vector of centers begins as zero vectors, which `findNearest` takes for centers that
exist already; and the threshold covers both ends of the random range, where the selection
goes wrong: at the lower end it takes the first point whatever its weight, at the upper end
it takes none and leaves a zero vector.
-/

namespace KMeans

open Loops Arrays

variable {N : Nat}

/-- Both copies of `kmeansPP` begin a call with an empty vector, make the steps and return the
    centers that are there when the last step is over. -/
def BySteps (RAND_MAX : Nat) (rand : Nat → Nat) (vpnts : List (CPoint N)) (n_cent : Nat)
    (centers : List (CPoint N)) : Prop :=
  singleThread.kmeansPP RAND_MAX rand vpnts n_cent [] = some centers ∧
  multiThread.kmeansPP RAND_MAX rand vpnts n_cent [] = some centers ∧
  ∃ dist2, kmeansPP.before RAND_MAX rand vpnts n_cent [] n_cent = some (dist2, centers)

/-- The vector that the steps begin with. -/
abbrev zeros (n_cent : Nat) : List (CPoint N) := List.replicate n_cent 0

section Fresh

variable {RAND_MAX : Nat} {rand : Nat → Nat} {vpnts : List (CPoint N)} {n_cent : Nat}

theorem grow_nil (n_cent : Nat) : grow [] n_cent (default : CPoint N) = zeros n_cent := by
  rw [grow, List.nil_append, List.length_nil, Nat.sub_zero]
  rfl

variable (some_point : vpnts ≠ []) (some_cluster : 1 ≤ n_cent)

include some_point some_cluster

variable (RAND_MAX rand) in
theorem before_fresh {m : Nat} (inside : m < n_cent) : ∃ dist2, dist2.length = vpnts.length ∧
    kmeansPP.before RAND_MAX rand vpnts n_cent [] (m + 1) =
      some (dist2, seeding RAND_MAX rand vpnts (zeros n_cent) m) := by
  have run := before_eq RAND_MAX rand [] some_point some_cluster inside
  rw [grow_nil] at run
  exact run

theorem bySteps : BySteps RAND_MAX rand vpnts n_cent
    (seeding RAND_MAX rand vpnts (zeros n_cent) (n_cent - 1)) := by
  have whole : kmeansPP RAND_MAX rand vpnts n_cent [] =
      some (seeding RAND_MAX rand vpnts (zeros n_cent) (n_cent - 1)) := by
    rw [kmeansPP_eq some_point some_cluster, grow_nil]
  obtain ⟨dist2, _, run⟩ := before_fresh RAND_MAX rand some_point some_cluster
    (Nat.sub_lt some_cluster Nat.one_pos)
  rw [Nat.sub_add_cancel some_cluster] at run
  exact ⟨whole, whole, dist2, run⟩

end Fresh

section Cells

variable {RAND_MAX : Nat} {rand : Nat → Nat} {vpnts : List (CPoint N)} {n_cent : Nat}

/-- The first center is the point that was drawn. -/
theorem seeding_first (some_cluster : 1 ≤ n_cent) {first : CPoint N}
    (drawn : vpnts[rand 0 % vpnts.length]? = some first) (m : Nat) :
    (seeding RAND_MAX rand vpnts (zeros n_cent) m)[0]? = some first := by
  rw [seeding_behind m.zero_le le_rfl, seeding, drawn]
  apply List.getElem?_set_self
  rw [List.length_replicate]
  exact some_cluster

/-- A center of a later step is the point selected, or zero if there is none. -/
theorem seeding_cell {m n : Nat} (inside : m + 1 < n_cent) (le : m + 1 ≤ n) :
    (seeding RAND_MAX rand vpnts (zeros n_cent) n)[m + 1]? =
      some ((seedFor RAND_MAX (rand (m + 1)) vpnts
        (seeding RAND_MAX rand vpnts (zeros n_cent) m)).getD 0) := by
  rw [seeding_behind le le_rfl, seeding_here (by rwa [List.length_replicate]),
    List.getElem?_replicate_of_lt inside]
  cases seedFor RAND_MAX (rand (m + 1)) vpnts (seeding RAND_MAX rand vpnts (zeros n_cent) m) with
  | none => rfl
  | some pnt => rfl

variable (RAND_MAX rand vpnts) in
theorem seeding_ne_nil (some_cluster : 1 ≤ n_cent) (m : Nat) :
    seeding RAND_MAX rand vpnts (zeros n_cent) m ≠ [] := by
  apply List.ne_nil_of_length_pos
  rw [length_seeding, List.length_replicate]
  exact some_cluster

end Cells

/-! ## The weights -/

/-- When step `n_cluster` has computed its weights, each of them is the squared distance to the
    nearest of the centers chosen so far. -/
def WeighsChosen (RAND_MAX : Nat) (rand : Nat → Nat) (vpnts : List (CPoint N))
    (n_cent n_cluster : Nat) : Prop :=
  ∃ old centers dist2 sum,
    kmeansPP.before RAND_MAX rand vpnts n_cent [] n_cluster = some (old, centers) ∧
    kmeansPP.weigh vpnts centers old = some (dist2, sum) ∧
    ∀ (j : Nat) (pnt : CPoint N), vpnts[j]? = some pnt → ∃ d, dist2[j]? = some d ∧
      IsLeast {d : ℚ | ∃ i < n_cluster, ∃ c, centers[i]? = some c ∧ (c - pnt) * (c - pnt) = d} d

/-- No point is nearer to the zero vector than to the first center. -/
def FirstNearer (rand : Nat → Nat) (vpnts : List (CPoint N)) : Prop :=
  ∀ first, vpnts[rand 0 % vpnts.length]? = some first →
    ∀ pnt ∈ vpnts, (first - pnt) * (first - pnt) ≤ pnt * pnt

section Weighs

variable {RAND_MAX : Nat} {rand : Nat → Nat} {vpnts : List (CPoint N)} {n_cent : Nat}
  (some_point : vpnts ≠ []) (some_cluster : 1 ≤ n_cent)

theorem zero_apart (pnt : CPoint N) : (0 - pnt) * (0 - pnt) = pnt * pnt := by
  rw [← CPoint.normSq_apply, ← CPoint.normSq_apply, zero_sub, QuadraticMap.map_neg]

theorem drawn_point (rand : Nat → Nat) (some_point : vpnts ≠ []) :
    ∃ first, vpnts[rand 0 % vpnts.length]? = some first :=
  ⟨_, List.getElem?_eq_getElem (Nat.mod_lt _ (List.length_pos_iff.mpr some_point))⟩

include some_point some_cluster

theorem weighsChosen_succ {m : Nat} (inside : m < n_cent) :
    WeighsChosen RAND_MAX rand vpnts n_cent (m + 1) ↔ ∀ pnt ∈ vpnts,
      ∃ i < m + 1, ∃ c, (seeding RAND_MAX rand vpnts (zeros n_cent) m)[i]? = some c ∧
        (c - pnt) * (c - pnt) = weight (seeding RAND_MAX rand vpnts (zeros n_cent) m) pnt := by
  have some_center := seeding_ne_nil RAND_MAX rand vpnts some_cluster m
  obtain ⟨old, sized, run⟩ := before_fresh RAND_MAX rand some_point some_cluster inside
  have weighed := weigh_eq some_center sized
  generalize seeding RAND_MAX rand vpnts (zeros n_cent) m = centers at *
  constructor
  · intro holds pnt member
    obtain ⟨old', centers', dist2, sum, run', weighed', least⟩ := holds
    cases run.symm.trans run'
    cases weighed.symm.trans weighed'
    obtain ⟨j, there⟩ := List.getElem?_of_mem member
    obtain ⟨d, weighs, reached, _⟩ := least j pnt there
    rw [List.getElem?_map, there, Option.map_some, Option.some.injEq] at weighs
    rw [weighs]
    exact reached
  · intro reached
    refine ⟨old, centers, _, _, run, weighed, fun j pnt there => ⟨weight centers pnt, ?_, ?_, ?_⟩⟩
    · rw [List.getElem?_map, there, Option.map_some]
    · exact reached pnt (List.mem_of_getElem? there)
    · intro d other
      obtain ⟨i, _, c, cell, same⟩ := other
      exact (weight_isLeast some_center pnt).2 ⟨c, List.mem_of_getElem? cell, same⟩

/-- In the first step the only center chosen competes with the zero vectors. -/
theorem firstNearer_of_weighs (more : 1 < n_cent)
    (weighs : WeighsChosen RAND_MAX rand vpnts n_cent 1) : FirstNearer rand vpnts := by
  intro first drawn pnt member
  have some_center := seeding_ne_nil RAND_MAX rand vpnts some_cluster 0
  obtain ⟨i, low, c, cell, same⟩ :=
    (weighsChosen_succ some_point some_cluster (by omega)).mp weighs pnt member
  obtain rfl : i = 0 := by omega
  rw [seeding_first some_cluster drawn, Option.some.injEq] at cell
  subst cell
  have rest : (seeding RAND_MAX rand vpnts (zeros n_cent) 0)[1]? = some 0 := by
    rw [seeding_ahead Nat.one_pos, List.getElem?_replicate_of_lt more]
  rw [same, ← zero_apart]
  exact (weight_isLeast some_center pnt).2 ⟨0, List.mem_of_getElem? rest, rfl⟩

/-- Where the first center is nearer than the zero vector, the zero vectors are never the
    nearest. -/
theorem weighs_of_firstNearer (nearer : FirstNearer rand vpnts) {m : Nat} (inside : m < n_cent) :
    WeighsChosen RAND_MAX rand vpnts n_cent (m + 1) := by
  apply (weighsChosen_succ some_point some_cluster inside).mpr
  intro pnt member
  obtain ⟨first, drawn⟩ := drawn_point rand some_point
  have least := weight_isLeast (seeding_ne_nil RAND_MAX rand vpnts some_cluster m) pnt
  have head : (seeding RAND_MAX rand vpnts (zeros n_cent) m)[0]? = some first :=
    seeding_first some_cluster drawn m
  obtain ⟨c, there, same⟩ := least.1
  obtain ⟨i, cell⟩ := List.getElem?_of_mem there
  rcases Nat.lt_or_ge i (m + 1) with chosen | ahead
  · exact ⟨i, chosen, c, cell, same⟩
  · refine ⟨0, m.succ_pos, first, head, ?_⟩
    have zero : c = 0 := by
      rw [seeding_ahead ahead] at cell
      exact (List.mem_replicate.mp (List.mem_of_getElem? cell)).2
    apply le_antisymm _ (least.2 ⟨first, List.mem_of_getElem? head, rfl⟩)
    rw [← same, zero, zero_apart]
    exact nearer first drawn pnt member

/-- Every step weighs the points by the centers chosen so far, if there is a step at all, only
    for points of which none is nearer to the zero vector than to the first center. -/
theorem weighs_chosen_iff (RAND_MAX : Nat) (rand : Nat → Nat) :
    (∃ centers, BySteps RAND_MAX rand vpnts n_cent centers) ∧
    ((∀ n_cluster, 1 ≤ n_cluster → n_cluster < n_cent →
      WeighsChosen RAND_MAX rand vpnts n_cent n_cluster) ↔
        n_cent = 1 ∨ FirstNearer rand vpnts) := by
  refine ⟨⟨_, bySteps some_point some_cluster⟩, ?_, ?_⟩
  · intro weighs
    rcases Nat.lt_or_ge 1 n_cent with more | one
    · exact Or.inr (firstNearer_of_weighs some_point some_cluster more (weighs 1 le_rfl more))
    · exact Or.inl (le_antisymm one some_cluster)
  · intro condition n_cluster low high
    obtain ⟨m, rfl⟩ := Nat.exists_eq_add_of_le' low
    cases condition with
    | inl one => omega
    | inr nearer => exact weighs_of_firstNearer some_point some_cluster nearer (by omega)

omit some_point some_cluster in
/-- Points 10 and 1, the first center 10: the weight of the point 1 is 1, its squared distance
    to the zero vector, and not 81. -/
theorem zeros_weigh : ¬ ∀ (N RAND_MAX : Nat) (rand : Nat → Nat) (vpnts : List (CPoint N))
    (n_cent n_cluster : Nat), vpnts ≠ [] → vpnts.length < 2 ^ 32 → (∀ n, rand n ≤ RAND_MAX) →
    1 ≤ n_cluster → n_cluster < n_cent → WeighsChosen RAND_MAX rand vpnts n_cent n_cluster := by
  intro claim
  have weighs := claim 1 32767 (fun _ => 0) [⟨![10]⟩, ⟨![1]⟩] 2 1 (by simp) (by simp) (by simp)
    le_rfl (by omega)
  have nearer := firstNearer_of_weighs (by simp) (by omega) (by omega) weighs ⟨![10]⟩ rfl ⟨![1]⟩
    (by simp)
  revert nearer
  decide +kernel

omit some_point some_cluster in
theorem weighs_chosen_iff_on_two_points :
    (∃ centers, BySteps 32767 (fun _ => 0) [(⟨![3]⟩ : CPoint 1), ⟨![4]⟩] 2 centers) ∧
    ((∀ n_cluster, 1 ≤ n_cluster → n_cluster < 2 →
      WeighsChosen 32767 (fun _ => 0) [(⟨![3]⟩ : CPoint 1), ⟨![4]⟩] 2 n_cluster) ↔
        2 = 1 ∨ FirstNearer (fun _ => 0) [(⟨![3]⟩ : CPoint 1), ⟨![4]⟩]) :=
  weighs_chosen_iff (by simp) (by omega) 32767 (fun _ => 0)

end Weighs

/-! ## The upper end of the random range -/

/-- The selection loop of step `n_cluster` is left by `break`. -/
def Finds (RAND_MAX : Nat) (rand : Nat → Nat) (vpnts : List (CPoint N)) (n_cent n_cluster : Nat) :
    Prop :=
  ∃ old centers dist2 sum,
    kmeansPP.before RAND_MAX rand vpnts n_cent [] n_cluster = some (old, centers) ∧
    kmeansPP.weigh vpnts centers old = some (dist2, sum) ∧
    breaks (kmeansPP.selectTurn vpnts dist2 n_cluster) vpnts.length 0
      (randf RAND_MAX (rand n_cluster) sum, centers) = some true

/-- `rand()` does not return `RAND_MAX` in step `n_cluster`, or every point is in the vector of
    centers, so that all weights are zero. -/
def Reached (RAND_MAX : Nat) (rand : Nat → Nat) (vpnts : List (CPoint N)) (n_cent n_cluster : Nat) :
    Prop :=
  rand n_cluster < RAND_MAX ∨ ∀ old centers,
    kmeansPP.before RAND_MAX rand vpnts n_cent [] n_cluster = some (old, centers) →
      ∀ pnt ∈ vpnts, pnt ∈ centers

section Found

variable {RAND_MAX : Nat} {rand : Nat → Nat} {vpnts : List (CPoint N)} {n_cent : Nat}
  (some_point : vpnts ≠ []) (some_cluster : 1 ≤ n_cent)

include some_point some_cluster

theorem finds_succ {m : Nat} (inside : m + 1 < n_cent) :
    Finds RAND_MAX rand vpnts n_cent (m + 1) ↔ (seedFor RAND_MAX (rand (m + 1)) vpnts
      (seeding RAND_MAX rand vpnts (zeros n_cent) m)).isSome = true := by
  have some_center := seeding_ne_nil RAND_MAX rand vpnts some_cluster m
  obtain ⟨old, sized, run⟩ := before_fresh RAND_MAX rand some_point some_cluster
    (m.lt_succ_self.trans inside)
  have weighed := weigh_eq some_center sized
  have room : m + 1 < (seeding RAND_MAX rand vpnts (zeros n_cent) m).length := by
    rwa [length_seeding, List.length_replicate]
  have left := (@select_eq N vpnts _ _ room RAND_MAX (rand (m + 1))).2
  constructor
  · intro finds
    obtain ⟨old', centers', dist2, sum, run', weighed', found⟩ := finds
    cases run.symm.trans run'
    cases weighed.symm.trans weighed'
    exact Option.some.inj (left.symm.trans found)
  · intro selected
    exact ⟨old, _, _, _, run, weighed, by rw [left, selected]⟩

theorem reached_succ (large : 1 < RAND_MAX) {m : Nat} (inside : m + 1 < n_cent) :
    Reached RAND_MAX rand vpnts n_cent (m + 1) ↔ (seedFor RAND_MAX (rand (m + 1)) vpnts
      (seeding RAND_MAX rand vpnts (zeros n_cent) m)).isSome = true := by
  have some_center := seeding_ne_nil RAND_MAX rand vpnts some_cluster m
  obtain ⟨old, _, run⟩ := before_fresh RAND_MAX rand some_point some_cluster
    (m.lt_succ_self.trans inside)
  have missed := seedFor_eq_none (r := rand (m + 1)) some_center large some_point
  rw [← Option.not_isSome_iff_eq_none] at missed
  rw [← not_iff_not, missed, Reached, run, not_or, not_lt]
  apply and_congr_right
  intro _
  rw [not_iff_not]
  constructor
  · intro all
    exact all _ _ rfl
  · intro all old' centers' same
    cases same
    exact all

omit some_point some_cluster in
theorem stored_mem (RAND_MAX r : Nat) (centers : List (CPoint N)) :
    (seedFor RAND_MAX r vpnts centers).getD 0 ∈ vpnts ↔
      0 ∈ vpnts ∨ (seedFor RAND_MAX r vpnts centers).isSome = true := by
  cases selected : seedFor RAND_MAX r vpnts centers with
  | none => simp
  | some pnt => simp [seedFor_mem selected]

/-- A center that is no point of the input is a zero vector left by a step that found none. -/
theorem seeding_points (large : 1 < RAND_MAX) {centers : List (CPoint N)}
    (seeded : centers = seeding RAND_MAX rand vpnts (zeros n_cent) (n_cent - 1)) :
    (∀ c ∈ centers, c ∈ vpnts) ↔ 0 ∈ vpnts ∨
      ∀ m, m + 1 < n_cent → Reached RAND_MAX rand vpnts n_cent (m + 1) := by
  have later : (∀ c ∈ centers, c ∈ vpnts) ↔ ∀ m, m + 1 < n_cent →
      (seedFor RAND_MAX (rand (m + 1)) vpnts
        (seeding RAND_MAX rand vpnts (zeros n_cent) m)).getD 0 ∈ vpnts := by
    subst seeded
    constructor
    · intro points m inside
      apply points _ (List.mem_of_getElem? (seeding_cell inside _))
      omega
    · intro stored c member
      obtain ⟨i, cell⟩ := List.getElem?_of_mem member
      have inside := (List.getElem?_eq_some_iff.mp cell).1
      rw [length_seeding, List.length_replicate] at inside
      cases i with
      | zero =>
          obtain ⟨first, drawn⟩ := drawn_point rand some_point
          rw [seeding_first some_cluster drawn, Option.some.injEq] at cell
          exact cell ▸ List.mem_of_getElem? drawn
      | succ m =>
          rw [seeding_cell inside (by omega), Option.some.injEq] at cell
          exact cell ▸ stored m inside
  rw [later]
  simp only [stored_mem]
  by_cases zero : 0 ∈ vpnts
  · simp [zero]
  · simp only [zero, false_or]
    apply forall_congr'
    intro m
    apply imp_congr_right
    intro inside
    exact (reached_succ some_point some_cluster large inside).symm

/-- The selection loop finds a point in every step exactly if no step draws `RAND_MAX` while a
    point is missing from the vector of centers. That is also when all centers are points, unless
    the zero vector that a miss leaves behind is a point itself. -/
theorem selection_finds_iff (large : 32767 ≤ RAND_MAX) (rand : Nat → Nat) :
    ((∀ m, 1 ≤ m → m < n_cent → Finds RAND_MAX rand vpnts n_cent m) ↔
      ∀ m, 1 ≤ m → m < n_cent → Reached RAND_MAX rand vpnts n_cent m) ∧
    ∃ centers, BySteps RAND_MAX rand vpnts n_cent centers ∧
      ((∀ c ∈ centers, c ∈ vpnts) ↔ 0 ∈ vpnts ∨
        ∀ m, 1 ≤ m → m < n_cent → Reached RAND_MAX rand vpnts n_cent m) := by
  have steps : ∀ P : Nat → Prop, (∀ m, 1 ≤ m → m < n_cent → P m) ↔
      ∀ m, m + 1 < n_cent → P (m + 1) := by
    intro P
    constructor
    · exact fun all m inside => all (m + 1) (by omega) inside
    · intro all m low high
      obtain ⟨l, rfl⟩ := Nat.exists_eq_add_of_le' low
      exact all l high
  simp only [steps]
  constructor
  · apply forall_congr'
    intro m
    apply imp_congr_right
    intro inside
    rw [finds_succ some_point some_cluster inside,
      reached_succ some_point some_cluster (by omega) inside]
  · exact ⟨_, bySteps some_point some_cluster,
      seeding_points some_point some_cluster (by omega) rfl⟩

omit some_point some_cluster in
/-- Points 1 and 3, the first center 1; `rand()` then returns `RAND_MAX`, and the second center
    stays the zero vector. -/
theorem greatest_draw_misses : ¬ ∀ (N RAND_MAX : Nat) (rand : Nat → Nat) (vpnts : List (CPoint N))
    (n_cent : Nat) (centers : List (CPoint N)), vpnts ≠ [] → vpnts.length < 2 ^ 32 → 1 ≤ n_cent →
    32767 ≤ RAND_MAX → (∀ n, rand n ≤ RAND_MAX) → BySteps RAND_MAX rand vpnts n_cent centers →
    ∀ c ∈ centers, c ∈ vpnts := by
  intro claim
  have points := claim 1 32767 (fun n => if n = 1 then 32767 else 0) [⟨![1]⟩, ⟨![3]⟩] 2 _ (by simp)
    (by simp) (by omega) le_rfl (fun n => by split <;> omega) (bySteps (by simp) (by omega))
  revert points
  decide +kernel

omit some_point some_cluster in
theorem selection_finds_iff_on_two_points :
    ((∀ m, 1 ≤ m → m < 2 → Finds 32767 (fun _ => 5) [(⟨![1]⟩ : CPoint 1), ⟨![3]⟩] 2 m) ↔
      ∀ m, 1 ≤ m → m < 2 → Reached 32767 (fun _ => 5) [(⟨![1]⟩ : CPoint 1), ⟨![3]⟩] 2 m) ∧
    ∃ centers, BySteps 32767 (fun _ => 5) [(⟨![1]⟩ : CPoint 1), ⟨![3]⟩] 2 centers ∧
      ((∀ c ∈ centers, c ∈ [(⟨![1]⟩ : CPoint 1), ⟨![3]⟩]) ↔ 0 ∈ [(⟨![1]⟩ : CPoint 1), ⟨![3]⟩] ∨
        ∀ m, 1 ≤ m → m < 2 → Reached 32767 (fun _ => 5) [(⟨![1]⟩ : CPoint 1), ⟨![3]⟩] 2 m) :=
  selection_finds_iff (by simp) (by omega) le_rfl (fun _ => 5)

end Found

/-! ## Coinciding centers -/

/-- What step `n_cluster` is about to store is not among the centers chosen so far: at the lower
    end of the random range, or where every point is in the vector already, that is the first
    point of the list; at the upper end it is the zero vector. -/
def StoresNew (RAND_MAX : Nat) (rand : Nat → Nat) (vpnts : List (CPoint N))
    (n_cent n_cluster : Nat) : Prop :=
  ∀ old centers, kmeansPP.before RAND_MAX rand vpnts n_cent [] n_cluster = some (old, centers) →
    if rand n_cluster = 0 ∨ ∀ pnt ∈ vpnts, pnt ∈ centers then
      ∀ pnt, vpnts[0]? = some pnt → pnt ∉ centers.take n_cluster
    else RAND_MAX ≤ rand n_cluster → 0 ∉ centers.take n_cluster

/-- A list without duplicates, read from the front. -/
theorem nodup_iff_new {xs : List α} :
    xs.Nodup ↔ ∀ m x, xs[m]? = some x → x ∉ xs.take m := by
  rw [List.nodup_iff_getElem?_ne_getElem?]
  constructor
  · intro apart m x here earlier
    obtain ⟨i, there⟩ := List.getElem?_of_mem earlier
    have low := (List.getElem?_eq_some_iff.mp there).1
    rw [List.length_take] at low
    rw [List.getElem?_take_of_lt (by omega)] at there
    exact apart i m (by omega) (List.getElem?_eq_some_iff.mp here).1 (there.trans here.symm)
  · intro new i j lt inside same
    have here : xs[j]? = some xs[j] := List.getElem?_eq_getElem inside
    apply new j _ here
    apply List.mem_of_getElem? (i := i)
    rw [List.getElem?_take_of_lt lt, same, here]

section Distinct

variable {RAND_MAX : Nat} {rand : Nat → Nat} {vpnts : List (CPoint N)} {n_cent : Nat}
  (some_point : vpnts ≠ []) (some_cluster : 1 ≤ n_cent)

include some_point some_cluster

omit some_point some_cluster in
theorem storesNew_of_before {n_cluster : Nat} {old : List ℚ} {centers : List (CPoint N)}
    (run : kmeansPP.before RAND_MAX rand vpnts n_cent [] n_cluster = some (old, centers)) :
    StoresNew RAND_MAX rand vpnts n_cent n_cluster ↔
      if rand n_cluster = 0 ∨ ∀ pnt ∈ vpnts, pnt ∈ centers then
        ∀ pnt, vpnts[0]? = some pnt → pnt ∉ centers.take n_cluster
      else RAND_MAX ≤ rand n_cluster → 0 ∉ centers.take n_cluster := by
  unfold StoresNew
  rw [run]
  constructor
  · exact fun all => all old centers rfl
  · intro holds old' centers' same
    cases same
    exact holds

theorem storesNew_succ (large : 1 < RAND_MAX) {m : Nat} (inside : m + 1 < n_cent) :
    StoresNew RAND_MAX rand vpnts n_cent (m + 1) ↔
      (seedFor RAND_MAX (rand (m + 1)) vpnts
        (seeding RAND_MAX rand vpnts (zeros n_cent) m)).getD 0 ∉
      (seeding RAND_MAX rand vpnts (zeros n_cent) m).take (m + 1) := by
  have some_center := seeding_ne_nil RAND_MAX rand vpnts some_cluster m
  obtain ⟨old, _, run⟩ := before_fresh RAND_MAX rand some_point some_cluster
    (m.lt_succ_self.trans inside)
  generalize seeding RAND_MAX rand vpnts (zeros n_cent) m = centers at *
  rw [storesNew_of_before run]
  split
  case isTrue first =>
    rw [seedFor_first some_center some_point first]
    obtain ⟨pnt, rest, rfl⟩ := List.exists_cons_of_ne_nil some_point
    simp
  case isFalse neither =>
    rw [not_or] at neither
    have missed := seedFor_eq_none (r := rand (m + 1)) some_center large some_point
    cases selected : seedFor RAND_MAX (rand (m + 1)) vpnts centers with
    | none =>
        have top := (missed.mp selected).1
        simp [top]
    | some pnt =>
        have new := seedFor_new some_center large (Nat.pos_of_ne_zero neither.1) neither.2 selected
        have below : ¬ RAND_MAX ≤ rand (m + 1) := by
          intro top
          rw [missed.mpr ⟨top, neither.2⟩] at selected
          cases selected
        simp only [below, false_implies, Option.getD_some, true_iff]
        exact fun member => new (List.mem_of_mem_take member)

/-- The centers are distinct exactly if every step stores a vector that is not among those chosen
    before it. -/
theorem distinct_centers_iff (large : 32767 ≤ RAND_MAX) (rand : Nat → Nat) :
    ∃ centers, BySteps RAND_MAX rand vpnts n_cent centers ∧ centers.length = n_cent ∧
      (centers.Nodup ↔ ∀ m, 1 ≤ m → m < n_cent → StoresNew RAND_MAX rand vpnts n_cent m) := by
  have length : (seeding RAND_MAX rand vpnts (zeros n_cent) (n_cent - 1)).length = n_cent := by
    rw [length_seeding, List.length_replicate]
  refine ⟨_, bySteps some_point some_cluster, length, nodup_iff_new.trans ?_⟩
  constructor
  · intro new m low high
    obtain ⟨l, rfl⟩ := Nat.exists_eq_add_of_le' low
    rw [storesNew_succ some_point some_cluster (by omega) high,
      ← take_seeding (by omega : l ≤ n_cent - 1)]
    exact new (l + 1) _ (seeding_cell high (by omega))
  · intro new m x cell
    cases m with
    | zero => simp
    | succ m =>
        have inside := (List.getElem?_eq_some_iff.mp cell).1
        rw [length] at inside
        rw [seeding_cell inside (by omega), Option.some.injEq] at cell
        rw [take_seeding (by omega : m ≤ n_cent - 1), ← cell,
          ← storesNew_succ some_point some_cluster (by omega) inside]
        exact new (m + 1) (by omega) inside

omit some_point some_cluster in
/-- Points 1 and 2, every result of `rand()` zero: both centers are the point 1. -/
theorem least_draw_repeats : ¬ ∀ (N RAND_MAX : Nat) (rand : Nat → Nat) (vpnts : List (CPoint N))
    (n_cent : Nat) (centers : List (CPoint N)), vpnts.length < 2 ^ 32 → 1 ≤ n_cent →
    n_cent ≤ vpnts.toFinset.card → 32767 ≤ RAND_MAX → (∀ n, rand n ≤ RAND_MAX) →
    BySteps RAND_MAX rand vpnts n_cent centers → centers.Nodup := by
  intro claim
  have distinct := claim 1 32767 (fun _ => 0) [⟨![1]⟩, ⟨![2]⟩] 2 _ (by simp) (by omega)
    (by decide +kernel) le_rfl (by simp) (bySteps (by simp) (by omega))
  revert distinct
  decide +kernel

omit some_point some_cluster in
theorem distinct_centers_iff_on_two_points : ∃ centers,
    BySteps 32767 (fun _ => 5) [(⟨![1]⟩ : CPoint 1), ⟨![3]⟩] 2 centers ∧ centers.length = 2 ∧
      (centers.Nodup ↔ ∀ m, 1 ≤ m → m < 2 →
        StoresNew 32767 (fun _ => 5) [(⟨![1]⟩ : CPoint 1), ⟨![3]⟩] 2 m) :=
  distinct_centers_iff (by simp) (by omega) le_rfl (fun _ => 5)

end Distinct

end KMeans
