import KMeans.Agreement
import KMeans.Rosetta.Seeds

/-! # What `kpp` and `lloyd` return

The groups that the points come with are never read, whatever memory they are in. Where no
center is lost the C program and the multithreaded class compute the same clustering.
-/

namespace KMeans.Rosetta

open Loops Arrays Lloyd

variable {n k : Nat} {x : Fin n → CPoint 2} {RAND_MAX : Nat} {rand : Nat → Nat}

/-! ## Seeding -/

/-- `kpp` chooses one center more exactly if the draw is below `RAND_MAX` or the points are
    all among the centers chosen. -/
theorem kpp_defined_iff (large : 1 < RAND_MAX) (some_point : 0 < n) (x : Fin n → CPoint 2)
    (g : Fin n → Int) (rand : Nat → Nat) :
    (kpp RAND_MAX rand (table x g) [none] 1).isSome ∧ ∀ k, 1 ≤ k →
      ((kpp RAND_MAX rand (table x g) (List.replicate (k + 1) none) (k + 1)).isSome ↔
        ∃ pts cent, kpp RAND_MAX rand (table x g) (List.replicate k none) k = some (pts, cent) ∧
          (rand k < RAND_MAX ∨
            ∀ i, ∃ j < k, ∃ h, load cent (j : Nat) = some (asPoint (some (x i)) h))) := by
  have some_points : List.ofFn x ≠ [] := by
    rw [Ne, List.ofFn_eq_nil_iff]
    exact some_point.ne'
  constructor
  · obtain ⟨first, drawn⟩ := drawn_point rand some_points
    have defined := @isSome_kpp n x g RAND_MAX rand some_point 0
    rw [seeds, drawn] at defined
    exact defined
  · intro k some_cluster
    obtain ⟨m, rfl⟩ := Nat.exists_eq_add_of_le' some_cluster
    rw [isSome_kpp some_point (m + 1)]
    cases chosen : seeds RAND_MAX rand (List.ofFn x) m with
    | none =>
        rw [kpp_of_stuck some_point chosen, seeds, chosen]
        simp
    | some s =>
        obtain ⟨c, cent, rfl, run, _, held⟩ := @kpp_of_seeds n x g RAND_MAX rand some_point m s chosen
        rw [isSome_seeds_succ large some_points chosen, ← held_all held, run]
        constructor
        · intro either
          exact ⟨_, _, rfl, either⟩
        · intro given
          obtain ⟨_, _, same, either⟩ := given
          cases same
          exact either

/-- Two points and a draw of `RAND_MAX`: there is no second center. -/
theorem kpp_defined_iff_on_two_points :
    (kpp 32767 (fun _ => 32767) (table ![⟨![0, 0]⟩, ⟨![3, 4]⟩] fun _ => 7) [none] 1).isSome ∧
    ∀ k, 1 ≤ k → ((kpp 32767 (fun _ => 32767) (table ![⟨![0, 0]⟩, ⟨![3, 4]⟩] fun _ => 7)
        (List.replicate (k + 1) none) (k + 1)).isSome ↔
      ∃ pts cent, kpp 32767 (fun _ => 32767) (table ![⟨![0, 0]⟩, ⟨![3, 4]⟩] fun _ => 7)
          (List.replicate k none) k = some (pts, cent) ∧
        (32767 < 32767 ∨ ∀ i : Fin 2, ∃ j < k, ∃ h,
          load cent (j : Nat) = some (asPoint (some (![⟨![0, 0]⟩, ⟨![3, 4]⟩] i)) h))) :=
  kpp_defined_iff (by decide) (by decide) _ _ _

/-- What `kpp` returns: the centers are points, each one new where that is possible and the draw
    is not zero, and each point is in the group of the first center nearest to it. -/
theorem kpp_seeds (large : 1 < RAND_MAX) (some_point : 0 < n) (some_cluster : 1 ≤ k)
    {g : Fin n → Int} {pts : List point_t} {cent : Cells point_t}
    (run : kpp RAND_MAX rand (table x g) (List.replicate k none) k = some (pts, cent)) :
    ∃ c : Fin k → CPoint 2,
      (∀ j, ∃ h, load cent (j.val : Nat) = some (asPoint (some (c j)) h)) ∧
      (∀ j, c j ∈ Set.range x) ∧
      (∀ m j, j < m → c j = c m → rand m = 0 ∨ ∀ i, ∃ l < m, c l = x i) ∧
      pts.length = n ∧ ∀ i : Fin n, ∃ a : Fin k, pts[i.val]? = some (asPoint (some (x i)) a) ∧
        (∀ l, CPoint.normSq (c a - x i) ≤ CPoint.normSq (c l - x i)) ∧
        ∀ l < a, CPoint.normSq (c a - x i) < CPoint.normSq (c l - x i) := by
  obtain ⟨m, rfl⟩ := Nat.exists_eq_add_of_le' some_cluster
  cases chosen : seeds RAND_MAX rand (List.ofFn x) m with
  | none =>
      rw [kpp_of_stuck some_point chosen] at run
      cases run
  | some s =>
      obtain ⟨c, cent', rfl, run', _, held⟩ := @kpp_of_seeds n x g RAND_MAX rand some_point m s chosen
      cases run'.symm.trans run
      refine ⟨c, held, ?_, ?_, by simp [table], ?_⟩
      · intro j
        have member := seeds_points chosen (c j) (List.mem_ofFn.mpr ⟨j, rfl⟩)
        exact List.mem_ofFn.mp member
      · intro l j before same
        have inside : l.val < (List.ofFn c).length := by
          rw [List.length_ofFn]
          exact l.isLt
        have again := seeds_new large chosen inside before (by
          rw [List.getElem_ofFn, List.getElem_ofFn]
          exact same)
        apply again.imp_right
        intro all i
        have there := all (x i) (List.mem_ofFn.mpr ⟨i, rfl⟩)
        obtain ⟨o, low, cell⟩ := List.mem_take_iff_getElem.mp there
        rw [List.getElem_ofFn] at cell
        exact ⟨⟨o, _⟩, (Nat.lt_min.mp low).1, cell⟩
      · intro i
        refine ⟨assign CPoint.normSq x c i, read_table x _ i, ?_, ?_⟩
        · exact nearest_le CPoint.normSq c (x i)
        · exact fun l earlier => nearest_lt CPoint.normSq earlier

/-- Of the points (0, 0) and (3, 4) the second is drawn, and then the first. -/
theorem kpp_seeds_on_two_points : ∃ c : Fin 2 → CPoint 2,
    kpp 32767 (fun _ => 5) (table ![⟨![0, 0]⟩, ⟨![3, 4]⟩] fun _ => 7) (List.replicate 2 none) 2 =
      some ([⟨some 0, some 0, 1⟩, ⟨some 3, some 4, 0⟩],
        [some ⟨some 3, some 4, 7⟩, some ⟨some 0, some 0, 7⟩]) ∧
    (∀ j, c j ∈ Set.range ![⟨![0, 0]⟩, ⟨![3, 4]⟩]) ∧
    ∀ m j, j < m → c j = c m → 5 = 0 ∨ ∀ i, ∃ l < m, c l = ![⟨![0, 0]⟩, ⟨![3, 4]⟩] i := by
  have run : kpp 32767 (fun _ => 5) (table ![⟨![0, 0]⟩, ⟨![3, 4]⟩] fun _ => 7)
      (List.replicate 2 none) 2 = some ([⟨some 0, some 0, 1⟩, ⟨some 3, some 4, 0⟩],
        [some ⟨some 3, some 4, 7⟩, some ⟨some 0, some 0, 7⟩]) := by decide +kernel
  obtain ⟨c, _, points, new, _⟩ := kpp_seeds (by decide) (by decide) (by decide) run
  exact ⟨c, run, points, new⟩

/-- Both programs choose the same seeds from the same draws, as long as no point is nearer to
    the zero vector than to the first seed and no draw is `RAND_MAX`. -/
theorem kpp_agrees (large : 1 < RAND_MAX) (some_point : 0 < n) (some_cluster : 1 ≤ k)
    (nearer : FirstNearer rand (List.ofFn x)) (below : ∀ m, 1 ≤ m → m < k → rand m < RAND_MAX)
    (g : Fin n → Int) :
    ∃ (c : Fin k → CPoint 2) (pts : List point_t) (cent : Cells point_t),
      kmeansPP RAND_MAX rand (List.ofFn x) k [] = some (List.ofFn c) ∧
      kpp RAND_MAX rand (table x g) (List.replicate k none) k = some (pts, cent) ∧
      ∀ j, ∃ h, load cent (j.val : Nat) = some (asPoint (some (c j)) h) := by
  obtain ⟨m, rfl⟩ := Nat.exists_eq_add_of_le' some_cluster
  have some_points : List.ofFn x ≠ [] := by
    rw [Ne, List.ofFn_eq_nil_iff]
    exact some_point.ne'
  have chosen := seeds_eq_seeding large some_points some_cluster nearer below m.lt_succ_self
  have length : (seeding RAND_MAX rand (List.ofFn x) (zeros (m + 1)) m).length = m + 1 := by
    rw [length_seeding, List.length_replicate]
  rw [List.take_of_length_le length.le] at chosen
  obtain ⟨c, cent, same, run, _, held⟩ := @kpp_of_seeds n x g RAND_MAX rand some_point m _ chosen
  refine ⟨c, _, cent, ?_, run, held⟩
  rw [kmeansPP_eq some_points some_cluster, grow_nil, Nat.add_sub_cancel, same]

theorem kpp_agrees_on_two_points :
    ∃ (c : Fin 2 → CPoint 2) (pts : List point_t) (cent : Cells point_t),
      kmeansPP 32767 (fun _ => 5) (List.ofFn ![⟨![3, 4]⟩, ⟨![3, 5]⟩]) 2 [] = some (List.ofFn c) ∧
      kpp 32767 (fun _ => 5) (table ![⟨![3, 4]⟩, ⟨![3, 5]⟩] fun _ => 7) (List.replicate 2 none) 2 =
        some (pts, cent) ∧
      ∀ j, ∃ h, load cent (j.val : Nat) = some (asPoint (some (c j)) h) := by
  have nearer : FirstNearer (fun _ => 5) (List.ofFn ![(⟨![3, 4]⟩ : CPoint 2), ⟨![3, 5]⟩]) := by
    intro first drawn
    have second : first = ⟨![3, 5]⟩ := (Option.some.inj drawn).symm
    subst second
    decide +kernel
  exact kpp_agrees (by decide) (by decide) (by decide) nearer (fun _ _ _ => by decide) fun _ => 7

/-! ## Clustering -/

/-- The centers that `lloyd` returns for the groups `a`. -/
def labelled (x : Fin n → CPoint 2) (a : Fin n → Fin k) : Cells point_t :=
  List.ofFn fun j => some (asPoint (means ℚ x a j) ((j : Nat) : Int))

theorem label_eq (x : Fin n → CPoint 2) (a : Fin n → Fin k) :
    forLoop 0 k (centersOf x a) (fun i cent => do
      let c ← load cent i
      store cent i { c with group := i }) = some (labelled x a) := by
  apply forLoop_store _ (fun (j : Fin k) (c : Option point_t) =>
      (⟨c.bind fun c => c.x, c.bind fun c => c.y, ((j : Nat) : Int)⟩ : point_t))
    (fun j => some (asPoint (means ℚ x a j) ((members a j).card : Nat)))
  · intro c i full
    obtain ⟨v, here⟩ := Option.isSome_iff_exists.mp full
    simp only [load_ofFn, here, Option.bind_eq_bind, Option.bind_some]
  · exact fun _ => rfl

/-- `lloyd` from the seeds `c`. -/
theorem lloyd_eq_some [NeZero k] {g : Fin n → Int} {c : Fin k → CPoint 2} {cent : Cells point_t}
    (seeded : kpp RAND_MAX rand (table x g) (List.replicate k none) k =
      some (table x (stored (assign CPoint.normSq x c)), cent)) (sized : cent.length = k)
    (fuel : Nat) (r : List point_t × Cells point_t) :
    lloyd fuel RAND_MAX rand (table x g) k = some r ↔
      ∃ m ≤ fuel, SettlesAt CPoint.normSq x (assign CPoint.normSq x c) (n / 1024) m ∧
        r = (table x (stored (groups CPoint.normSq x (assign CPoint.normSq x c) (m + 1))),
          labelled x (groups CPoint.normSq x (assign CPoint.normSq x c) m)) := by
  simp only [lloyd, seeded, Option.bind_eq_bind, Option.bind_some, Option.bind_eq_some_iff,
    loop_eq_some x (assign CPoint.normSq x c) sized]
  constructor
  · intro run
    obtain ⟨s, ⟨m, le, settles, rfl⟩, labels, label, last⟩ := run
    have same := (label_eq x (groups CPoint.normSq x (assign CPoint.normSq x c) m)).symm.trans label
    cases same
    cases last
    exact ⟨m, le, settles, rfl⟩
  · intro settles
    obtain ⟨m, le, settles, rfl⟩ := settles
    exact ⟨_, ⟨m, le, settles, rfl⟩, _, label_eq x _, rfl⟩

/-- `lloyd` returns as soon as `kpp` does. Each center is the mean of a group, or NaN for a group
    without points; each point is in the first group whose center is nearest to it; and at most
    one point in 1024 was in another group when the centers were computed. -/
theorem lloyd_clusters (some_point : 0 < n) (some_cluster : 1 ≤ k) {g : Fin n → Int}
    (defined : (kpp RAND_MAX rand (table x g) (List.replicate k none) k).isSome) :
    ∃ a b : Fin n → Fin k,
      (∀ fuel ≥ k ^ n, lloyd fuel RAND_MAX rand (table x g) k =
        some (table x (stored b), labelled x a)) ∧
      (∀ i, ∃ q, means ℚ x a (b i) = some q ∧ ∀ j r, means ℚ x a j = some r →
        CPoint.normSq (q - x i) ≤ CPoint.normSq (r - x i) ∧
          (j < b i → CPoint.normSq (q - x i) < CPoint.normSq (r - x i))) ∧
      (Finset.univ.filter fun i => b i ≠ a i).card ≤ n / 1024 := by
  obtain ⟨m, rfl⟩ := Nat.exists_eq_add_of_le' some_cluster
  rw [isSome_kpp some_point m] at defined
  obtain ⟨s, chosen⟩ := Option.isSome_iff_exists.mp defined
  obtain ⟨c, cent, rfl, seeded, sized, _⟩ := @kpp_of_seeds n x g RAND_MAX rand some_point m s chosen
  obtain ⟨l, low, settles⟩ := exists_settlesAt x (assign CPoint.normSq x c) CPoint.normSq_posDef
    (n / 1024)
  rw [Fintype.card_fin, Fintype.card_fin] at low
  refine ⟨groups CPoint.normSq x (assign CPoint.normSq x c) l,
    groups CPoint.normSq x (assign CPoint.normSq x c) (l + 1), ?_, ?_, ?_⟩
  · intro fuel enough
    exact (lloyd_eq_some seeded sized fuel _).mpr ⟨l, low.le.trans enough, settles, rfl⟩
  · intro i
    rw [groups_succ]
    have inhabited := regroup_inhabited CPoint.normSq x
      (groups CPoint.normSq x (assign CPoint.normSq x c) l) i
    refine ⟨_, if_pos inhabited, ?_⟩
    intro j r center
    have own : (members (groups CPoint.normSq x (assign CPoint.normSq x c) l) j).Nonempty := by
      by_contra absent
      rw [means, if_neg absent] at center
      cases center
    rw [means, if_pos own, Option.some.injEq] at center
    subst center
    refine ⟨regroup_le CPoint.normSq x _ i own, ?_⟩
    intro earlier
    by_contra tie
    have least := regroup_le CPoint.normSq x
      (groups CPoint.normSq x (assign CPoint.normSq x c) l) i own
    have first := regroup_first CPoint.normSq x _ i own (le_antisymm (not_lt.mp tie) least)
    exact absurd earlier (not_lt.mpr first)
  · rw [groups_succ]
    exact settles.1

/-- Three points of which two are the same. -/
theorem lloyd_clusters_on_three_points : ∃ a b : Fin 3 → Fin 2,
    (∀ fuel ≥ 2 ^ 3, lloyd fuel 32767 (fun _ => 5)
        (table ![⟨![0, 0]⟩, ⟨![3, 4]⟩, ⟨![0, 0]⟩] fun _ => 7) 2 =
      some (table ![⟨![0, 0]⟩, ⟨![3, 4]⟩, ⟨![0, 0]⟩] (stored b),
        labelled ![⟨![0, 0]⟩, ⟨![3, 4]⟩, ⟨![0, 0]⟩] a)) ∧
    (Finset.univ.filter fun i => b i ≠ a i).card ≤ 0 := by
  obtain ⟨a, b, returns, _, moved⟩ := @lloyd_clusters 3 2 ![⟨![0, 0]⟩, ⟨![3, 4]⟩, ⟨![0, 0]⟩] 32767
    (fun _ => 5) (by decide) (by decide) (fun _ => 7) (by decide +kernel)
  exact ⟨a, b, returns, moved⟩

/-- The groups that the points come with do not matter. -/
theorem lloyd_ignores_groups (fuel RAND_MAX : Nat) (rand : Nat → Nat) (x : Fin n → CPoint 2)
    (g h : Fin n → Int) (k : Nat) :
    lloyd fuel RAND_MAX rand (table x g) k = lloyd fuel RAND_MAX rand (table x h) k := by
  cases k with
  | zero =>
      have fails : ∀ g, kpp RAND_MAX rand (table x g) (List.replicate 0 none) 0 = none := by
        intro g
        unfold kpp
        cases (table x g)[rand 0 % (table x g).length]? with
        | none => rfl
        | some p => rfl
      simp only [lloyd, fails, Option.bind_eq_bind, Option.bind_none]
  | succ m =>
      rcases Nat.eq_zero_or_pos n with rfl | some_point
      · have same : table x g = table x h := rfl
        rw [same]
      · cases chosen : seeds RAND_MAX rand (List.ofFn x) m with
        | none =>
            simp only [lloyd, kpp_of_stuck some_point chosen, Option.bind_eq_bind, Option.bind_none]
        | some s =>
            obtain ⟨c, _, rfl, run, sized, _⟩ :=
              @kpp_of_seeds n x g RAND_MAX rand some_point m s chosen
            obtain ⟨d, _, again, run', sized', _⟩ :=
              @kpp_of_seeds n x h RAND_MAX rand some_point m _ chosen
            cases List.ofFn_injective again
            apply Option.ext
            intro r
            rw [lloyd_eq_some run sized, lloyd_eq_some run' sized']

/-! ## Lost centers -/

/-- The state of the loop of `lloyd` after some turns. -/
theorem turns_pass [NeZero k] (a : Fin n → Fin k) {cent : Cells point_t} (sized : cent.length = k)
    (changed m : Nat) :
    turns (lloyd.pass k) (m + 1) ⟨table x (stored a), cent, changed⟩ = some (trace x a m) := by
  induction m with
  | zero =>
      rw [turns, turns, Option.bind_some]
      exact pass_eq x a sized changed
  | succ m ih =>
      have length : (centersOf x (groups CPoint.normSq x a m)).length = k := by simp [centersOf]
      rw [turns, ih, Option.bind_some, trace, pass_eq x _ length, ← groups_succ, trace]

/-- The points with their groups, after some turns. -/
theorem pts_of_turns [NeZero k] {a : Fin n → Fin k} {cent : Cells point_t}
    (sized : cent.length = k) {changed m : Nat} {s : LoopState}
    (run : turns (lloyd.pass k) m ⟨table x (stored a), cent, changed⟩ = some s) :
    s.pts = table x (stored (groups CPoint.normSq x a m)) := by
  cases m with
  | zero =>
      cases run
      rfl
  | succ m =>
      rw [turns_pass a sized] at run
      cases run
      rfl

theorem group_free (x : Fin n → CPoint 2) (a : Fin n → Fin k) (j : Fin k) :
    (∀ p ∈ table x (stored a), p.group ≠ j) ↔ ¬ (members a j).Nonempty := by
  constructor
  · intro free some_member
    obtain ⟨i, member⟩ := some_member
    have there : asPoint (some (x i)) (stored a i) ∈ table x (stored a) :=
      List.mem_ofFn.mpr ⟨i, rfl⟩
    apply free _ there
    rw [asPoint_group, stored, mem_members.mp member]
  · intro absent p there
    obtain ⟨i, rfl⟩ := List.mem_ofFn.mp there
    rw [asPoint_group]
    intro same
    exact absent ⟨i, mem_members.mpr (Fin.ext (Int.natCast_inj.mp same))⟩

/-- A turn makes a center NaN exactly if its group has no points, and then neither this turn
    nor a later one gives the group a point or the center a value. -/
theorem lost_for_good [NeZero k] {a : Fin n → Fin k} {cent : Cells point_t}
    (sized : cent.length = k) {changed m l : Nat} (le : m ≤ l) {s t u : LoopState}
    (before : turns (lloyd.pass k) m ⟨table x (stored a), cent, changed⟩ = some s)
    (next : lloyd.pass k s = some t)
    (after : turns (lloyd.pass k) (l + 1) ⟨table x (stored a), cent, changed⟩ = some u) (j : Fin k) :
    ((∃ h, load t.cent (j.val : Nat) = some ⟨none, none, h⟩) ↔ ∀ p ∈ s.pts, p.group ≠ j) ∧
    ((∀ p ∈ s.pts, p.group ≠ j) → (∀ p ∈ u.pts, p.group ≠ j) ∧
      ∃ h, load u.cent (j.val : Nat) = some ⟨none, none, h⟩) := by
  have now : turns (lloyd.pass k) (m + 1) ⟨table x (stored a), cent, changed⟩ = some t := by
    rw [turns, before]
    exact next
  rw [turns_pass a sized] at now after
  rw [pts_of_turns sized before, group_free]
  cases now
  cases after
  have lost : ∀ i, (∃ h, load (trace x a i).cent (j.val : Nat) = some ⟨none, none, h⟩) ↔
      ¬ (members (groups CPoint.normSq x a i) j).Nonempty := by
    intro i
    have cell : load (trace x a i).cent (j.val : Nat) = some (asPoint (means ℚ x
        (groups CPoint.normSq x a i) j) ((members (groups CPoint.normSq x a i) j).card : Nat)) :=
      load_ofFn _ j
    rw [cell, means]
    split
    case isTrue inhabited => simp [inhabited, asPoint]
    case isFalse absent => simp [absent, asPoint]
  refine ⟨lost m, ?_⟩
  intro absent
  have later : ∀ i, m ≤ i → ¬ (members (groups CPoint.normSq x a i) j).Nonempty := fun i within some =>
    absent (members_groups CPoint.normSq x a within some)
  exact ⟨(group_free x _ j).mpr (later (l + 1) (Nat.le_succ_of_le le)), (lost l).mpr (later l le)⟩

/-- Two equal points, both in the first group, after three turns. -/
theorem lost_for_good_on_two_points : ∃ u,
    turns (lloyd.pass 2) 3 ⟨table ![⟨![0, 0]⟩, ⟨![0, 0]⟩] (stored fun _ : Fin 2 => (0 : Fin 2)),
      [none, none], 0⟩ = some u ∧ (∀ p ∈ u.pts, p.group ≠ 1) ∧
    ∃ h, load u.cent 1 = some ⟨none, none, h⟩ := by
  have turn := turns_pass (x := ![(⟨![0, 0]⟩ : CPoint 2), ⟨![0, 0]⟩]) (fun _ : Fin 2 => (0 : Fin 2))
    (rfl : ([none, none] : Cells point_t).length = 2) 0
  have first := turn 0
  rw [turns, turns, Option.bind_some] at first
  have free : ∀ p ∈ table ![(⟨![0, 0]⟩ : CPoint 2), ⟨![0, 0]⟩]
      (stored fun _ : Fin 2 => (0 : Fin 2)), p.group ≠ (1 : Fin 2).val := by decide +kernel
  have lost := lost_for_good (rfl : ([none, none] : Cells point_t).length = 2) (Nat.zero_le 2) rfl
    first (turn 2) 1
  exact ⟨_, turn 2, lost.2 free⟩

/-! ## The multithreaded class -/

/-- Before every iteration that the multithreaded loop makes from `cent`, each cluster has a
    point that is nearest to its center. -/
def AllDrawn (vpnts cent : List (CPoint 2)) : Prop :=
  ∀ s, Tested multiThread.looping (multiThread.iteration (multiThread.inOrder vpnts) vpnts)
      (multiThread.start cent []) s → multiThread.looping s = true →
    ∀ cl < s.m_centers.length, singleThread.Drawn vpnts s.m_centers cl

theorem inhabited_of_allDrawn [NeZero k] {c : Fin k → CPoint 2}
    (drawn : AllDrawn (List.ofFn x) (List.ofFn c)) {m : Nat}
    (stops : StopsAt CPoint.normSq x id c m) : ∀ l < m + 1, ∀ j,
    (members (indexes CPoint.normSq x id c l) j).Nonempty := by
  intro l lt j
  have sequential := multiThread.sequential_inOrder x k
  have goes := ((multiThread.stopsAt_iff_looping x c [] m).mp stops).2
  have tested : Tested multiThread.looping
      (multiThread.iteration (multiThread.inOrder (List.ofFn x)) (List.ofFn x))
      (multiThread.start (List.ofFn c) []) (multiThread.trace x c [] l) := by
    rw [multiThread.start_eq]
    apply (tested_iff (multiThread.iteration_eq x c [] sequential)).mpr
    exact ⟨l, rfl, fun i less => goes i (less.trans lt)⟩
  have all := drawn _ tested (goes l lt) j.val (by simp [multiThread.trace])
  exact (singleThread.drawn_ofFn x _ j).mp all

/-- For fewer than 1024 points, and as long as each cluster keeps points, `lloyd` and the
    multithreaded class end with the same centers and the same groups. -/
theorem lloyd_agrees (few : n < 1024) (some_point : 0 < n) (some_cluster : 1 ≤ k) {g : Fin n → Int}
    {c : Fin k → CPoint 2} {pts : List point_t} {cent : Cells point_t}
    (seeded : kpp RAND_MAX rand (table x g) (List.replicate k none) k = some (pts, cent))
    (held : ∀ j, ∃ h, load cent (j.val : Nat) = some (asPoint (some (c j)) h))
    (drawn : AllDrawn (List.ofFn x) (List.ofFn c)) :
    ∃ (a : Fin n → Fin k) (d : Fin k → CPoint 2),
      (∃ bound, ∀ fuel ≥ bound, ∃ s, multiThread.kmeansLoop (multiThread.inOrder (List.ofFn x)) fuel
        (List.ofFn x) (List.ofFn c) [] = some s ∧ s.m_centers = List.ofFn d ∧
          s.m_indexes = List.ofFn fun i => (a i).val) ∧
      ∀ fuel ≥ k ^ n, lloyd fuel RAND_MAX rand (table x g) k =
        some (table x (stored a), List.ofFn fun j => some (asPoint (some (d j)) ((j : Nat) : Int))) := by
  obtain ⟨o, rfl⟩ := Nat.exists_eq_add_of_le' some_cluster
  -- the seeds are those in the cells
  have chosen : (seeds RAND_MAX rand (List.ofFn x) o).isSome := by
    rw [← @isSome_kpp n x g RAND_MAX rand some_point o, seeded]
    rfl
  obtain ⟨s, chosen⟩ := Option.isSome_iff_exists.mp chosen
  obtain ⟨e, cent', rfl, run, sized, held'⟩ := @kpp_of_seeds n x g RAND_MAX rand some_point o s chosen
  cases run.symm.trans seeded
  obtain rfl : e = c := by
    funext j
    obtain ⟨h, read⟩ := held j
    obtain ⟨h', read'⟩ := held' j
    exact asPoint_inj (Option.some.inj (read'.symm.trans read))
  obtain ⟨m, stops⟩ := exists_stopsAt x id e CPoint.normSq_posDef bounded_id
  obtain ⟨r, low, settles⟩ := exists_settlesAt x (assign CPoint.normSq x e) CPoint.normSq_posDef 0
  obtain ⟨last, centers⟩ := settled_eq_stopped x CPoint.normSq_posDef stops
    (inhabited_of_allDrawn drawn stops) settles
  rw [Fintype.card_fin, Fintype.card_fin] at low
  refine ⟨indexes CPoint.normSq x id e m, Lloyd.centers CPoint.normSq x id e (m + 1),
    ⟨m + 1, ?_⟩, ?_⟩
  · intro fuel enough
    have returns := (multiThread.kmeansLoop_eq_some x e [] (multiThread.sequential_inOrder x _) fuel
      _).mpr ⟨m, enough, stops, rfl⟩
    refine ⟨_, returns, rfl, ?_⟩
    simp [multiThread.trace, storedIndexes, listing]
  · intro fuel enough
    rw [lloyd_eq_some run sized, Nat.div_eq_of_lt few]
    refine ⟨r, low.le.trans enough, settles, ?_⟩
    rw [last, labelled, centers]

/-- The seeds are (0, 0) and (12, 0), and the points end in two pairs. -/
theorem lloyd_agrees_on_four_points : ∃ (a : Fin 4 → Fin 2) (d : Fin 2 → CPoint 2),
    (∃ bound, ∀ fuel ≥ bound, ∃ s,
      multiThread.kmeansLoop (multiThread.inOrder
        (List.ofFn ![⟨![0, 0]⟩, ⟨![2, 0]⟩, ⟨![10, 0]⟩, ⟨![12, 0]⟩])) fuel
        (List.ofFn ![⟨![0, 0]⟩, ⟨![2, 0]⟩, ⟨![10, 0]⟩, ⟨![12, 0]⟩])
        (List.ofFn ![⟨![0, 0]⟩, ⟨![12, 0]⟩]) [] = some s ∧
      s.m_centers = List.ofFn d ∧ s.m_indexes = List.ofFn fun i => (a i).val) ∧
    ∀ fuel ≥ 2 ^ 4, lloyd fuel 32767 (fun n => if n = 0 then 0 else 32766)
      (table ![⟨![0, 0]⟩, ⟨![2, 0]⟩, ⟨![10, 0]⟩, ⟨![12, 0]⟩] fun _ => 7) 2 =
      some (table ![⟨![0, 0]⟩, ⟨![2, 0]⟩, ⟨![10, 0]⟩, ⟨![12, 0]⟩] (stored a),
        List.ofFn fun j => some (asPoint (some (d j)) ((j : Nat) : Int))) := by
  have seeded : kpp 32767 (fun n => if n = 0 then 0 else 32766)
      (table ![⟨![0, 0]⟩, ⟨![2, 0]⟩, ⟨![10, 0]⟩, ⟨![12, 0]⟩] fun _ => 7) (List.replicate 2 none) 2 =
      some ([⟨some 0, some 0, 0⟩, ⟨some 2, some 0, 0⟩, ⟨some 10, some 0, 1⟩, ⟨some 12, some 0, 1⟩],
        [some ⟨some 0, some 0, 7⟩, some ⟨some 12, some 0, 7⟩]) := by decide +kernel
  have held : ∀ j : Fin 2, ∃ h,
      load [some (⟨some 0, some 0, 7⟩ : point_t), some ⟨some 12, some 0, 7⟩] (j.val : Nat) =
      some (asPoint (some (![⟨![0, 0]⟩, ⟨![12, 0]⟩] j)) h) := by
    intro j
    refine ⟨7, ?_⟩
    revert j
    decide +kernel
  apply lloyd_agrees (by decide) (by decide) (by decide) seeded held
  intro s tested _
  refine tested.of_everyTest
    (P := fun s => ∀ cl < s.m_centers.length, singleThread.Drawn _ s.m_centers cl) 3 ?_
  decide +kernel

end KMeans.Rosetta
