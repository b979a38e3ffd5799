import KMeans.Rosetta.KmeansRosettaCode

/-! # The passes of `lloyd`

A turn of the `do` loop computes the means of the groups, with NaN for a group without
points, and regroups the points by them. No state but the groups lives on in the next turn.
-/

namespace KMeans.Rosetta

open Loops Arrays Lloyd

variable {n k : Nat}

/-! ## Memory -/

theorem load_ofFn {α : Type} (c : Fin k → Option α) (j : Fin k) :
    load (List.ofFn c) (j : Nat) = c j := by
  simp [load]

theorem store_ofFn {α : Type} (c : Fin k → Option α) (j : Fin k) (v : α) :
    store (List.ofFn c) (j : Nat) v = some (List.ofFn (Function.update c j (some v))) := by
  rw [store, if_pos (Int.natCast_nonneg _), Int.toNat_natCast, write_ofFn]

/-- A loop that stores to cell `i` what it computes from cell `i`. -/
theorem forLoop_store {α : Type} (body : Nat → Cells α → Option (Cells α))
    (f : Fin k → Option α → α) (c : Fin k → Option α)
    (turn : ∀ (c : Fin k → Option α) (i : Fin k), (c i).isSome →
      body i (List.ofFn c) = store (List.ofFn c) (i : Nat) (f i (c i)))
    (full : ∀ i, (c i).isSome) :
    forLoop 0 k (List.ofFn c) body = some (List.ofFn fun i => some (f i (c i))) := by
  have run := forLoop_eq (Nat.zero_le k) body
    (fun m => List.ofFn (upTo m (fun i => some (f i (c i))) c)) (by
    intro m _ inside
    have here : (upTo m (fun i => some (f i (c i))) c ⟨m, inside⟩).isSome := by
      rw [upTo_next _ c ⟨m, inside⟩]
      exact full ⟨m, inside⟩
    have step := turn (upTo m (fun i => some (f i (c i))) c) ⟨m, inside⟩ here
    rw [upTo_next _ c ⟨m, inside⟩, store_ofFn] at step
    exact step.trans (congrArg (fun g => some (List.ofFn g)) (update_upTo _ c ⟨m, inside⟩)))
  rwa [upTo_zero, upTo_all] at run

/-! ## `nearest` -/

/-- A point or center in memory, the center of an empty group being NaN. -/
def asPoint (c : Option (CPoint 2)) (group : Int) : point_t :=
  ⟨c.map fun p => p.m_coord ⟨0, Nat.two_pos⟩, c.map fun p => p.m_coord ⟨1, Nat.one_lt_two⟩, group⟩

/-- The points with their groups. -/
def table (x : Fin n → CPoint 2) (groups : Fin n → Int) : List point_t :=
  List.ofFn fun i => asPoint (some (x i)) (groups i)

@[simp] theorem asPoint_group (c : Option (CPoint 2)) (g : Int) : (asPoint c g).group = g := rfl

theorem asPoint_inj {p q : CPoint 2} {g h : Int}
    (same : asPoint (some p) g = asPoint (some q) h) : p = q := by
  obtain ⟨first, second, _⟩ := point_t.mk.inj same
  ext l
  fin_cases l
  · exact Option.some.inj first
  · exact Option.some.inj second

theorem read_table (x : Fin n → CPoint 2) (g : Fin n → Int) (i : Fin n) :
    (table x g)[(i : Nat)]? = some (asPoint (some (x i)) (g i)) :=
  read_ofFn _ i

/-- What the program writes to a point is its group. -/
theorem write_table (x : Fin n → CPoint 2) (g : Fin n → Int) (i : Fin n) (h v : Int) :
    write (table x g) (i : Nat) { asPoint (some (x i)) h with group := v } =
      some (table x (Function.update g i v)) := by
  unfold table
  rw [write_ofFn]
  congr 2
  funext l
  rcases eq_or_ne l i with rfl | other
  · rw [Function.update_self, Function.update_self]
    rfl
  · rw [Function.update_of_ne other, Function.update_of_ne other]

theorem dist2_asPoint (c : Option (CPoint 2)) (p : CPoint 2) (g h : Int) :
    dist2 (asPoint c h) (asPoint (some p) g) = c.map fun q => CPoint.normSq (q - p) := by
  cases c with
  | none => rfl
  | some q =>
      simp only [dist2, asPoint, Option.map_some, Option.bind_eq_bind, Option.bind_some,
        CPoint.normSq_apply, CPoint.mul_eq_sum, Fin.sum_univ_two, CPoint.m_coord_sub]
      rfl

/-- The cells hold the centers `c`. -/
def Held (cent : Cells point_t) (c : Fin k → Option (CPoint 2)) : Prop :=
  ∀ j : Fin k, ∃ h, load cent (j : Nat) = some (asPoint (c j) h)

section Nearest

variable {cent : Cells point_t} {c : Fin k → Option (CPoint 2)} {p : CPoint 2} {g : Int}

theorem nearest.turn_eq (held : Held cent c) (i : Fin k) (s : WithTop ℚ × Int) :
    nearest.turn (asPoint (some p) g) cent i s =
      some (if gap CPoint.normSq c p i < s.1 then (gap CPoint.normSq c p i, ((i : Nat) : Int))
        else s) := by
  obtain ⟨min_d, min_i⟩ := s
  obtain ⟨h, read⟩ := held i
  simp only [turn, read, Option.bind_eq_bind, Option.bind_some, dist2_asPoint]
  cases center : c i with
  | none => simp [gap, center]
  | some q =>
      have near : gap CPoint.normSq c p i = (CPoint.normSq (q - p) : WithTop ℚ) := by
        rw [gap, center, Option.elim_some]
      simp only [Option.map_some, near, gt_iff_lt]
      split <;> rfl

/-- What the scan holds after the centers below `i`. -/
def Scanned (c : Fin k → Option (CPoint 2)) (p : CPoint 2) (g : Int) (i : Nat)
    (s : WithTop ℚ × Int) : Prop :=
  (s = (⊤, g) ∧ ∀ l : Fin k, l.val < i → gap CPoint.normSq c p l = ⊤) ∨
  ∃ j : Fin k, s = (gap CPoint.normSq c p j, ((j : Nat) : Int)) ∧ gap CPoint.normSq c p j ≠ ⊤ ∧
    (∀ l : Fin k, l.val < i → gap CPoint.normSq c p j ≤ gap CPoint.normSq c p l) ∧
    ∀ l < j, gap CPoint.normSq c p j < gap CPoint.normSq c p l

theorem Scanned.turn {i : Fin k} {s : WithTop ℚ × Int} (before : Scanned c p g i s) :
    Scanned c p g (i + 1) (if gap CPoint.normSq c p i < s.1 then
      (gap CPoint.normSq c p i, ((i : Nat) : Int)) else s) := by
  have below : ∀ {l : Fin k}, l.val < i.val + 1 → l.val < i.val ∨ l = i := by
    intro l low
    rcases Nat.lt_succ_iff_lt_or_eq.mp low with earlier | same
    · exact Or.inl earlier
    · exact Or.inr (Fin.ext same)
  split
  case isTrue nearer =>
    refine Or.inr ⟨i, rfl, (nearer.trans_le le_top).ne, ?_, ?_⟩
    · intro l low
      cases before with
      | inl none =>
          obtain ⟨rfl, tops⟩ := none
          cases below low with
          | inl earlier => exact (tops l earlier).ge.trans' le_top
          | inr same => exact same ▸ le_rfl
      | inr found =>
          obtain ⟨j, rfl, _, least, _⟩ := found
          cases below low with
          | inl earlier => exact nearer.le.trans (least l earlier)
          | inr same => exact same ▸ le_rfl
    · intro l earlier
      cases before with
      | inl none =>
          obtain ⟨rfl, tops⟩ := none
          exact nearer.trans_le (tops l earlier).ge
      | inr found =>
          obtain ⟨j, rfl, _, least, _⟩ := found
          exact nearer.trans_le (least l earlier)
  case isFalse farther =>
    cases before with
    | inl none =>
        obtain ⟨rfl, tops⟩ := none
        refine Or.inl ⟨rfl, ?_⟩
        intro l low
        cases below low with
        | inl earlier => exact tops l earlier
        | inr same => exact same ▸ top_le_iff.mp (not_lt.mp farther)
    | inr found =>
        obtain ⟨j, rfl, finite, least, first⟩ := found
        refine Or.inr ⟨j, rfl, finite, ?_, first⟩
        intro l low
        cases below low with
        | inl earlier => exact least l earlier
        | inr same => exact same ▸ not_lt.mp farther

/-- The scan finds the first of the nearest centers, unless all are NaN. -/
theorem nearest_eq [NeZero k] (held : Held cent c) (live : ∃ j, c j ≠ none) :
    nearest (asPoint (some p) g) cent k =
      some (((firstLeast (gap CPoint.normSq c p)).val : Int),
        gap CPoint.normSq c p (firstLeast (gap CPoint.normSq c p))) := by
  obtain ⟨s, run, scanned⟩ := forLoop_invariant (Nat.zero_le k)
    (nearest.turn (asPoint (some p) g) cent) (Scanned c p g) (s := ((⊤ : WithTop ℚ), g))
    (Or.inl ⟨rfl, fun l low => absurd low (Nat.not_lt_zero _)⟩) (by
    intro i s _ inside before
    exact ⟨_, nearest.turn_eq held ⟨i, inside⟩ s, @Scanned.turn _ _ _ _ ⟨i, inside⟩ _ before⟩)
  simp only [nearest, Nat.pos_of_neZero k, if_true, Option.bind_eq_bind]
  rw [show (asPoint (some p) g).group = g from rfl, run, Option.bind_some]
  cases scanned with
  | inl none =>
      obtain ⟨_, tops⟩ := none
      obtain ⟨j, some⟩ := live
      obtain ⟨q, center⟩ := Option.ne_none_iff_exists'.mp some
      have top := tops j j.isLt
      rw [gap, center, Option.elim_some] at top
      exact absurd top (WithTop.coe_ne_top)
  | inr found =>
      obtain ⟨j, rfl, _, least, first⟩ := found
      rw [firstLeast_eq (fun l => least l l.isLt) first]

end Nearest

/-! ## A turn of the `do` loop -/

/-- The sums of the groups over the points in `s`, and how many these are. -/
private def summed (x : Fin n → CPoint 2) (a : Fin n → Fin k) (s : Finset (Fin n)) (j : Fin k) :
    Option point_t :=
  some (asPoint (some (∑ i ∈ s.filter fun i => a i = j, x i)) ((s.filter fun i => a i = j).card : Nat))

/-- The groups as the program stores them. -/
def stored (a : Fin n → Fin k) (i : Fin n) : Int := ((a i).val : Int)

private theorem addTurn_eq (x : Fin n → CPoint 2) (a : Fin n → Fin k) (i : Fin n) :
    lloyd.addTurn (table x (stored a)) i (List.ofFn (summed x a (below n i))) =
      some (List.ofFn (summed x a (below n (i + 1)))) := by
  have read := read_table x (stored a) i
  have next : Function.update (summed x a (below n i)) (a i)
      (summed x a (below n (i + 1)) (a i)) = summed x a (below n (i + 1)) := by
    funext j
    rcases eq_or_ne j (a i) with rfl | other
    · rw [Function.update_self]
    · rw [Function.update_of_ne other, summed, summed, below_succ, Finset.filter_insert,
        if_neg other.symm]
  have fresh : i ∉ (below n i).filter fun l => a l = a i := by simp [notMem_below]
  have grown : (below n (i + 1)).filter (fun l => a l = a i) =
      insert i ((below n i).filter fun l => a l = a i) := by
    rw [below_succ, Finset.filter_insert, if_pos rfl]
  have value : summed x a (below n (i + 1)) (a i) =
      some (asPoint (some (∑ l ∈ (below n i).filter (fun l => a l = a i), x l + x i))
        (((below n i).filter fun l => a l = a i).card + 1 : Nat)) := by
    rw [summed, grown, Finset.sum_insert fresh, Finset.card_insert_of_notMem fresh, add_comm]
  rw [← next, value]
  simp only [lloyd.addTurn, read, Option.bind_eq_bind, Option.bind_some, asPoint, stored, load_ofFn,
    summed, Option.map_some, store_ofFn]
  rfl

theorem add_eq (x : Fin n → CPoint 2) (a : Fin n → Fin k) :
    forLoop 0 n (List.ofFn fun _ : Fin k => some (⟨some 0, some 0, 0⟩ : point_t))
      (lloyd.addTurn (table x (stored a))) =
      some (List.ofFn fun j => some (asPoint (some (∑ i ∈ members a j, x i))
        ((members a j).card : Nat))) := by
  have run := forLoop_eq (Nat.zero_le n) (lloyd.addTurn (table x (stored a)))
    (fun m => List.ofFn (summed x a (below n m)))
    fun m _ inside => addTurn_eq x a ⟨m, inside⟩
  have start : summed x a (below n 0) = fun _ : Fin k => some (⟨some 0, some 0, 0⟩ : point_t) := by
    funext j
    rw [summed, below_zero, Finset.filter_empty, Finset.sum_empty]
    rfl
  have whole : summed x a (below n n) = fun j => some (asPoint (some (∑ i ∈ members a j, x i))
      ((members a j).card : Nat)) := by
    funext j
    rw [summed, below_all]
    rfl
  simp only [start, whole] at run
  exact run

/-- The quotient of a sum is the mean; without points it is NaN. -/
theorem divide_sum (x : Fin n → CPoint 2) (a : Fin n → Fin k) (j : Fin k) (l : Fin 2) :
    divide (some ((∑ i ∈ members a j, x i).m_coord l)) ((members a j).card : Nat) =
      (means ℚ x a j).map fun p => p.m_coord l := by
  unfold divide means
  by_cases inhabited : (members a j).Nonempty
  · have count : (((members a j).card : Nat) : Int) ≠ 0 :=
      Int.natCast_ne_zero.mpr inhabited.card_ne_zero
    rw [if_neg count, if_pos inhabited, Option.map_some, Option.map_some, LeastSquares.mean,
      CPoint.m_coord_smul, Int.cast_natCast, div_eq_inv_mul]
  · rw [Finset.not_nonempty_iff_eq_empty] at inhabited
    simp [inhabited]

/-- The centers that a turn computes from the groups. -/
def centersOf (x : Fin n → CPoint 2) (a : Fin n → Fin k) : Cells point_t :=
  List.ofFn fun j => some (asPoint (means ℚ x a j) ((members a j).card : Nat))

theorem divide_eq (x : Fin n → CPoint 2) (a : Fin n → Fin k) :
    forLoop 0 k (List.ofFn fun j => some (asPoint (some (∑ i ∈ members a j, x i))
      ((members a j).card : Nat))) lloyd.divideTurn = some (centersOf x a) := by
  have run := forLoop_store lloyd.divideTurn (fun (_ : Fin k) (c : Option point_t) =>
      (⟨c.bind fun c => divide c.x c.group, c.bind fun c => divide c.y c.group,
        (c.map fun c => c.group).getD 0⟩ : point_t))
    (fun j => some (asPoint (some (∑ i ∈ members a j, x i)) ((members a j).card : Nat))) (by
    intro c i full
    obtain ⟨v, here⟩ := Option.isSome_iff_exists.mp full
    simp only [lloyd.divideTurn, load_ofFn, here, Option.bind_eq_bind, Option.bind_some,
      Option.map_some, Option.getD_some]) (fun _ => rfl)
  simp only [Option.bind_some, Option.map_some, Option.getD_some, asPoint, divide_sum] at run
  exact run

theorem held_centersOf (x : Fin n → CPoint 2) (a : Fin n → Fin k) :
    Held (centersOf x a) (means ℚ x a) :=
  fun j => ⟨_, load_ofFn _ j⟩

private theorem regroupTurn_eq [NeZero k] (x : Fin n → CPoint 2) (a : Fin n → Fin k) (i : Fin n) :
    lloyd.regroupTurn (centersOf x a) k i
      (table x (upTo i (stored (regroup CPoint.normSq x a)) (stored a)),
        ((moved CPoint.normSq x a) ∩ below n i).card) =
      some (table x (upTo (i + 1) (stored (regroup CPoint.normSq x a)) (stored a)),
        ((moved CPoint.normSq x a) ∩ below n (i + 1)).card) := by
  have read := read_table x (upTo i (stored (regroup CPoint.normSq x a)) (stored a)) i
  rw [upTo_next] at read
  have live : ∃ j, means ℚ x a j ≠ none := by
    refine ⟨a i, ?_⟩
    rw [means, if_pos (members_nonempty a i)]
    exact Option.some_ne_none _
  have nearby : nearest (asPoint (some (x i)) (stored a i)) (centersOf x a) k =
      some (stored (regroup CPoint.normSq x a) i, _) := nearest_eq (held_centersOf x a) live
  have groups := update_upTo (stored (regroup CPoint.normSq x a)) (stored a) i
  rw [below_succ]
  by_cases stays : regroup CPoint.normSq x a i = a i
  · have kept : i ∉ moved CPoint.normSq x a := by simp [moved, stays]
    have equal : stored (regroup CPoint.normSq x a) i = stored a i := by rw [stored, stays, stored]
    have unmoved : upTo (i + 1) (stored (regroup CPoint.normSq x a)) (stored a) =
        upTo i (stored (regroup CPoint.normSq x a)) (stored a) := by
      rw [← groups, equal]
      exact Function.update_eq_self_iff.mpr (upTo_next _ _ i).symm
    simp only [lloyd.regroupTurn, read, nearby, Option.bind_eq_bind, Option.bind_some, asPoint_group,
      ne_eq, equal, not_true_eq_false, if_false]
    rw [unmoved, Finset.inter_insert_of_notMem kept]
  · have moves : i ∈ moved CPoint.normSq x a := by simp [moved, stays]
    have apart : stored (regroup CPoint.normSq x a) i ≠ stored a i := fun equal =>
      stays (Fin.ext (Int.natCast_inj.mp equal))
    have fresh : i ∉ moved CPoint.normSq x a ∩ below n i := by simp [notMem_below]
    simp only [lloyd.regroupTurn, read, nearby, Option.bind_eq_bind, Option.bind_some, asPoint_group,
      ne_eq, apart, not_false_eq_true, if_true, write_table, groups]
    rw [Finset.inter_insert_of_mem moves, Finset.card_insert_of_notMem fresh]

theorem regroup_eq [NeZero k] (x : Fin n → CPoint 2) (a : Fin n → Fin k) :
    forLoop 0 n (table x (stored a), 0) (lloyd.regroupTurn (centersOf x a) k) =
      some (table x (stored (regroup CPoint.normSq x a)), (moved CPoint.normSq x a).card) := by
  have run := forLoop_eq (Nat.zero_le n) (lloyd.regroupTurn (centersOf x a) k)
    (fun m => (table x (upTo m (stored (regroup CPoint.normSq x a)) (stored a)),
      ((moved CPoint.normSq x a) ∩ below n m).card))
    fun m _ inside => regroupTurn_eq x a ⟨m, inside⟩
  simp only [upTo_zero, upTo_all, below_zero, below_all, Finset.inter_empty, Finset.card_empty,
    Finset.inter_univ] at run
  exact run

/-- A turn sees of the state only the points and their groups. -/
theorem pass_eq [NeZero k] (x : Fin n → CPoint 2) (a : Fin n → Fin k) {cent : Cells point_t}
    (sized : cent.length = k) (changed : Nat) :
    lloyd.pass k ⟨table x (stored a), cent, changed⟩ =
      some ⟨table x (stored (regroup CPoint.normSq x a)), centersOf x a,
        (moved CPoint.normSq x a).card⟩ := by
  have cleared : forLoop 0 k cent (fun i cent => store cent i (⟨some 0, some 0, 0⟩ : point_t)) =
      some (List.ofFn fun _ : Fin k => some (⟨some 0, some 0, 0⟩ : point_t)) := by
    have filled := forLoop_fill (fun _ : Fin k => some (⟨some 0, some 0, 0⟩ : point_t)) cent
      sized.ge (fun i cent => store cent i (⟨some 0, some 0, 0⟩ : point_t)) (fun i ys => by
      rw [store, if_pos (Int.natCast_nonneg _), Int.toNat_natCast])
    have none_left : cent.drop k = [] := List.drop_of_length_le sized.le
    rwa [none_left, List.append_nil] at filled
  have length : (table x (stored a)).length = n := by simp [table]
  simp only [lloyd.pass, cleared, length, add_eq, divide_eq, regroup_eq, Option.bind_eq_bind,
    Option.bind_some]

/-! ## The loop -/

/-- The variables after turn `m` of the loop. -/
def trace [NeZero k] (x : Fin n → CPoint 2) (a : Fin n → Fin k) (m : Nat) : LoopState where
  pts := table x (stored (groups CPoint.normSq x a (m + 1)))
  cent := centersOf x (groups CPoint.normSq x a m)
  changed := (moved CPoint.normSq x (groups CPoint.normSq x a m)).card

/-- The loop returns after the first turn that moves at most one point in 1024. -/
theorem loop_eq_some [NeZero k] (x : Fin n → CPoint 2) (a : Fin n → Fin k) {cent : Cells point_t}
    (sized : cent.length = k) (changed fuel : Nat) (s : LoopState) :
    lloyd.loop fuel k ⟨table x (stored a), cent, changed⟩ = some s ↔
      ∃ m ≤ fuel, SettlesAt CPoint.normSq x a (n / 1024) m ∧ s = trace x a m := by
  have turn : ∀ m, lloyd.pass k (trace x a m) = some (trace x a (m + 1)) := by
    intro m
    have length : (centersOf x (groups CPoint.normSq x a m)).length = k := by simp [centersOf]
    rw [trace, pass_eq x _ length, ← groups_succ, trace]
  have test : ∀ m, lloyd.changing (trace x a m) = true ↔
      n / 1024 < (moved CPoint.normSq x (groups CPoint.normSq x a m)).card := by
    intro m
    simp [lloyd.changing, trace, table, Nat.shiftRight_eq_div_pow]
  have first : lloyd.pass k ⟨table x (stored a), cent, changed⟩ = some (trace x a 0) :=
    pass_eq x a sized changed
  simp only [lloyd.loop, first, Option.bind_eq_bind, Option.bind_some, whileLoop_eq_some turn,
    Nat.zero_add, ← Bool.not_eq_true, test, not_lt, SettlesAt]
  constructor
  · intro run
    obtain ⟨m, le, rfl, few, more⟩ := run
    exact ⟨m, le, ⟨few, more⟩, rfl⟩
  · intro settles
    obtain ⟨m, le, ⟨few, more⟩, rfl⟩ := settles
    exact ⟨m, le, rfl, few, more⟩

end KMeans.Rosetta
