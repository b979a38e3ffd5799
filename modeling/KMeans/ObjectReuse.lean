import KMeans.Convergence
import KMeans.General.Transition
import KMeans.MultiThread.Seeding

/-! # `Run` called again on one object

`singleThread::CKmeans` keeps nothing between two calls. `multiThread::CKmeans` keeps
`m_indexes`, which a call overwrites before it reads them, and `m_centers`, which the
seeding does not clear: `findNearest` scans the centers of the call before where a fresh
object has zero vectors.
-/

namespace KMeans

open Loops Arrays Lloyd Transition

variable {N : Nat}

/-- `Run` as a method: the input is the fuel of the loop and the results of `rand()`. -/
def singleThread.call (RAND_MAX : Nat) (vpnts : List (CPoint N)) (numGroups : Nat) :
    Method Unit (Nat × (Nat → Nat)) (List (CPoint N × List (CPoint N))) :=
  fun _ input => (Run input.1 RAND_MAX input.2 vpnts numGroups).map fun result => ((), result)

namespace multiThread

def call (RAND_MAX : Nat) (m_vpnts : List (CPoint N)) (m_numClusters : Nat) :
    Method (Members N) (Nat × (Nat → Nat)) (List (CPoint N × List (CPoint N))) :=
  fun members input => Run (inOrder m_vpnts) input.1 RAND_MAX input.2 m_vpnts m_numClusters members

/-- What earlier calls have left in the vector of centers does not show in the seeding: at each
    step, the cells not yet chosen and the first center drawn are to every point as near as the
    zero vector and that center would be. And where `rand()` can lead to a step that finds no
    point, the cell that this step leaves as it is holds the zero vector. -/
def LeftUnseen (RAND_MAX : Nat) (rand : Nat → Nat) (vpnts : List (CPoint N)) (n_cent : Nat)
    (left : List (CPoint N)) : Prop :=
  ∀ first, vpnts[rand 0 % vpnts.length]? = some first → ∀ m, 1 ≤ m → m < n_cent →
    (rand m < RAND_MAX ∨ (grow left n_cent default)[m]? = some 0) ∧
    ∀ pnt ∈ vpnts, weight (first :: (grow left n_cent default).drop m) pnt = weight [first, 0] pnt

section Reuse

variable {RAND_MAX : Nat} {rand : Nat → Nat} {m_vpnts : List (CPoint N)} {m_numClusters : Nat}

/-! ## The seeds -/

theorem weight_le {centers : List (CPoint N)} {c : CPoint N} (member : c ∈ centers)
    (pnt : CPoint N) : weight centers pnt ≤ (c - pnt) * (c - pnt) :=
  (weight_isLeast (List.ne_nil_of_mem member) pnt).2 ⟨c, member, rfl⟩

/-- Of two vectors, the one that has a center as near as each of the other has the lesser
    weights. -/
theorem weight_le_weight {centers others : List (CPoint N)} (some_other : others ≠ [])
    {pnt : CPoint N}
    (near : ∀ c ∈ others, ∃ d ∈ centers, (d - pnt) * (d - pnt) ≤ (c - pnt) * (c - pnt)) :
    weight centers pnt ≤ weight others pnt := by
  obtain ⟨c, member, same⟩ := (weight_isLeast some_other pnt).1
  obtain ⟨d, inside, le⟩ := near c member
  rw [← same]
  exact (weight_le inside pnt).trans le

/-- Two vectors that begin alike give a point the same weight, if the rests do together with one
    of the first centers. -/
theorem weight_append_congr {chosen rest others : List (CPoint N)} {first pnt : CPoint N}
    (inside : first ∈ chosen) (same : weight (first :: rest) pnt = weight (first :: others) pnt) :
    weight (chosen ++ rest) pnt = weight (chosen ++ others) pnt := by
  have half : ∀ {rest others : List (CPoint N)},
      weight (first :: rest) pnt = weight (first :: others) pnt →
        weight (chosen ++ rest) pnt ≤ weight (chosen ++ others) pnt := by
    intro rest others same
    apply weight_le_weight (List.ne_nil_of_mem (List.mem_append_left others inside))
    intro c member
    cases List.mem_append.mp member with
    | inl early => exact ⟨c, List.mem_append_left _ early, le_rfl⟩
    | inr late =>
        obtain ⟨d, there, least⟩ := (weight_isLeast (List.cons_ne_nil first rest) pnt).1
        have le := weight_le (List.mem_cons_of_mem first late) pnt
        rw [← same, ← least] at le
        refine ⟨d, ?_, le⟩
        cases List.mem_cons.mp there with
        | inl begins =>
            rw [begins]
            exact List.mem_append_left _ inside
        | inr later => exact List.mem_append_right _ later
  exact le_antisymm (half same) (half same.symm)

theorem weight_zeros {n : Nat} (some_zero : 0 < n) (first pnt : CPoint N) :
    weight (first :: List.replicate n 0) pnt = weight [first, 0] pnt := by
  have same : ∀ c, c ∈ first :: List.replicate n 0 ↔ c ∈ [first, 0] := by
    intro c
    simp [List.mem_replicate, Nat.ne_of_gt some_zero]
  apply le_antisymm
  · exact weight_le_weight (List.cons_ne_nil _ _) fun c there => ⟨c, (same c).mpr there, le_rfl⟩
  · exact weight_le_weight (List.cons_ne_nil _ _) fun c there => ⟨c, (same c).mp there, le_rfl⟩

/-- Only the greatest result of `rand()` makes a step find no point. -/
theorem seedFor_ne_none {RAND_MAX r : Nat} {vpnts centers : List (CPoint N)}
    (some_point : vpnts ≠ []) (some_center : centers ≠ []) (below : r < RAND_MAX) :
    seedFor RAND_MAX r vpnts centers ≠ none := by
  intro missed
  by_cases large : 1 < RAND_MAX
  · exact absurd below ((seedFor_eq_none some_center large some_point).mp missed).1.not_gt
  · rw [seedFor_first some_center some_point (Or.inl (by omega))] at missed
    obtain ⟨pnt, rest, rfl⟩ := List.exists_cons_of_ne_nil some_point
    cases missed

/-- The vector when step `m + 1` begins: the centers chosen, and what it had behind them. -/
theorem seeding_split {vpnts base : List (CPoint N)} (m : Nat) :
    seeding RAND_MAX rand vpnts base m =
      (seeding RAND_MAX rand vpnts base m).take (m + 1) ++ base.drop (m + 1) := by
  have rest : (seeding RAND_MAX rand vpnts base m).drop (m + 1) = base.drop (m + 1) := by
    apply List.ext_getElem?
    intro i
    rw [List.getElem?_drop, List.getElem?_drop, seeding_ahead (by omega)]
  rw [← rest, List.take_append_drop]

theorem take_seeding_succ {vpnts base : List (CPoint N)} {m : Nat} (room : m + 1 < base.length) :
    (seeding RAND_MAX rand vpnts base (m + 1)).take (m + 1 + 1) =
      (seeding RAND_MAX rand vpnts base m).take (m + 1) ++
        ((seedFor RAND_MAX (rand (m + 1)) vpnts (seeding RAND_MAX rand vpnts base m)).or
          base[m + 1]?).toList := by
  rw [List.take_add_one, seeding_here room, take_seeding (Nat.le_add_right m 1)]

section Seeds

variable {vpnts left : List (CPoint N)} {n_cent : Nat} (some_point : vpnts ≠ [])
  (some_cluster : 1 ≤ n_cent) (sized : left.length ≤ n_cent)

include some_point

/-- While the same centers are chosen, a point has the weight that it has on a fresh object. -/
theorem weight_seeding (unseen : LeftUnseen RAND_MAX rand vpnts n_cent left) {m : Nat}
    (inside : m + 1 < n_cent)
    (alike : (seeding RAND_MAX rand vpnts (grow left n_cent default) m).take (m + 1) =
      (seeding RAND_MAX rand vpnts (zeros n_cent) m).take (m + 1)) {pnt : CPoint N}
    (member : pnt ∈ vpnts) :
    weight (seeding RAND_MAX rand vpnts (grow left n_cent default) m) pnt =
      weight (seeding RAND_MAX rand vpnts (zeros n_cent) m) pnt := by
  obtain ⟨first, drawn⟩ := drawn_point rand some_point
  have head : first ∈ (seeding RAND_MAX rand vpnts (zeros n_cent) m).take (m + 1) := by
    apply List.mem_of_getElem? (i := 0)
    rw [List.getElem?_take_of_lt m.succ_pos]
    exact seeding_first (by omega) drawn m
  rw [seeding_split m, alike]
  conv => rhs; rw [seeding_split m]
  apply weight_append_congr head
  rw [(unseen first drawn (m + 1) (by omega) inside).2 pnt member, List.drop_replicate,
    weight_zeros (Nat.sub_pos_of_lt inside)]

include sized

/-- The centers chosen are those of a fresh object. -/
theorem take_seeding_congr (unseen : LeftUnseen RAND_MAX rand vpnts n_cent left) {m : Nat}
    (inside : m < n_cent) :
    (seeding RAND_MAX rand vpnts (grow left n_cent default) m).take (m + 1) =
      (seeding RAND_MAX rand vpnts (zeros n_cent) m).take (m + 1) := by
  have room : n_cent ≤ (grow left n_cent (default : CPoint N)).length := by
    rw [length_grow]
    omega
  obtain ⟨first, drawn⟩ := drawn_point rand some_point
  induction m with
  | zero =>
      simp only [seeding, drawn, Option.getD_some]
      rw [List.take_add_one, List.take_add_one, List.getElem?_set_self (by omega),
        List.getElem?_set_self (by simpa using inside)]
      rfl
  | succ m ih =>
      have alike := ih (by omega)
      have weights : vpnts.map (weight (seeding RAND_MAX rand vpnts (grow left n_cent default) m)) =
          vpnts.map (weight (seeding RAND_MAX rand vpnts (zeros n_cent) m)) :=
        List.map_congr_left fun pnt member => weight_seeding some_point unseen inside alike member
      have selected : seedFor RAND_MAX (rand (m + 1)) vpnts
            (seeding RAND_MAX rand vpnts (grow left n_cent default) m) =
          seedFor RAND_MAX (rand (m + 1)) vpnts (seeding RAND_MAX rand vpnts (zeros n_cent) m) := by
        unfold seedFor
        rw [weights]
      rw [take_seeding_succ (by omega), take_seeding_succ (by simpa using inside), alike, selected,
        List.getElem?_replicate_of_lt inside]
      cases (unseen first drawn (m + 1) (by omega) inside).1 with
      | inr zero => rw [zero]
      | inl below =>
          obtain ⟨pnt, found⟩ := Option.ne_none_iff_exists'.mp (seedFor_ne_none some_point
            (seeding_ne_nil RAND_MAX rand vpnts (Nat.one_le_of_lt inside) m) below)
          rw [found]
          rfl

include some_cluster

/-- The seeds are those of a fresh object. -/
theorem seeds_asFresh (unseen : LeftUnseen RAND_MAX rand vpnts n_cent left) :
    KMeans.kmeansPP RAND_MAX rand vpnts n_cent left =
      KMeans.kmeansPP RAND_MAX rand vpnts n_cent [] := by
  have length : (grow left n_cent (default : CPoint N)).length = n_cent := by
    rw [length_grow]
    omega
  have all := take_seeding_congr some_point sized unseen (Nat.sub_lt some_cluster Nat.one_pos)
  rw [Nat.sub_add_cancel some_cluster, List.take_of_length_le (by rw [length_seeding, length]),
    List.take_of_length_le (by rw [length_seeding, List.length_replicate])] at all
  rw [kmeansPP_eq some_point some_cluster, kmeansPP_eq some_point some_cluster, grow_nil, all]

end Seeds

/-- On a fresh object, and with one cluster, there is nothing to see. -/
theorem leftUnseen_of_fresh {vpnts left : List (CPoint N)} {n_cent : Nat}
    (fresh : left = [] ∨ n_cent = 1) : LeftUnseen RAND_MAX rand vpnts n_cent left := by
  intro first _ m low high
  cases fresh with
  | inr one => omega
  | inl empty =>
      rw [empty, grow_nil]
      refine ⟨Or.inr (List.getElem?_replicate_of_lt high), ?_⟩
      intro pnt _
      rw [List.drop_replicate, weight_zeros (Nat.sub_pos_of_lt high)]

theorem weight_of_first {first pnt : CPoint N} {rest : List (CPoint N)}
    (far : ∀ c ∈ rest, (first - pnt) * (first - pnt) ≤ ((c - pnt) * (c - pnt) : ℚ)) :
    weight (first :: rest) pnt = (first - pnt) * (first - pnt) := by
  apply le_antisymm (weight_le List.mem_cons_self pnt)
  obtain ⟨c, member, same⟩ := (weight_isLeast (List.cons_ne_nil first rest) pnt).1
  rw [← same]
  cases List.mem_cons.mp member with
  | inl begins => rw [begins]
  | inr later => exact far c later

/-- Nor if no point is nearer to the zero vector or to a center that was left than to the first
    center drawn, and each draw finds a point. -/
theorem leftUnseen_of_far {vpnts left : List (CPoint N)} {n_cent : Nat}
    (below : ∀ m, 1 ≤ m → m < n_cent → rand m < RAND_MAX)
    (far : ∀ first, vpnts[rand 0 % vpnts.length]? = some first → ∀ pnt ∈ vpnts, ∀ c,
      c = 0 ∨ c ∈ left → (first - pnt) * (first - pnt) ≤ ((c - pnt) * (c - pnt) : ℚ)) :
    LeftUnseen RAND_MAX rand vpnts n_cent left := by
  intro first drawn m low high
  refine ⟨Or.inl (below m low high), ?_⟩
  intro pnt member
  have rest : weight (first :: (grow left n_cent default).drop m) pnt =
      (first - pnt) * (first - pnt) := by
    apply weight_of_first
    intro c inside
    apply far first drawn pnt member c
    cases List.mem_append.mp (List.mem_of_mem_drop inside) with
    | inl left => exact Or.inr left
    | inr new => exact Or.inl (List.eq_of_mem_replicate new)
  have zero : weight [first, 0] pnt = (first - pnt) * (first - pnt) := by
    apply weight_of_first
    intro c inside
    exact far first drawn pnt member c (Or.inl (List.mem_singleton.mp inside))
  rw [rest, zero]

/-! ## The calls -/

/-- Only through the seeds does a call see what an earlier one has left. -/
theorem asFresh_of_seeds (some_point : m_vpnts ≠ []) (some_cluster : 1 ≤ m_numClusters)
    {members : Members N} (seeds : KMeans.kmeansPP RAND_MAX rand m_vpnts m_numClusters members.m_centers =
      KMeans.kmeansPP RAND_MAX rand m_vpnts m_numClusters []) (fuel : Nat) :
    AsFresh .fresh (call RAND_MAX m_vpnts m_numClusters) members (fuel, rand) := by
  obtain ⟨n, k, _, x, c, rfl, seeded⟩ := exists_seeds RAND_MAX rand some_point some_cluster members
  have fresh : kmeansPP RAND_MAX rand (List.ofFn x) m_numClusters Members.fresh.m_centers =
      some (List.ofFn c) := seeds.symm.trans seeded
  unfold AsFresh call
  apply Option.ext
  intro r
  simp only [Option.map_eq_some_iff]
  constructor
  · intro returned
    obtain ⟨⟨members', r'⟩, run, rfl⟩ := returned
    obtain ⟨m, lt, stop, -, rfl⟩ :=
      (Run_eq_some (sequential_inOrder x k) members seeded fuel members' r').mp run
    exact ⟨⟨_, _⟩, (Run_eq_some (sequential_inOrder x k) .fresh fresh fuel _ _).mpr
      ⟨m, lt, stop, rfl, rfl⟩, rfl⟩
  · intro returned
    obtain ⟨⟨members', r'⟩, run, rfl⟩ := returned
    obtain ⟨m, lt, stop, -, rfl⟩ :=
      (Run_eq_some (sequential_inOrder x k) .fresh fresh fuel members' r').mp run
    exact ⟨⟨_, _⟩, (Run_eq_some (sequential_inOrder x k) members seeded fuel _ _).mpr
      ⟨m, lt, stop, rfl, rfl⟩, rfl⟩

/-- No call makes more centers than were asked for. -/
theorem length_of_reachable (some_point : m_vpnts ≠ []) (some_cluster : 1 ≤ m_numClusters)
    {members : Members N}
    (reached : Reachable (calls .fresh (call RAND_MAX m_vpnts m_numClusters)) members) :
    members.m_centers.length ≤ m_numClusters := by
  apply Reachable.invariant _ _ reached
  · intro members start
    rw [start]
    exact Nat.zero_le _
  · intro members members' le returned
    obtain ⟨input, r, returned⟩ := returned
    obtain ⟨n, x, rfl⟩ := exists_ofFn m_vpnts
    obtain ⟨centers, seeds, length⟩ := kmeansPP_defined RAND_MAX input.2 some_point some_cluster
      members.m_centers
    obtain ⟨k, _, c, rfl⟩ := exists_ofFn_neZero (List.length_pos_iff.mp (by omega) : centers ≠ [])
    obtain ⟨m, _, _, rfl, _⟩ :=
      (Run_eq_some (sequential_inOrder x k) members seeds input.1 members' r).mp returned
    rw [List.length_ofFn] at length ⊢
    omega

end Reuse

end multiThread

/-- A call of the single-threaded `Run` returns what it would return on a fresh object. So does
    one of the multithreaded `Run` if the centers that earlier calls have left are not nearer to
    any point than the zero vector or the first center drawn. -/
theorem Run_asFresh {vpnts : List (CPoint N)} (some_point : vpnts ≠ []) {numGroups : Nat}
    (some_cluster : 1 ≤ numGroups) (RAND_MAX : Nat) :
    (∀ object, Reachable (calls () (singleThread.call RAND_MAX vpnts numGroups)) object →
      ∀ input, AsFresh () (singleThread.call RAND_MAX vpnts numGroups) object input) ∧
    ∀ members, Reachable (calls .fresh (multiThread.call RAND_MAX vpnts numGroups)) members →
      ∀ rand, multiThread.LeftUnseen RAND_MAX rand vpnts numGroups members.m_centers →
        ∀ fuel, AsFresh .fresh (multiThread.call RAND_MAX vpnts numGroups) members (fuel, rand) := by
  constructor
  · intro object _ input
    cases object
    rfl
  · intro members reached rand unseen fuel
    have sized := multiThread.length_of_reachable some_point some_cluster reached
    exact multiThread.asFresh_of_seeds some_point some_cluster
      (multiThread.seeds_asFresh some_point some_cluster sized unseen) fuel

/-- The first call leaves the centers 20 and 4. The second one draws the point 4 first, to which
    each point is as near as to the center 4 that was left. -/
theorem Run_asFresh_on_four_points : ∃ members : multiThread.Members 1,
    members.m_centers = [⟨![20]⟩, ⟨![4]⟩] ∧
    AsFresh .fresh (multiThread.call 32767 [⟨![4]⟩, ⟨![3]⟩, ⟨![5]⟩, ⟨![20]⟩] 2) members
      (9, fun _ => 0) := by
  have first : (multiThread.call 32767 [(⟨![4]⟩ : CPoint 1), ⟨![3]⟩, ⟨![5]⟩, ⟨![20]⟩] 2 .fresh
      (9, fun n => if n = 0 then 3 else 0)).map (fun s => s.1.m_centers) =
      some [⟨![20]⟩, ⟨![4]⟩] := by decide +kernel
  obtain ⟨⟨members, r⟩, run, same⟩ := Option.map_eq_some_iff.mp first
  have start : Reachable (calls .fresh
      (multiThread.call 32767 [(⟨![4]⟩ : CPoint 1), ⟨![3]⟩, ⟨![5]⟩, ⟨![20]⟩] 2)) .fresh := .init rfl
  refine ⟨members, same, (Run_asFresh (by simp) (by omega) 32767).2 members
    (start.step ⟨_, _, run⟩) (fun _ => 0) ?_ 9⟩
  intro c drawn m low high
  obtain rfl : m = 1 := by omega
  obtain rfl : ⟨![4]⟩ = c := Option.some.inj drawn
  refine ⟨Or.inl (by decide), ?_⟩
  have left : members.m_centers = [⟨![20]⟩, ⟨![4]⟩] := same
  rw [left]
  decide +kernel

/-- Points 1 and 3, two clusters, `rand()` returning 0 and then 1, in two calls. The first call
    leaves the centers 1 and 3. So in the second one all weights are zero, both seeds are the point
    1, and the groups come out in the other order. -/
theorem second_Run_differs : ¬ ∀ (N RAND_MAX : Nat) (vpnts : List (CPoint N)) (numGroups : Nat)
    (members : multiThread.Members N) (fuel : Nat) (rand : Nat → Nat), vpnts ≠ [] →
    vpnts.length < 2 ^ 32 → 1 ≤ numGroups → (∀ n, rand n ≤ RAND_MAX) →
    Reachable (calls .fresh (multiThread.call RAND_MAX vpnts numGroups)) members →
    AsFresh .fresh (multiThread.call RAND_MAX vpnts numGroups) members (fuel, rand) := by
  intro claim
  have first : (multiThread.call 32767 [(⟨![1]⟩ : CPoint 1), ⟨![3]⟩] 2 .fresh
      (9, fun n => n % 2)).map (fun s => (s.1.m_indexes, s.1.m_centers)) =
      some ([0, 1], [⟨![1]⟩, ⟨![3]⟩]) := by decide +kernel
  obtain ⟨⟨⟨m_indexes, m_centers⟩, r⟩, run, same⟩ := Option.map_eq_some_iff.mp first
  obtain ⟨rfl, rfl⟩ := Prod.mk.inj same
  have start : Reachable (calls .fresh (multiThread.call 32767 [(⟨![1]⟩ : CPoint 1), ⟨![3]⟩] 2))
      .fresh := .init rfl
  have second := claim 1 32767 [⟨![1]⟩, ⟨![3]⟩] 2 _ 9 (fun n => n % 2) (by simp) (by simp) (by omega)
    (fun n => by omega) (start.step ⟨_, _, run⟩)
  revert second
  unfold AsFresh
  decide +kernel

end KMeans
