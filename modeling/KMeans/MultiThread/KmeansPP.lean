import KMeans.MultiThread.Helpers

/-! # `kmeansPP`

Seeding, in `multiThread/kmeans_pp.h` and again, word for word, as a member of
`singleThread::CKmeans`. The results of `rand()` are a parameter: `rand n` is
the result of call number `n`, and step `n_cluster` makes call number `n_cluster`.
-/

namespace KMeans

open Loops Arrays

variable {N : Nat}

/-- `generators::randf(m)`, where `r` is the result of `rand()`. -/
def randf (RAND_MAX r : Nat) (m : ℚ) : ℚ := m * r / ((RAND_MAX : ℚ) - 1)

/-- One turn of the weighting loop. -/
def kmeansPP.weighTurn (vpnts centers : List (CPoint N)) (j : Nat) :
    List ℚ × ℚ → Option (List ℚ × ℚ)
  | (dist2, sum) => do
    let pnt ← vpnts[j]?
    let (_, d) ← findNearest pnt centers
    let dist2 ← write dist2 j d
    some (dist2, sum + d)

/-- The weighting loop: the squared distance of each point to its nearest center,
    and the sum of these. -/
def kmeansPP.weigh (vpnts centers : List (CPoint N)) (dist2 : List ℚ) : Option (List ℚ × ℚ) :=
  forLoop 0 vpnts.length (dist2, 0) (kmeansPP.weighTurn vpnts centers)

/-- One turn of the selection loop. -/
def kmeansPP.selectTurn (vpnts : List (CPoint N)) (dist2 : List ℚ) (n_cluster j : Nat) :
    ℚ × List (CPoint N) → Option ((ℚ × List (CPoint N)) × Bool)
  | (sum, centers) => do
    let d ← dist2[j]?
    let sum : ℚ := sum - d
    if sum ≤ 0 then
      let pnt ← vpnts[j]?
      let centers ← write centers n_cluster pnt
      some ((sum, centers), false)
    else some ((sum, centers), true)

/-- The selection loop: subtract the weights until nothing is left, and take the
    point reached. Where the loop runs to its end the center keeps its value. -/
def kmeansPP.select (vpnts : List (CPoint N)) (dist2 : List ℚ) (n_cluster : Nat) (sum : ℚ)
    (centers : List (CPoint N)) : Option (List (CPoint N)) := do
  let (_, centers) ← forBreak (kmeansPP.selectTurn vpnts dist2 n_cluster) vpnts.length 0
    (sum, centers)
  some centers

/-- One turn of the outer loop. -/
def kmeansPP.step (RAND_MAX : Nat) (rand : Nat → Nat) (vpnts : List (CPoint N)) (n_cluster : Nat) :
    List ℚ × List (CPoint N) → Option (List ℚ × List (CPoint N))
  | (dist2, centers) => do
    let (dist2, sum) ← kmeansPP.weigh vpnts centers dist2
    let sum := randf RAND_MAX (rand n_cluster) sum
    let centers ← kmeansPP.select vpnts dist2 n_cluster sum centers
    some (dist2, centers)

/-- `kmeansPP`: the first center at random, each further one with a probability
    that grows with its squared distance to the centers. -/
def kmeansPP (RAND_MAX : Nat) (rand : Nat → Nat) (vpnts : List (CPoint N)) (n_cent : Nat)
    (centers : List (CPoint N)) : Option (List (CPoint N)) := do
  let dist2 := List.replicate vpnts.length 0
  let centers := grow centers n_cent default
  let pnt ← vpnts[rand 0 % vpnts.length]?
  let centers ← write centers 0 pnt
  let (_, centers) ← forLoop 1 n_cent (dist2, centers) (kmeansPP.step RAND_MAX rand vpnts)
  some centers

def multiThread.kmeansPP (RAND_MAX : Nat) (rand : Nat → Nat) :
    List (CPoint N) → Nat → List (CPoint N) → Option (List (CPoint N)) :=
  KMeans.kmeansPP RAND_MAX rand

def singleThread.kmeansPP (RAND_MAX : Nat) (rand : Nat → Nat) :
    List (CPoint N) → Nat → List (CPoint N) → Option (List (CPoint N)) :=
  KMeans.kmeansPP RAND_MAX rand

theorem kmeansPP.weigh_defined {vpnts centers : List (CPoint N)} (some_center : centers ≠ [])
    {dist2 : List ℚ} (sized : dist2.length = vpnts.length) :
    ∃ d sum, kmeansPP.weigh vpnts centers dist2 = some (d, sum) ∧ d.length = vpnts.length := by
  obtain ⟨⟨d, sum⟩, run, length⟩ := forLoop_invariant (Nat.zero_le vpnts.length)
    (kmeansPP.weighTurn vpnts centers) (fun _ s => s.1.length = vpnts.length)
    (s := (dist2, (0 : ℚ))) sized (by
    rintro j ⟨dist2, sum⟩ - inside sized
    obtain ⟨⟨m, d⟩, found⟩ := findNearest_defined some_center vpnts[j]
    have room : j < dist2.length := by simpa [sized] using inside
    simp only [kmeansPP.weighTurn, List.getElem?_eq_getElem inside, found, Option.bind_eq_bind,
      Option.bind_some, write_eq room]
    exact ⟨_, rfl, by simpa using sized⟩)
  exact ⟨d, sum, run, length⟩

theorem kmeansPP.select_defined {vpnts centers : List (CPoint N)} {dist2 : List ℚ} {n_cluster : Nat}
    (sized : dist2.length = vpnts.length) (inside : n_cluster < centers.length) (sum : ℚ) :
    ∃ c, kmeansPP.select vpnts dist2 n_cluster sum centers = some c ∧
      c.length = centers.length := by
  obtain ⟨⟨left, c⟩, run, length⟩ := forBreak_invariant
    (kmeansPP.selectTurn vpnts dist2 n_cluster)
    (fun s : ℚ × List (CPoint N) => s.2.length = centers.length) vpnts.length 0
    (s := (sum, centers)) rfl (by
    rintro j ⟨sum, c⟩ - low length
    have point : j < vpnts.length := by omega
    have weight : j < dist2.length := by omega
    have room : n_cluster < c.length := by simpa [length] using inside
    simp only [kmeansPP.selectTurn, List.getElem?_eq_getElem point,
      List.getElem?_eq_getElem weight, Option.bind_eq_bind, Option.bind_some, write_eq room]
    split
    · exact ⟨_, _, rfl, by simpa using length⟩
    · exact ⟨_, _, rfl, length⟩)
  exact ⟨c, by rw [kmeansPP.select, run]; rfl, length⟩

/-- Seeding touches no index out of range and yields the number of centers asked for. -/
theorem kmeansPP_defined (RAND_MAX : Nat) (rand : Nat → Nat) {vpnts : List (CPoint N)}
    (some_point : vpnts ≠ []) {n_cent : Nat} (some_cluster : 1 ≤ n_cent)
    (centers : List (CPoint N)) : ∃ c, kmeansPP RAND_MAX rand vpnts n_cent centers = some c ∧
      c.length = max centers.length n_cent := by
  have drawn : rand 0 % vpnts.length < vpnts.length :=
    Nat.mod_lt _ (List.length_pos_iff.mpr some_point)
  have room : 0 < (grow centers n_cent (default : CPoint N)).length := by
    rw [length_grow]
    omega
  obtain ⟨⟨d, c⟩, run, -, length⟩ := forLoop_invariant some_cluster
    (kmeansPP.step RAND_MAX rand vpnts) (fun _ (s : List ℚ × List (CPoint N)) => s.1.length = vpnts.length ∧
      s.2.length = max centers.length n_cent)
    (s := (List.replicate vpnts.length 0,
      (grow centers n_cent default).set 0 vpnts[rand 0 % vpnts.length]))
    (by simp) (by
    rintro i ⟨dist2, c⟩ low inside ⟨sized, length⟩
    have some_center : c ≠ [] := List.length_pos_iff.mp (by simp only at length; omega)
    obtain ⟨d, sum, weighed, sized'⟩ := kmeansPP.weigh_defined some_center sized
    have room : i < c.length := by simp only at length; omega
    obtain ⟨c', selected, length'⟩ := kmeansPP.select_defined sized' room
      (randf RAND_MAX (rand i) sum)
    simp only [kmeansPP.step, weighed, Option.bind_eq_bind, Option.bind_some, selected]
    exact ⟨_, rfl, sized', length'.trans length⟩)
  refine ⟨c, ?_, length⟩
  simp only [kmeansPP, List.getElem?_eq_getElem drawn, write_eq room, Option.bind_eq_bind,
    Option.bind_some, run]

/-- The points and their first seeds as families. -/
theorem kmeansPP_seeds (RAND_MAX : Nat) (rand : Nat → Nat) {vpnts : List (CPoint N)}
    (some_point : vpnts ≠ []) {n_cent : Nat} (some_cluster : 1 ≤ n_cent) :
    ∃ n, ∃ _ : NeZero n_cent, ∃ (x : Fin n → CPoint N) (c : Fin n_cent → CPoint N),
      vpnts = List.ofFn x ∧ kmeansPP RAND_MAX rand vpnts n_cent [] = some (List.ofFn c) := by
  obtain ⟨seeds, run, length⟩ := kmeansPP_defined RAND_MAX rand some_point some_cluster []
  obtain rfl : seeds.length = n_cent := by simpa using length
  refine ⟨_, ⟨Nat.ne_of_gt some_cluster⟩, vpnts.get, seeds.get, (List.ofFn_get vpnts).symm, ?_⟩
  rw [run, List.ofFn_get]

end KMeans
