import KMeans.General.Arrays
import KMeans.General.Lloyd
import KMeans.UserData.Point

/-! # `findNearest`

The scan for the nearest center, in `multiThread/helpers.h` and again, word for
word, as a member of `singleThread::CKmeans`.

Loop counters and vector sizes are natural numbers here. In the source they are
32-bit, which no list of fewer than `2 ^ 32` elements can tell apart; where a
narrowing matters (`CKMTask`), the model has it.
-/

namespace KMeans

open Loops Arrays

variable {N : Nat}

/-- One turn of the scan: a later center wins only if it is strictly nearer. -/
def findNearest.turn (pnt : CPoint N) (centers : List (CPoint N)) (i : Nat) :
    Nat × ℚ → Option (Nat × ℚ)
  | (min_i, dist2) => do
    let c ← centers[i]?
    let d2 : ℚ := (c - pnt) * (c - pnt)
    if dist2 > d2 then some (i, d2) else some (min_i, dist2)

/-- `findNearest`: the index of the nearest center, and `dist2`, the squared
    distance to it. -/
def findNearest (pnt : CPoint N) (centers : List (CPoint N)) : Option (Nat × ℚ) := do
  let c ← centers[0]?
  forLoop 1 centers.length (0, (c - pnt) * (c - pnt)) (findNearest.turn pnt centers)

def multiThread.findNearest : CPoint N → List (CPoint N) → Option (Nat × ℚ) := KMeans.findNearest

def singleThread.findNearest : CPoint N → List (CPoint N) → Option (Nat × ℚ) := KMeans.findNearest

/-- Squared distance as the scan computes it. -/
private abbrev apart (p q : CPoint N) : ℚ := (p - q) * (p - q)

/-- What the scan holds after the centers below `i`. -/
private def Scanned {k : Nat} (c : Fin k → CPoint N) (pnt : CPoint N) (i : Nat) (s : Nat × ℚ) : Prop :=
  ∃ m : Fin k, s = (m.val, apart (c m) pnt) ∧ m.val < i ∧
    (∀ l : Fin k, l.val < i → apart (c m) pnt ≤ apart (c l) pnt) ∧
    ∀ l < m, apart (c m) pnt < apart (c l) pnt

private theorem scanned_turn {k : Nat} {c : Fin k → CPoint N} {pnt : CPoint N} {i : Nat}
    {s : Nat × ℚ} (inside : i < k) (before : Scanned c pnt i s) :
    ∃ t, findNearest.turn pnt (List.ofFn c) i s = some t ∧ Scanned c pnt (i + 1) t := by
  obtain ⟨m, rfl, low, least, first⟩ := before
  have read : (List.ofFn c)[i]? = some (c ⟨i, inside⟩) := read_ofFn c ⟨i, inside⟩
  simp only [findNearest.turn, read, Option.bind_eq_bind, Option.bind_some]
  split
  case isTrue nearer =>
    refine ⟨_, rfl, ⟨i, inside⟩, rfl, Nat.lt_succ_self i, fun l below => ?_, fun l earlier => ?_⟩
    · rcases Nat.lt_succ_iff_lt_or_eq.mp below with earlier | same
      · exact nearer.le.trans (least l earlier)
      · obtain rfl : l = ⟨i, inside⟩ := Fin.ext same
        exact le_rfl
    · exact nearer.trans_le (least l earlier)
  case isFalse farther =>
    refine ⟨_, rfl, m, rfl, by omega, fun l below => ?_, first⟩
    rcases Nat.lt_succ_iff_lt_or_eq.mp below with earlier | same
    · exact least l earlier
    · obtain rfl : l = ⟨i, inside⟩ := Fin.ext same
      exact not_lt.mp farther

/-- The scan computes the first of the nearest centers. -/
theorem findNearest_ofFn {k : Nat} [NeZero k] (c : Fin k → CPoint N) (pnt : CPoint N) :
    findNearest pnt (List.ofFn c) = some ((Lloyd.nearest CPoint.normSq c pnt).val,
      CPoint.normSq (c (Lloyd.nearest CPoint.normSq c pnt) - pnt)) := by
  have read : (List.ofFn c)[0]? = some (c 0) := by simpa using read_ofFn c 0
  have start : Scanned c pnt 1 (0, apart (c 0) pnt) := by
    refine ⟨0, by simp, by simp, fun l low => ?_, fun l before => absurd before (Fin.not_lt_zero l)⟩
    obtain rfl : l = 0 := Fin.ext (by simpa using low)
    exact le_rfl
  obtain ⟨t, run, m, rfl, -, least, first⟩ := forLoop_invariant NeZero.one_le _ (Scanned c pnt) start
    fun i s _ inside before => scanned_turn inside before
  have found : Lloyd.nearest CPoint.normSq c pnt = m :=
    Lloyd.nearest_eq CPoint.normSq (fun l => least l l.isLt) first
  rw [findNearest, read, Option.bind_eq_bind, Option.bind_some, List.length_ofFn, found]
  exact run

theorem findNearest_defined {centers : List (CPoint N)} (some_center : centers ≠ [])
    (pnt : CPoint N) : ∃ r, findNearest pnt centers = some r := by
  obtain ⟨k, _, c, rfl⟩ := exists_ofFn_neZero some_center
  exact ⟨_, findNearest_ofFn c pnt⟩

end KMeans
