import KMeans.MultiThread.KmeansMultiThread

/-! # The ranges of the twelve tasks

The bounds of a task pass through `int`, where they are negative from `2 ^ 31` on,
and come back as `unsigned int`. The ranges are consecutive, the last one ends at
the number of points, and the counter of no loop reaches the point where it wraps.
-/

namespace KMeans.multiThread

open Loops

/-- The loop of `CKMTask::Execute` with its 32-bit counter, around any body. -/
def CKMTask.loop (task : CKMTask) (fuel : Nat) (body : Nat → σ → Option σ) (s : σ) : Option σ :=
  wrapLoop 4294967296 (toUnsigned task.m_begin) (toUnsigned task.m_end) body fuel s

/-- The indexes that the loop visits, in order. -/
def CKMTask.visits (task : CKMTask) (fuel : Nat) : Option (List Nat) :=
  task.loop fuel (fun i visited => some (visited ++ [i])) []

/-- Where the range of task `t` begins and that of the task before it ends. -/
def cut (size t : Nat) : Nat := if t < 12 then t * (size / 11) else size

theorem cut_mono (size : Nat) : Monotone (cut size) := by
  refine monotone_nat_of_le_succ fun t => ?_
  have parts := Nat.div_add_mod size 11
  unfold cut
  split_ifs with here next
  · exact Nat.mul_le_mul_right _ t.le_succ
  · have last : t = 11 := by omega
    rw [last]
    omega
  · omega
  · exact le_rfl

theorem cut_le {size t : Nat} (le : t ≤ 12) : cut size t ≤ size := by
  have last : cut size 12 = size := if_neg (lt_irrefl 12)
  exact (cut_mono size le).trans_eq last

theorem length_makeTasks (size : Nat) : (makeTasks size).length = 12 := by
  rw [makeTasks_eq]
  rfl

theorem makeTasks_cut (size : Nat) {t : Nat} (lt : t < 12) :
    (makeTasks size)[t]? = some (.make (cut size t) (cut size (t + 1))) := by
  have parts := Nat.div_add_mod size 11
  rw [makeTasks_eq]
  rcases Nat.lt_or_ge t 11 with chunk | rest
  · rw [List.getElem?_append_left (by simpa using chunk), List.getElem?_map,
      List.getElem?_range chunk, cut, cut, if_pos lt, if_pos (by omega), Nat.add_mul, Nat.one_mul]
    rfl
  · obtain rfl : t = 11 := by omega
    rw [List.getElem?_append_right (by simp)]
    simp [cut, parts]

/-- The loop with the machine's counter is the one with an unbounded counter. -/
theorem CKMTask.loop_make {size lo hi fuel : Nat} (small : size < 2 ^ 32) (le : lo ≤ hi)
    (fits : hi ≤ size) (enough : size ≤ fuel) (body : Nat → σ → Option σ) (s : σ) :
    (CKMTask.make lo hi).loop fuel body s = forLoop lo hi s body := by
  unfold loop
  rw [m_begin_make, m_end_make, toUnsigned_toInt (by omega), toUnsigned_toInt (by omega)]
  exact wrapLoop_eq_forLoop le (by omega) (by omega) body s

theorem record_eq {lo hi : Nat} (le : lo ≤ hi) :
    forLoop lo hi [] (fun i visited => some (visited ++ [i])) = some (List.range' lo (hi - lo)) := by
  have run := forLoop_eq le (fun i visited => some (visited ++ [i]))
    (fun i => List.range' lo (i - lo)) fun i low _ => by
      have split : i + 1 - lo = (i - lo) + 1 := by omega
      have last : lo + (i - lo) = i := by omega
      rw [split, ← List.range'_append_1, List.range'_one, last]
  rwa [Nat.sub_self, List.range'_zero] at run

/-- `CKMTask::Execute` on the task's machine loop. -/
theorem CKMTask.Execute_eq_loop {N size fuel : Nat} (small : size < 2 ^ 32) (enough : size ≤ fuel)
    {task : CKMTask} (created : task ∈ makeTasks size) (m_vpnts m_centers : List (CPoint N))
    (m_indexes : List Nat) : task.Execute m_vpnts m_centers m_indexes =
      task.loop fuel (assignTurn m_vpnts m_centers) m_indexes := by
  obtain ⟨lo, hi, le, fits, first, last⟩ := mem_makeTasks small created
  unfold Execute loop
  rw [first, last]
  exact (wrapLoop_eq_forLoop le (by omega) (by omega) _ _).symm

/-- Every index below `size` is visited once, by one of the tasks, and no other index is. -/
structure Tiling (size : Nat) (visits : Fin 12 → List Nat) : Prop where
  covers : ∀ i < size, ∃! t, i ∈ visits t
  once : ∀ t, (visits t).Nodup
  inside : ∀ t, ∀ i ∈ visits t, i < size

/-- Between consecutive cuts lies every index from the first one up to the last. -/
theorem exists_between {f : Nat → Nat} {i m : Nat} (low : f 0 ≤ i) (high : i < f m) :
    ∃ t < m, f t ≤ i ∧ i < f (t + 1) := by
  induction m with
  | zero => omega
  | succ m ih =>
      rcases Nat.lt_or_ge i (f m) with earlier | here
      · obtain ⟨t, lt, between⟩ := ih earlier
        exact ⟨t, by omega, between⟩
      · exact ⟨m, m.lt_succ_self, here, high⟩

theorem cut_unique {size i t u : Nat} (first : i ∈ Set.Ico (cut size t) (cut size (t + 1)))
    (second : i ∈ Set.Ico (cut size u) (cut size (u + 1))) : t = u := by
  rcases Nat.lt_trichotomy t u with below | same | above
  · have apart := cut_mono size (Nat.succ_le_of_lt below)
    exact absurd second.1 (Nat.not_le.mpr (first.2.trans_le apart))
  · exact same
  · have apart := cut_mono size (Nat.succ_le_of_lt above)
    exact absurd first.1 (Nat.not_le.mpr (second.2.trans_le apart))

theorem cut_tiles (size : Nat) :
    Tiling size fun t => List.range' (cut size t) (cut size (t + 1) - cut size t) := by
  have range : ∀ (t : Fin 12) i, i ∈ List.range' (cut size t) (cut size (t + 1) - cut size t) ↔
      i ∈ Set.Ico (cut size t) (cut size (t + 1)) := fun t i => by
    have le := cut_mono size (t : Nat).le_succ
    rw [List.mem_range'_1, Set.mem_Ico]
    omega
  constructor
  case covers =>
    intro i inside
    obtain ⟨t, lt, between⟩ : ∃ t < 12, cut size t ≤ i ∧ i < cut size (t + 1) :=
      exists_between (by simp [cut]) inside
    refine ⟨⟨t, lt⟩, (range ⟨t, lt⟩ i).mpr between, fun u member => ?_⟩
    exact Fin.ext (cut_unique ((range u i).mp member) between)
  case once => exact fun t => List.nodup_range'
  case inside =>
    intro t i member
    have high := ((range t i).mp member).2
    exact high.trans_le (cut_le t.isLt)

/-- The loops of the twelve tasks of an iteration end, whatever fuel they have from `size` on, and
    together visit every index once. -/
theorem tasks_tile {size : Nat} (small : size < 2 ^ 32) : (makeTasks size).length = 12 ∧
    ∃ visits : Fin 12 → List Nat, Tiling size visits ∧ ∀ t : Fin 12, ∃ task,
      (makeTasks size)[t.val]? = some task ∧ ∀ fuel ≥ size, task.visits fuel = some (visits t) := by
  refine ⟨length_makeTasks size, fun t => List.range' (cut size t) (cut size (t + 1) - cut size t),
    cut_tiles size, fun t => ⟨_, makeTasks_cut size t.isLt, ?_⟩⟩
  intro fuel enough
  have le := cut_mono size (t : Nat).le_succ
  unfold CKMTask.visits
  rw [CKMTask.loop_make small le (cut_le t.isLt) enough, record_eq le]

theorem largest_tasks_tile : (makeTasks 4294967295).length = 12 ∧
    ∃ visits : Fin 12 → List Nat, Tiling 4294967295 visits ∧ ∀ t : Fin 12, ∃ task,
      (makeTasks 4294967295)[t.val]? = some task ∧
        ∀ fuel ≥ 4294967295, task.visits fuel = some (visits t) :=
  tasks_tile (by decide)

end KMeans.multiThread
