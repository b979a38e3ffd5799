import KMeans.Threadsafe.LockGuarantees

/-! # Who is inside of the map

The accesses to `m_lockers` with a beginning and an end, so that two of them may overlap.
All of them but the `find` in `unlock` are made by the owner of `m_global`. An access has
its effect at its end.
-/

namespace KMeans.IndexLocker

open Transition

variable {τ ι A : Type} [DecidableEq ι]

inductive Access
  /-- `find`, `size`, or `operator[]` for a key that is there -/
  | lookup
  /-- `operator[]` for a key that is not there -/
  | insertion
  | erase

def Access.modifies : Access → Prop
  | .lookup => False
  | .insertion | .erase => True

/-- The access to `m_lockers` that comes next at a program point. -/
def Shared.access (g : Shared τ ι A) : Point ι A → Option Access
  | .subscript i =>
      match g.m_lockers.lookup i with
      | none => some .insertion
      | some _ => some .lookup
  | .find _ | .sizeRead => some .lookup
  | .erase _ _ => some .erase
  | _ => none

variable [DecidableEq A]

/-- The actions of a thread, which may be inside of an access. -/
inductive Stretched (t : τ) : Shared τ ι A → Local ι A × Option Access →
    Shared τ ι A → Local ι A × Option Access → Prop
  | begin {g p access} : g.access p.point = some access →
      Stretched t g (p, none) g (p, some access)
  | finish {g p g' p' access} : Move matched t g p g' p' →
      Stretched t g (p, some access) g' (p', none)
  | other {g p g' p'} : g.access p.point = none → Move matched t g p g' p' →
      Stretched t g (p, none) g' (p', none)

/-- All interleavings of threads that make matched calls. -/
def stretched [DecidableEq τ] : System (Shared τ ι A × (τ → Local ι A × Option Access)) :=
  threads (fun g l => initial g (fun t => (l t).1) ∧ ∀ t, (l t).2 = none) Stretched

/-- The thread is inside of an insertion or an erase. -/
def Modifying (p : Local ι A × Option Access) : Prop := ∃ access, p.2 = some access ∧ access.modifies

/-- The thread is inside of the `find` in `unlock`. -/
def Finding (p : Local ι A × Option Access) : Prop := (∃ i, p.1.point = .find i) ∧ p.2 ≠ none

/-- Whoever modifies the map is alone in it. -/
def Exclusive (s : Shared τ ι A × (τ → Local ι A × Option Access)) : Prop :=
  ∀ t u, t ≠ u → Modifying (s.2 t) → (s.2 u).2 = none

/-- In the step from `s` to `s'` thread `t` begins an access. -/
def Begins (s s' : Shared τ ι A × (τ → Local ι A × Option Access)) (t : τ) : Prop :=
  (s.2 t).2 = none ∧ (s'.2 t).2 ≠ none

/-- A thread begins the `find` in `unlock` while another one modifies the map, or it begins to
    modify the map while another one is inside of that `find`. -/
def Collides (s s' : Shared τ ι A × (τ → Local ι A × Option Access)) : Prop :=
  ∃ t u, t ≠ u ∧ Begins s s' t ∧
    (((∃ i, (s.2 t).1.point = .find i) ∧ Modifying (s.2 u)) ∨
      ((∃ access, s.1.access (s.2 t).1.point = some access ∧ access.modifies) ∧ Finding (s.2 u)))

/-! ## The accesses inside of `m_global` -/

section Reached

variable {s s' : Shared τ ι A × (τ → Local ι A × Option Access)}

omit [DecidableEq A] in
/-- The `find` in `unlock` is the only access outside of `m_global`. -/
theorem access_cases {g : Shared τ ι A} {point : Point ι A} {access : Access}
    (next : g.access point = some access) :
    ((∃ i, point = .find i) ∧ access = .lookup) ∨ point.inGlobal = true := by
  cases point with
  | find i => exact Or.inl ⟨⟨i, rfl⟩, (Option.some.inj next).symm⟩
  | subscript _ | erase _ _ | sizeRead => exact Or.inr rfl
  | _ => cases next

variable [DecidableEq τ]

theorem inside_reachable (reached : Reachable stretched s) (t : τ) {access : Access}
    (inside : (s.2 t).2 = some access) :
    ((∃ i, (s.2 t).1.point = .find i) ∧ access = .lookup) ∨ (s.2 t).1.point.inGlobal = true := by
  refine threads_local (P := fun p => ∀ access, p.2 = some access →
    ((∃ i, p.1.point = .find i) ∧ access = .lookup) ∨ p.1.point.inGlobal = true) ?_ ?_ reached t
    access inside
  · intro g l start t access inside
    rw [start.2 t] at inside
    cases inside
  · intro t g p g' p' act _ access inside
    cases act with
    | begin next =>
        obtain rfl := Option.some.inj inside
        exact access_cases next
    | finish _ | other _ _ => cases inside

theorem inGlobal_of_modifying (reached : Reachable stretched s) {t : τ}
    (modifying : Modifying (s.2 t)) : (s.2 t).1.point.inGlobal = true := by
  obtain ⟨access, inside, modifies⟩ := modifying
  cases inside_reachable reached t inside with
  | inl lookup =>
      rw [lookup.2] at modifies
      exact modifies.elim
  | inr owner => exact owner

/-- Beginning an access is no action of the locker, ending it is one. -/
theorem unstretched (reached : Reachable stretched s) :
    Reachable (system matched) (s.1, fun t => (s.2 t).1) := by
  apply Reachable.image (A := system matched) (fun s => (s.1, fun t => (s.2 t).1)) _ _ reached
  · intro s start
    exact start.1
  · intro s s' step
    obtain ⟨t, g, next, act, rfl⟩ := step
    have projected : (fun u => (Function.update s.2 t next u).1) =
        Function.update (fun u => (s.2 u).1) t next.1 := by
      funext u
      exact Function.apply_update (fun _ => Prod.fst) s.2 t next u
    simp only [projected]
    generalize mine : s.2 t = p at act
    have before : (s.2 t).1 = p.1 := by rw [mine]
    cases act with
    | begin _ =>
        left
        rw [Function.update_eq_self_iff.mpr before.symm]
    | finish move | other _ move =>
        right
        refine ⟨t, g, _, ?_, rfl⟩
        simp only [before]
        exact move

/-! ## Steps -/

omit [DecidableEq ι] [DecidableEq A] in
theorem Exclusive.finish (exclusive : Exclusive s) (g : Shared τ ι A) (v : τ) (p : Local ι A) :
    Exclusive (g, Function.update s.2 v (p, none)) := by
  intro t u other modifying
  by_cases first : t = v
  · subst first
    obtain ⟨_, inside, _⟩ := modifying
    simp at inside
  · simp only [Function.update_of_ne first] at modifying
    by_cases second : u = v
    · simp [second]
    · simp only [Function.update_of_ne second]
      exact exclusive t u other modifying

theorem not_exclusive_of_collides (step : stretched.step s s') (collides : Collides s s') :
    ¬ Exclusive s' := by
  intro exclusive
  obtain ⟨v, g, next, act, rfl⟩ := step
  obtain ⟨t, u, other, ⟨outside, inside⟩, which⟩ := collides
  by_cases same : t = v
  · subst same
    generalize mine : s.2 t = p at act
    have elsewhere : u ≠ t := other.symm
    cases act with
    | finish _ | other _ _ => simp at inside
    | @begin p access next =>
        cases which with
        | inl finding =>
            have none := exclusive u t elsewhere (by
              simp only [Function.update_of_ne elsewhere]
              exact finding.2)
            simp at none
        | inr modifying =>
            obtain ⟨⟨_, next', modifies⟩, finding⟩ := modifying
            rw [mine] at next'
            obtain rfl := Option.some.inj (next.symm.trans next')
            have none := exclusive t u other ⟨access, by simp, modifies⟩
            simp only [Function.update_of_ne elsewhere] at none
            exact finding.2 none
  · simp only [Function.update_of_ne same] at inside
    exact inside outside

variable [Fintype τ]

theorem global_unique (reached : Reachable stretched s) {t u : τ}
    (mine : (s.2 t).1.point.inGlobal = true) (yours : (s.2 u).1.point.inGlobal = true) : t = u :=
  (inv_reachable (unstretched reached)).global.unique mine yours

theorem Exclusive.begin (reached : Reachable stretched s) (exclusive : Exclusive s) {v : τ}
    {p : Local ι A} {access : Access} (mine : s.2 v = (p, none))
    (next : s.1.access p.point = some access)
    (apart : ¬ Collides s (s.1, Function.update s.2 v (p, some access))) :
    Exclusive (s.1, Function.update s.2 v (p, some access)) := by
  have begins : Begins s (s.1, Function.update s.2 v (p, some access)) v := by
    simp [Begins, mine]
  have next' : s.1.access (s.2 v).1.point = some access := by rw [mine]; exact next
  intro t u other modifying
  by_cases first : t = v
  · subst first
    have elsewhere : u ≠ t := other.symm
    simp only [Function.update_self, Function.update_of_ne elsewhere] at modifying ⊢
    have modifies : access.modifies := by
      obtain ⟨_, same, modifies⟩ := modifying
      exact Option.some.inj same ▸ modifies
    by_contra inside
    obtain ⟨k, inside⟩ := Option.ne_none_iff_exists'.mp inside
    cases inside_reachable reached u inside with
    | inl finding =>
        exact apart ⟨t, u, other, begins, Or.inr ⟨⟨access, next', modifies⟩, finding.1, by simp [inside]⟩⟩
    | inr yours =>
        cases access_cases next' with
        | inl lookup =>
            rw [lookup.2] at modifies
            exact modifies
        | inr owner => exact other (global_unique reached owner yours)
  · simp only [Function.update_of_ne first] at modifying
    by_cases second : u = v
    · subst second
      exfalso
      cases access_cases next' with
      | inl finding => exact apart ⟨u, t, other.symm, begins, Or.inl ⟨finding.1, modifying⟩⟩
      | inr owner =>
          exact other (global_unique reached (inGlobal_of_modifying reached modifying) owner)
    · simp only [Function.update_of_ne second]
      exact exclusive t u other modifying

theorem Exclusive.step (reached : Reachable stretched s) (step : stretched.step s s')
    (apart : ¬ Collides s s') (exclusive : Exclusive s) : Exclusive s' := by
  obtain ⟨v, g, next, act, rfl⟩ := step
  generalize mine : s.2 v = p at act
  cases act with
  | begin next => exact exclusive.begin reached mine next apart
  | finish _ | other _ _ => exact exclusive.finish g v _

/-- In a run with matched calls whoever modifies the map is always alone in it exactly if the
    `find` of no `unlock` overlaps with a modification by another thread. -/
theorem exclusive_iff {n : Nat} {run : Nat → Shared τ ι A × (τ → Local ι A × Option Access)}
    (isRun : IsRun stretched n run) :
    (∀ i ≤ n, Exclusive (run i)) ↔ ∀ i < n, ¬ Collides (run i) (run (i + 1)) := by
  apply isRun.always_iff
  · intro s start t u _ modifying
    exact start.2 u
  · intro s s' reached step apart exclusive
    exact exclusive.step reached step apart
  · intro s s' _ step collides
    exact not_exclusive_of_collides step collides

end Reached

/-! ## Two threads -/

private abbrev Two := Shared (Fin 2) Nat Nat × (Fin 2 → Local Nat Nat × Option Access)

private def twoIdle : Two := (⟨none, ∅, fun _ => none⟩, fun _ => (⟨.outside, ∅⟩, none))

private theorem twoIdle_initial : (stretched (τ := Fin 2) (ι := Nat) (A := Nat)).init twoIdle :=
  ⟨⟨rfl, rfl, fun _ => rfl, fun _ => rfl⟩, fun _ => rfl⟩

/-- Thread 0 calls `lock(7)` and begins to insert the entry. -/
private def inserting : Nat → Two
  | 0 => twoIdle
  | 1 => (twoIdle.1, Function.update twoIdle.2 0 (⟨.lockGlobal 7, ∅⟩, none))
  | 2 => ({ twoIdle.1 with m_global := some 0 },
      Function.update twoIdle.2 0 (⟨.subscript 7, ∅⟩, none))
  | _ => ({ twoIdle.1 with m_global := some 0 },
      Function.update twoIdle.2 0 (⟨.subscript 7, ∅⟩, some .insertion))

theorem exclusive_iff_inserting : ∃ run : Nat → Two, IsRun stretched 3 run ∧
    Modifying ((run 3).2 0) ∧ ∀ i ≤ 3, Exclusive (run i) := by
  have isRun : IsRun stretched 3 inserting := by
    refine ⟨twoIdle_initial, fun i lt => ?_⟩
    obtain rfl | rfl | rfl : i = 0 ∨ i = 1 ∨ i = 2 := by omega
    · exact ⟨0, _, _, .other rfl (.callLock (by simp [matched])), rfl⟩
    · refine ⟨0, _, _, .other rfl (.lockGlobal rfl), ?_⟩
      simp [inserting]
    · refine ⟨0, _, _, .begin (by simp [Shared.access, inserting, twoIdle]; rfl), ?_⟩
      simp [inserting]
  refine ⟨inserting, isRun, ⟨.insertion, rfl, trivial⟩, (exclusive_iff isRun).mpr ?_⟩
  intro i lt collides
  have elsewhere : ∀ t j, ((inserting i).2 t).1.point ≠ .find j := by
    obtain rfl | rfl | rfl : i = 0 ∨ i = 1 ∨ i = 2 := by omega
    · simp [inserting, twoIdle]
    · simp [Fin.forall_fin_two, inserting, twoIdle]
    · simp [Fin.forall_fin_two, inserting, twoIdle]
  obtain ⟨t, u, _, _, which⟩ := collides
  cases which with
  | inl finding => exact elsewhere t _ finding.1.choose_spec
  | inr modifying => exact elsewhere u _ modifying.2.1.choose_spec

/-- Thread 1 holds index 1. While thread 0 inserts the entry of index 0, inside of `m_global`,
    thread 1 calls `unlock(1)` and looks its entry up. -/
theorem find_overlaps_insertion : ¬ ∀ s : Two, Reachable stretched s → Exclusive s := by
  intro claim
  have start : Reachable stretched twoIdle := .init twoIdle_initial
  have called := start.move (t := 1) rfl
    (.other rfl (.callLock (i := 1) (by simp [matched])))
  have owner := called.move (t := 1) rfl (.other rfl (.lockGlobal rfl))
  have inside := owner.move (t := 1) rfl (.begin rfl)
  have inserted := inside.move (t := 1) rfl
    (.finish (.insert (a := 1) (by simp [twoIdle]) rfl))
  have counted := inserted.move (t := 1) rfl
    (.other rfl (.increment (o := .make) rfl))
  have locked := counted.move (t := 1) rfl
    (.other rfl (.tryLock (o := ⟨none, 1⟩) rfl rfl))
  have holding := locked.move (t := 1) rfl (.other rfl .enter)
  have calling := holding.move (t := 0) (p := (⟨.outside, ∅⟩, none)) rfl
    (.other rfl (.callLock (i := 0) (by simp [matched])))
  have owning := calling.move (t := 0) rfl (.other rfl (.lockGlobal rfl))
  have inserting := owning.move (t := 0) rfl (.begin rfl)
  have unlocking := inserting.move (t := 1) (p := (⟨.outside, {1}⟩, none)) rfl
    (.other rfl (.callUnlock (i := 1) (by simp)))
  have finding := unlocking.move (t := 1) rfl (.begin rfl)
  have alone := claim _ finding 0 1 (by decide) ⟨.insertion, rfl, trivial⟩
  cases alone

end KMeans.IndexLocker
