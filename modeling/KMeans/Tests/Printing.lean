import KMeans.General.Sections
import KMeans.Threadsafe.LockOrder

/-! # The printing threads of the `index_locker` test

A thread calls `print_hello`, `print_goodbye`, … with an index at each turn of its loop.
Such a call locks, appends `";"` and the letters of the phrase to `result[index]`, one
after another, and unlocks. The lock is one `std::mutex`, or with `INDEX_LOCKER` defined
the `index_locker`, and then only the index is locked. Both keep the phrases whole.
-/

namespace KMeans.Printing

open Transition Sections IndexLocker

variable {τ ι A : Type} [DecidableEq ι]

/-- A call of a `print_` function: the index, and `";"` with the phrase. -/
abbrev Print (ι : Type) := Job ι Char

def printing (index : ι) (phrase : List Char) : Print ι := ⟨index, ';' :: phrase⟩

/-! ## With `std::mutex` -/

/-- The actions of thread `t` when `m_lock` is a `std::mutex`. -/
inductive MutexMove (t : τ) : Option τ × (ι → List Char) → Scribe ι Char →
    Option τ × (ι → List Char) → Scribe ι Char → Prop
  /-- `m_lock.lock()` -/
  | lock {result job jobs} :
      MutexMove t (none, result) ⟨job :: jobs, none⟩ (some t, result) ⟨job :: jobs, some job.text⟩
  /-- `result[index] += …` -/
  | append {lock result job jobs letter left} :
      MutexMove t (lock, result) ⟨job :: jobs, some (letter :: left)⟩
        (lock, Function.update result job.key (result job.key ++ [letter]))
        ⟨job :: jobs, some left⟩
  /-- `m_lock.unlock()` -/
  | unlock {lock result job jobs} :
      MutexMove t (lock, result) ⟨job :: jobs, some []⟩ (none, result) ⟨jobs, none⟩

/-- The threads of the test when `m_lock` is a `std::mutex`. -/
def withMutex [DecidableEq τ] (jobs : τ → List (Print ι)) :
    System ((Option τ × (ι → List Char)) × (τ → Scribe ι Char)) :=
  threads (fun g l => g.1 = none ∧ (∀ i, g.2 i = []) ∧ ∀ t, l t = ⟨jobs t, none⟩) MutexMove

section Mutex

variable [DecidableEq τ] {jobs : τ → List (Print ι)}

/-- In a section, with the mutex locked. -/
def Busy (w : Scribe ι Char) : Bool := w.left.isSome

omit [DecidableEq τ] in
theorem MutexMove.lockMove {t : τ} {g g' : Option τ × (ι → List Char)} {w w' : Scribe ι Char}
    (move : MutexMove t g w g' w') (mine : g.1 = some t ↔ Busy w = true) :
    LockMove t g.1 g'.1 (Busy w) (Busy w') := by
  cases move with
  | lock => exact .acquire
  | append => exact .still
  | unlock =>
      rw [mine.mpr rfl]
      exact .release

theorem mutex_owned {s : (Option τ × (ι → List Char)) × (τ → Scribe ι Char)}
    (reached : Reachable (withMutex jobs) s) : Owned s.1.1 fun t => Busy (s.2 t) := by
  induction reached with
  | init initial =>
      obtain ⟨free, -, start⟩ := initial
      intro t
      simp [free, start t, Busy]
  | step _ move ih =>
      obtain ⟨t, g, next, move, rfl⟩ := move
      exact ih.move (move.lockMove (ih t))

omit [DecidableEq ι] in
theorem busy_of_inside {w : Scribe ι Char} {i : ι} (inside : w.inside = some i) : Busy w = true := by
  obtain ⟨jobs, left⟩ := w
  cases left with
  | none => simp at inside
  | some left => rfl

omit [DecidableEq τ] in
/-- A section is entered with the mutex free. -/
theorem MutexMove.write {t : τ} {g g' : Option τ × (ι → List Char)} {w w' : Scribe ι Char}
    (move : MutexMove t g w g' w') :
    Write g.2 w g'.2 w' ∧ (w.inside = none → w'.inside = none ∨ g.1 = none) := by
  cases move with
  | lock => exact ⟨.enter, fun _ => Or.inr rfl⟩
  | append => exact ⟨.append, by simp⟩
  | unlock => exact ⟨.leave, by simp⟩

/-- With the mutex the sections exclude each other. -/
theorem sections_of_mutex {s : (Option τ × (ι → List Char)) × (τ → Scribe ι Char)}
    (reached : Reachable (withMutex jobs) s) :
    Reachable (Sections.system jobs) (s.1.2, s.2) := by
  induction reached with
  | init initial => exact .init ⟨initial.2.1, initial.2.2⟩
  | step before move ih =>
      obtain ⟨t, g, next, move, rfl⟩ := move
      obtain ⟨write, enters⟩ := move.write
      apply write_reachable ih rfl write
      intro out key inside u there
      have locked := (mutex_owned before u).mpr (busy_of_inside there)
      cases enters out with
      | inl none => simp [none] at inside
      | inr free => simp [free] at locked

/-- A thread in a section has a print to make. -/
theorem mutex_print {s : (Option τ × (ι → List Char)) × (τ → Scribe ι Char)}
    (reached : Reachable (withMutex jobs) s) (t : τ) :
    (s.2 t).left ≠ none → (s.2 t).jobs ≠ [] := by
  apply threads_local (P := fun w : Scribe ι Char => w.left ≠ none → w.jobs ≠ []) _ _ reached t
  · intro g l start t
    simp [start.2.2 t]
  · intro t g w g' w' move before
    cases move <;> simp

theorem mutex_acts {s : (Option τ × (ι → List Char)) × (τ → Scribe ι Char)}
    (reached : Reachable (withMutex jobs) s) (more : ¬ ∀ t, s.2 t = ⟨[], none⟩) :
    ∃ s', (withMutex jobs).step s s' := by
  have owned := mutex_owned reached
  have print := mutex_print reached
  obtain ⟨⟨lock, result⟩, l⟩ := s
  cases lock with
  | some u =>
      have busy : Busy (l u) = true := (owned u).mp rfl
      obtain ⟨left, busy⟩ := Option.isSome_iff_exists.mp busy
      obtain ⟨job, rest, jobs⟩ := List.exists_cons_of_ne_nil (print u (by simp [busy]))
      obtain ⟨g, next, move⟩ : ∃ g next, MutexMove u (some u, result) (l u) g next := by
        rw [show l u = ⟨job :: rest, some left⟩ by rw [← jobs, ← busy]]
        cases left with
        | nil => exact ⟨_, _, .unlock⟩
        | cons letter left => exact ⟨_, _, .append⟩
      exact ⟨_, u, g, next, move, rfl⟩
  | none =>
      obtain ⟨t, unfinished⟩ := not_forall.mp more
      have idle : (l t).left = none := by
        cases left : (l t).left with
        | none => rfl
        | some text =>
            have locked := (owned t).mpr (by simp [Busy, left])
            cases locked
      obtain ⟨g, next, move⟩ : ∃ g next, MutexMove t (none, result) (l t) g next := by
        cases jobs : (l t).jobs with
        | nil => exact absurd (by rw [← jobs, ← idle]) unfinished
        | cons job rest =>
            rw [show l t = ⟨job :: rest, none⟩ by rw [← jobs, ← idle]]
            exact ⟨_, _, .lock⟩
      exact ⟨_, t, g, next, move, rfl⟩

omit [DecidableEq τ] in
theorem MutexMove.rank_lt {t : τ} {g g' : Option τ × (ι → List Char)} {w w' : Scribe ι Char}
    (move : MutexMove t g w g' w') : w'.rank < w.rank := by
  have one := move.write.1.rank_eq
  omega

end Mutex

/-! ## With `index_locker` -/

variable [DecidableEq A]

/-- The actions of thread `t` when `m_lock` is an `index_locker`. -/
inductive LockerMove (t : τ) : Shared τ ι A × (ι → List Char) → Local ι A × Scribe ι Char →
    Shared τ ι A × (ι → List Char) → Local ι A × Scribe ι Char → Prop
  /-- `m_lock.lock(index)` is called -/
  | callLock {g result held job jobs} :
      LockerMove t (g, result) (⟨.outside, held⟩, ⟨job :: jobs, none⟩)
        (g, result) (⟨.lockGlobal job.key, held⟩, ⟨job :: jobs, none⟩)
  /-- An action in `lock` or `unlock`, but for the last one of `lock` -/
  | inside {g g' result l l' w} : l.point ≠ .outside →
      (l'.point = .outside → l.point.locking = none) → Move matched t g l g' l' →
      LockerMove t (g, result) (l, w) (g', result) (l', w)
  /-- The last action of `lock` -/
  | locked {g g' result l l' job jobs} : l.point.locking ≠ none → l'.point = .outside →
      Move matched t g l g' l' →
      LockerMove t (g, result) (l, ⟨job :: jobs, none⟩)
        (g', result) (l', ⟨job :: jobs, some job.text⟩)
  /-- `result[index] += …` -/
  | append {g result held job jobs letter left} :
      LockerMove t (g, result) (⟨.outside, held⟩, ⟨job :: jobs, some (letter :: left)⟩)
        (g, Function.update result job.key (result job.key ++ [letter]))
        (⟨.outside, held⟩, ⟨job :: jobs, some left⟩)
  /-- `m_lock.unlock(index)` is called -/
  | callUnlock {g result held job jobs} :
      LockerMove t (g, result) (⟨.outside, held⟩, ⟨job :: jobs, some []⟩)
        (g, result) (⟨.find job.key, held.erase job.key⟩, ⟨jobs, none⟩)

/-- The threads of the test when `m_lock` is an `index_locker`. -/
def withLocker [DecidableEq τ] (jobs : τ → List (Print ι)) :
    System ((Shared τ ι A × (ι → List Char)) × (τ → Local ι A × Scribe ι Char)) :=
  threads (fun g l => initial g.1 (fun t => (l t).1) ∧ (∀ i, g.2 i = []) ∧
    ∀ t, (l t).2 = ⟨jobs t, none⟩) LockerMove

section Locker

variable {t : τ} {g g' : Shared τ ι A × (ι → List Char)} {p p' : Local ι A × Scribe ι Char}

/-- A thread holds the index of its print while it appends, and no index otherwise. -/
structure Fits (l : Local ι A) (w : Scribe ι Char) : Prop where
  nothing : w.left = none → l.held = ∅
  holding : ∀ left, w.left = some left →
    l.point = .outside ∧ ∃ job jobs, w.jobs = job :: jobs ∧ l.held = {job.key}
  locking : ∀ i, l.point.locking = some i →
    w.left = none ∧ ∃ job jobs, w.jobs = job :: jobs ∧ job.key = i

/-- In a call a thread neither gets nor gives up an index before `lock` returns. -/
theorem inside_of_move {h h' : Shared τ ι A} {l l' : Local ι A} (move : Move matched t h l h' l')
    (away : l.point ≠ .outside) (within : l'.point = .outside → l.point.locking = none) :
    l'.held = l.held ∧ l'.point.locking = l.point.locking := by
  cases move <;> grind [Point.locking]

theorem locked_of_move {h h' : Shared τ ι A} {l l' : Local ι A} (move : Move matched t h l h' l')
    {i : ι} (locking : l.point.locking = some i) (returns : l'.point = .outside) :
    l'.held = insert i l.held := by
  cases move <;> grind [Point.locking]

theorem LockerMove.fits (move : LockerMove t g p g' p') (fits : Fits p.1 p.2) :
    Fits p'.1 p'.2 := by
  obtain ⟨nothing, holding, locking⟩ := fits
  cases move with
  | callLock =>
      refine ⟨nothing, by simp, ?_⟩
      intro i calls
      obtain rfl := Option.some.inj calls
      exact ⟨rfl, _, _, rfl, rfl⟩
  | @inside h h' result l l' w away within move =>
      obtain ⟨still, same⟩ := inside_of_move move away within
      have none : w.left = none := by
        by_contra some
        obtain ⟨left, some⟩ := Option.ne_none_iff_exists'.mp some
        exact away (holding left some).1
      refine ⟨fun _ => still.trans (nothing none), ?_, ?_⟩
      · intro left some
        simp [none] at some
      · intro i calls
        exact locking i (same.symm.trans calls)
  | locked locks outside move =>
      obtain ⟨i, calls⟩ := Option.ne_none_iff_exists'.mp locks
      have held := locked_of_move move calls outside
      obtain ⟨_, job, jobs, same, key⟩ := locking i calls
      obtain ⟨rfl, rfl⟩ := List.cons.inj same
      refine ⟨by simp, ?_, ?_⟩
      · intro left _
        refine ⟨outside, _, _, rfl, ?_⟩
        rw [held, nothing rfl, key]
        rfl
      · intro j again
        simp [outside, Point.locking] at again
  | append =>
      refine ⟨by simp, ?_, by simp [Point.locking]⟩
      intro left _
      exact holding _ rfl
  | @callUnlock _ _ held _ _ =>
      obtain ⟨_, job, jobs, same, only⟩ := holding [] rfl
      obtain ⟨rfl, rfl⟩ := List.cons.inj same
      have only : held = {_} := only
      exact ⟨fun _ => by simp [only], by simp, by simp [Point.locking]⟩

variable [DecidableEq τ] {jobs : τ → List (Print ι)}
  {s : (Shared τ ι A × (ι → List Char)) × (τ → Local ι A × Scribe ι Char)}

theorem fits_of_reachable (reached : Reachable (withLocker jobs) s) (t : τ) :
    Fits (s.2 t).1 (s.2 t).2 := by
  apply threads_local (P := fun p => Fits p.1 p.2) _ _ reached t
  · intro g l start t
    obtain ⟨⟨_, _, _, outside⟩, _, scribes⟩ := start
    have outside : (l t).1 = ⟨.outside, ∅⟩ := outside t
    refine ⟨?_, ?_, ?_⟩
    · simp [outside]
    · simp [scribes t]
    · simp [outside, Point.locking]
  · intro t g p g' p' move fits
    exact move.fits fits

omit [DecidableEq τ] in
theorem LockerMove.move (move : LockerMove t g p g' p') (fits : Fits p.1 p.2) :
    (g'.1 = g.1 ∧ p'.1 = p.1) ∨ Move matched t g.1 p.1 g'.1 p'.1 := by
  cases move with
  | @callLock _ _ held _ _ =>
      have none : held = ∅ := fits.nothing rfl
      exact Or.inr (.callLock (by simp [matched, none]))
  | inside _ _ move => exact Or.inr move
  | locked _ _ move => exact Or.inr move
  | append => exact Or.inl ⟨rfl, rfl⟩
  | @callUnlock _ _ held _ _ =>
      obtain ⟨_, job, jobs, same, only⟩ := fits.holding [] rfl
      obtain ⟨rfl, rfl⟩ := List.cons.inj same
      have only : held = {_} := only
      exact Or.inr (.callUnlock (by simp [only]))

/-- What the threads do to the locker are matched calls. -/
theorem locker_of_printing (reached : Reachable (withLocker jobs) s) :
    Reachable (IndexLocker.system matched) (s.1.1, fun t => (s.2 t).1) := by
  induction reached with
  | init start => exact .init start.1
  | @step s _ before step ih =>
      obtain ⟨t, g, next, move, rfl⟩ := step
      have same : (fun u => (Function.update s.2 t next u).1) =
          Function.update (fun u => (s.2 u).1) t next.1 := by
        funext u
        exact Function.apply_update (fun _ => Prod.fst) s.2 t next u
      change Reachable _ (g.1, fun u => (Function.update s.2 t next u).1)
      rw [same]
      cases move.move (fits_of_reachable before t) with
      | inl still =>
          rw [still.1, still.2, Function.update_eq_self t fun u => (s.2 u).1]
          exact ih
      | inr moved => exact ih.step ⟨t, _, _, moved, rfl⟩

/-- Two threads do not hold one index. -/
theorem holder_unique [Fintype τ] {r : Shared τ ι A × (τ → Local ι A)}
    (reached : Reachable (IndexLocker.system matched) r) {i : ι} {t u : τ}
    (mine : i ∈ (r.2 t).held) (yours : i ∈ (r.2 u).held) : t = u := by
  have owns : ∀ v, i ∈ (r.2 v).held → ((r.2 v).role i).owns = true := fun v holds => by
    simp [Local.role, holds]
  have consistent := (inv_reachable reached).index i
  cases entry : r.1.slot i with
  | none =>
      simp only [entry] at consistent
      have none := consistent.uses t
      have some := uses_pos_of_owns (owns t mine)
      omega
  | some e =>
      obtain ⟨a, o⟩ := e
      simp only [entry] at consistent
      exact consistent.owner.unique (owns t mine) (owns u yours)

omit [DecidableEq ι] [DecidableEq A] in
theorem Fits.held_of_inside {l : Local ι A} {w : Scribe ι Char} (fits : Fits l w) {i : ι}
    (inside : w.inside = some i) : i ∈ l.held := by
  obtain ⟨jobs, left⟩ := w
  cases left with
  | none => simp at inside
  | some left =>
      obtain ⟨_, job, rest, same, held⟩ := fits.holding left rfl
      have same : jobs = job :: rest := same
      subst same
      obtain rfl := Option.some.inj inside
      rw [held]
      exact Finset.mem_singleton_self job.key

omit [DecidableEq τ] in
theorem LockerMove.write (move : LockerMove t g p g' p') :
    (g'.2 = g.2 ∧ p'.2 = p.2) ∨ Write g.2 p.2 g'.2 p'.2 := by
  cases move with
  | callLock => exact Or.inl ⟨rfl, rfl⟩
  | inside => exact Or.inl ⟨rfl, rfl⟩
  | locked => exact Or.inr .enter
  | append => exact Or.inr .append
  | callUnlock => exact Or.inr .leave

/-- With the `index_locker` the sections for one index exclude each other. -/
theorem sections_of_locker [Fintype τ] (reached : Reachable (withLocker jobs) s) :
    Reachable (Sections.system jobs) (s.1.2, fun t => (s.2 t).2) := by
  induction reached with
  | init start => exact .init ⟨start.2.1, start.2.2⟩
  | @step s _ before step ih =>
      have after := locker_of_printing (before.step step)
      have now := fits_of_reachable (before.step step)
      obtain ⟨t, g, next, move, rfl⟩ := step
      have fits : ∀ v, Fits (Function.update s.2 t next v).1 (Function.update s.2 t next v).2 := now
      have same : (fun u => (Function.update s.2 t next u).2) =
          Function.update (fun u => (s.2 u).2) t next.2 := by
        funext u
        exact Function.apply_update (fun _ => Prod.snd) s.2 t next u
      change Reachable _ (g.2, fun u => (Function.update s.2 t next u).2)
      rw [same]
      cases move.write with
      | inl still =>
          rw [still.1, still.2, Function.update_eq_self t fun u => (s.2 u).2]
          exact ih
      | inr write =>
          apply write_reachable ih rfl write
          intro out key inside u there
          have mine : key ∈ (Function.update s.2 t next t).1.held := by
            apply (fits t).held_of_inside
            rw [Function.update_self]
            exact inside
          have other : u ≠ t := by
            intro same
            subst same
            exact absurd (out.symm.trans there) (by simp)
          have yours : key ∈ (Function.update s.2 t next u).1.held := by
            apply (fits u).held_of_inside
            rw [Function.update_of_ne other]
            exact there
          exact other (holder_unique after yours mine)

/-! ## The threads come to their end -/

/-- How many actions a thread has left, at most. A call of `lock` or `unlock` has fewer than
    eight. -/
def actionsLeft (p : Local ι A × Scribe ι Char) : Nat :=
  16 * p.2.rank + p.1.point.rank +
    if p.2.left = none ∧ p.1.point.locking = none ∧ p.2.jobs ≠ [] then 7 else 0

omit [DecidableEq τ] in
theorem LockerMove.actionsLeft_lt (move : LockerMove t g p g' p') :
    actionsLeft p' < actionsLeft p := by
  unfold actionsLeft
  cases move with
  | callLock => simp [Point.locking, Point.rank]
  | inside away within move =>
      have less := move.rank_lt away
      simp only [(inside_of_move move away within).2]
      omega
  | @locked _ _ _ l l' job jobs locks outside move =>
      have enter : Write (fun _ : ι => []) ⟨job :: jobs, none⟩ _ ⟨job :: jobs, some job.text⟩ :=
        .enter
      have one := enter.rank_eq
      simp only [outside, Point.rank, reduceCtorEq, false_and, if_false]
      omega
  | @append _ result _ job jobs letter left =>
      have append : Write result ⟨job :: jobs, some (letter :: left)⟩ _ ⟨job :: jobs, some left⟩ :=
        .append
      have one := append.rank_eq
      simp only [Point.rank, reduceCtorEq, false_and, if_false]
      omega
  | @callUnlock _ result _ job jobs =>
      have leave : Write result ⟨job :: jobs, some []⟩ _ ⟨jobs, none⟩ := .leave
      have one := leave.rank_eq
      simp only [Point.rank, reduceCtorEq, false_and, if_false]
      split <;> omega

end Locker

section Progress

variable {κ : Type} [LinearOrder κ] [DecidableEq τ] [Fintype τ] [Infinite A]
  {jobs : τ → List (Print κ)} {s : (Shared τ κ A × (κ → List Char)) × (τ → Local κ A × Scribe κ Char)}

/-- The thread has made its prints, and the last `unlock` has returned. -/
def Returned (p : Local κ A × Scribe κ Char) : Prop := p.1.point = .outside ∧ p.2 = ⟨[], none⟩

omit [DecidableEq τ] [Fintype τ] [Infinite A] in
theorem outside_acts {t : τ} {g : Shared τ κ A × (κ → List Char)} {p : Local κ A × Scribe κ Char}
    (fits : Fits p.1 p.2) (outside : p.1.point = .outside) (more : p.2 ≠ ⟨[], none⟩) :
    ∃ g' p', LockerMove t g p g' p' := by
  obtain ⟨h, result⟩ := g
  obtain ⟨⟨point, held⟩, ⟨jobs, left⟩⟩ := p
  obtain rfl : point = .outside := outside
  cases left with
  | none =>
      cases jobs with
      | nil => exact absurd rfl more
      | cons job jobs => exact ⟨_, _, .callLock⟩
  | some left =>
      obtain ⟨_, job, rest, same, _⟩ := fits.holding left rfl
      obtain rfl : jobs = job :: rest := same
      cases left with
      | nil => exact ⟨_, _, .callUnlock⟩
      | cons letter left => exact ⟨_, _, .append⟩

omit [DecidableEq τ] [Fintype τ] [Infinite A] in
theorem inside_acts {t : τ} {h h' : Shared τ κ A} {result : κ → List Char} {l l' : Local κ A}
    {w : Scribe κ Char} (fits : Fits l w) (away : l.point ≠ .outside)
    (move : Move matched t h l h' l') :
    ∃ g' p', LockerMove t (h, result) (l, w) g' p' := by
  by_cases returns : l'.point = .outside ∧ l.point.locking ≠ none
  · obtain ⟨i, locks⟩ := Option.ne_none_iff_exists'.mp returns.2
    obtain ⟨idle, job, rest, jobs, _⟩ := fits.locking i locks
    obtain ⟨_, _⟩ := w
    obtain rfl := idle
    obtain rfl := jobs
    exact ⟨_, _, .locked returns.2 returns.1 move⟩
  · refine ⟨_, _, .inside away ?_ move⟩
    intro outside
    by_contra locks
    exact returns ⟨outside, locks⟩

theorem locker_acts (reached : Reachable (withLocker jobs) s)
    (more : ¬ ∀ t, Returned (s.2 t)) : ∃ s', (withLocker jobs).step s s' := by
  have locker := locker_of_printing reached
  have fits := fits_of_reachable reached
  have ascending : Ascending (s.1.1, fun t => (s.2 t).1) := by
    intro t i waits j holds
    have none := (fits t).nothing ((fits t).locking i (locking_of_waits waits)).1
    have holds : j ∈ (s.2 t).1.held := holds
    rw [none] at holds
    exact absurd holds (Finset.notMem_empty j)
  have acts : ∀ u g' p', LockerMove u s.1 (s.2 u) g' p' → ∃ s', (withLocker jobs).step s s' :=
    fun u g' p' move => ⟨_, u, g', p', move, rfl⟩
  by_cases inside : ∃ u, (s.2 u).1.point ≠ .outside
  · cases inside_steps (inv_reachable locker) (exists_free locker) ascending inside with
    | inl steps =>
        obtain ⟨u, away, h, l, move⟩ := steps
        obtain ⟨g', p', move⟩ := inside_acts (fits u) away move
        exact acts u g' p' move
    | inr holds =>
        obtain ⟨u, outside, i, held⟩ := holds
        obtain ⟨g', p', move⟩ := outside_acts (t := u) (g := s.1) (fits u) outside fun done => by
          have held : i ∈ (s.2 u).1.held := held
          rw [(fits u).nothing (by rw [done])] at held
          cases held
        exact acts u g' p' move
  · obtain ⟨t, unfinished⟩ := not_forall.mp more
    have outside : (s.2 t).1.point = .outside := by
      by_contra away
      exact inside ⟨t, away⟩
    obtain ⟨g', p', move⟩ := outside_acts (t := t) (g := s.1) (fits t) outside
      fun done => unfinished ⟨outside, done⟩
    exact acts t g' p' move

/-- With either lock all threads come to the end of their loops, in whatever order they act. -/
theorem printing_ends :
    Ends (withMutex jobs) (fun s => ∑ t, (s.2 t).rank) (fun s => ∀ t, s.2 t = ⟨[], none⟩) ∧
    Ends (@withLocker τ κ A _ _ _ jobs) (fun s => ∑ t, actionsLeft (s.2 t))
      fun s => ∀ t, Returned (s.2 t) :=
  ⟨.of_rank (fun _ _ _ => threads_falls (fun _ _ _ _ _ move => move.rank_lt) _ _) fun _ => mutex_acts,
    .of_rank (fun _ _ _ => threads_falls (fun _ _ _ _ _ move => move.actionsLeft_lt) _ _)
      fun _ => locker_acts⟩

/-- Two threads that print to one string. -/
theorem printing_ends_two_threads :
    Ends (withMutex fun _ : Fin 2 => [printing 3 ['a', 'b'], printing 5 ['c']])
      (fun s => ∑ t, (s.2 t).rank) (fun s => ∀ t, s.2 t = ⟨[], none⟩) ∧
    Ends (@withLocker (Fin 2) Nat Nat _ _ _
        fun _ => [printing 3 ['a', 'b'], printing 5 ['c']]) (fun s => ∑ t, actionsLeft (s.2 t))
      fun s => ∀ t, Returned (s.2 t) :=
  printing_ends

end Progress

/-- With either lock, at any time each string of `result` is made of whole phrases and the
    part that the one thread in a section for it has appended. -/
theorem phrases_whole [Fintype τ] [DecidableEq τ] (jobs : τ → List (Print ι)) :
    (∀ s, Reachable (withMutex jobs) s → ∃ done part, Written jobs s.1.2 s.2 done part) ∧
    ∀ s, Reachable (@withLocker τ ι A _ _ _ jobs) s →
      ∃ done part, Written jobs s.1.2 (fun t => (s.2 t).2) done part :=
  ⟨fun _ reached => written_of_reachable (sections_of_mutex reached),
    fun _ reached => written_of_reachable (sections_of_locker reached)⟩

end KMeans.Printing
