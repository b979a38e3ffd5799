import Mathlib.Algebra.BigOperators.Ring.Finset
import Mathlib.Data.Fintype.BigOperators
import Mathlib.Logic.Relation

/-! # Transition systems

A concurrent program is a set of initial states and a step relation: one step is
one atomic action of one thread, and every interleaving is a sequence of steps.
An invariant holds in every reachable state, a simulation carries the reachable
states of one system to those of another, and a run is a finite sequence of states.
-/

namespace Transition

variable {σ ρ : Type*}

structure System (σ : Type*) where
  init : σ → Prop
  step : σ → σ → Prop

inductive Reachable (S : System σ) : σ → Prop
  | init {s} : S.init s → Reachable S s
  | step {s t} : Reachable S s → S.step s t → Reachable S t

/-- An inductive invariant holds in every reachable state. -/
theorem Reachable.invariant {S : System σ} {inv : σ → Prop} (start : ∀ s, S.init s → inv s)
    (next : ∀ s t, inv s → S.step s t → inv t) {s : σ} (reached : Reachable S s) : inv s := by
  induction reached with
  | init initial => exact start _ initial
  | step _ move ih => exact next _ _ ih move

/-- A system that does each step of another one, or none, reaches the images of its states. -/
theorem Reachable.image {S : System σ} {A : System ρ} (f : σ → ρ)
    (start : ∀ s, S.init s → A.init (f s))
    (next : ∀ s t, S.step s t → f t = f s ∨ A.step (f s) (f t)) {s : σ}
    (reached : Reachable S s) : Reachable A (f s) := by
  induction reached with
  | init initial => exact .init (start _ initial)
  | step _ move ih =>
      rcases next _ _ move with still | move
      · rw [still]
        exact ih
      · exact .step ih move

/-- What comes after a reachable state is reachable. -/
theorem Reachable.later {S : System σ} {s t : σ} (reached : Reachable S s)
    (path : Relation.ReflTransGen S.step s t) : Reachable S t := by
  induction path with
  | refl => exact reached
  | tail _ move ih => exact ih.step move

/-- The states `run 0, …, run n` of a run with `n` steps. -/
structure IsRun (S : System σ) (n : Nat) (run : Nat → σ) : Prop where
  start : S.init (run 0)
  next : ∀ i < n, S.step (run i) (run (i + 1))

theorem IsRun.reachable {S : System σ} {n : Nat} {run : Nat → σ} (isRun : IsRun S n run) :
    ∀ i ≤ n, Reachable S (run i) := by
  intro i le
  induction i with
  | zero => exact .init isRun.start
  | succ i ih => exact .step (ih (by omega)) (isRun.next i le)

/-- The states on a path make up a run. -/
theorem exists_isRun {S : System σ} {s t : σ} (initial : S.init s)
    (path : Relation.ReflTransGen S.step s t) :
    ∃ n run, IsRun S n run ∧ run 0 = s ∧ run n = t := by
  induction path with
  | refl => exact ⟨0, fun _ => s, ⟨initial, fun i lt => absurd lt (Nat.not_lt_zero i)⟩, rfl, rfl⟩
  | @tail u v _ move ih =>
      obtain ⟨n, run, isRun, first, last⟩ := ih
      have still : ∀ i ≤ n, Function.update run (n + 1) v i = run i :=
        fun i le => Function.update_of_ne (by omega) ..
      refine ⟨n + 1, Function.update run (n + 1) v, ⟨?_, ?_⟩, ?_, Function.update_self ..⟩
      · rw [still 0 (Nat.zero_le n)]
        exact isRun.start
      · intro i lt
        rw [still i (by omega)]
        rcases Nat.lt_succ_iff_lt_or_eq.mp lt with earlier | rfl
        · rw [still (i + 1) earlier]
          exact isRun.next i earlier
        · rw [Function.update_self, last]
          exact move
      · rw [still 0 (Nat.zero_le n)]
        exact first

/-- A property of one state of a run that the steps from there on keep. -/
theorem IsRun.carry {S : System σ} {n : Nat} {run : Nat → σ} (isRun : IsRun S n run)
    (P : σ → Prop) {i j : Nat} (le : i ≤ j) (last : j ≤ n) (start : P (run i))
    (keep : ∀ l, i ≤ l → l < j → S.step (run l) (run (l + 1)) → P (run l) → P (run (l + 1))) :
    P (run j) := by
  induction j, le using Nat.le_induction with
  | base => exact start
  | succ j low ih =>
      apply keep j low (Nat.lt_succ_self j) (isRun.next j (by omega))
      exact ih (by omega) fun l before less => keep l before (by omega)

/-- A property that holds at first, that `bad` steps destroy and all others keep, holds
    throughout a run exactly if the run has no bad step. -/
theorem IsRun.always_iff {S : System σ} (P : σ → Prop) (bad : σ → σ → Prop)
    (start : ∀ s, S.init s → P s)
    (keep : ∀ s t, Reachable S s → S.step s t → ¬ bad s t → P s → P t)
    (lose : ∀ s t, Reachable S s → S.step s t → bad s t → ¬ P t) {n : Nat} {run : Nat → σ}
    (isRun : IsRun S n run) :
    (∀ i ≤ n, P (run i)) ↔ ∀ i < n, ¬ bad (run i) (run (i + 1)) := by
  constructor
  · intro always i lt wrong
    exact lose _ _ (isRun.reachable i lt.le) (isRun.next i lt) wrong (always (i + 1) lt)
  · intro good i le
    induction i with
    | zero => exact start _ isRun.start
    | succ i ih =>
        exact keep _ _ (isRun.reachable i (by omega)) (isRun.next i le) (good i le) (ih (by omega))

/-! ## Runs that end -/

/-- A run has at most `most` steps, and where a run cannot go on, `done` holds. -/
structure Ends (S : System σ) (most : σ → Nat) (done : σ → Prop) : Prop where
  bounded : ∀ n run, IsRun S n run → n ≤ most (run 0)
  last : ∀ s, Reachable S s → (∀ t, ¬ S.step s t) → done s

section Rank

variable {S : System σ} {rank : σ → Nat}

theorem IsRun.rank_le (falls : ∀ s t, Reachable S s → S.step s t → rank t < rank s) {n : Nat}
    {run : Nat → σ} (isRun : IsRun S n run) : ∀ i ≤ n, i + rank (run i) ≤ rank (run 0) := by
  intro i le
  induction i with
  | zero => rw [Nat.zero_add]
  | succ i ih =>
      have before := ih (by omega)
      have less := falls _ _ (isRun.reachable i (by omega)) (isRun.next i le)
      omega

theorem Ends.of_rank {done : σ → Prop}
    (falls : ∀ s t, Reachable S s → S.step s t → rank t < rank s)
    (last : ∀ s, Reachable S s → ¬ done s → ∃ t, S.step s t) : Ends S rank done where
  bounded := by
    intro n run isRun
    have bound := isRun.rank_le falls n (Nat.le_refl n)
    omega
  last := by
    intro s reached stuck
    by_contra more
    obtain ⟨t, step⟩ := last s reached more
    exact stuck t step

/-- From any state on there is a way to the end. -/
theorem exists_done {done : σ → Prop}
    (falls : ∀ s t, Reachable S s → S.step s t → rank t < rank s)
    (last : ∀ s, Reachable S s → ¬ done s → ∃ t, S.step s t) {s : σ} (reached : Reachable S s) :
    ∃ t, Relation.ReflTransGen S.step s t ∧ done t := by
  induction left : rank s using Nat.strong_induction_on generalizing s with
  | _ n ih =>
      by_cases now : done s
      · exact ⟨s, .refl, now⟩
      · obtain ⟨t, step⟩ := last s reached now
        obtain ⟨u, path, then_done⟩ := ih _ (left ▸ falls s t reached step) (reached.step step) rfl
        exact ⟨u, .head step path, then_done⟩

end Rank

/-! ## Threads

The program points of the threads are a function; a step of one thread updates it
in one place.
-/

section Threads

variable {τ γ ℓ : Type*} [DecidableEq τ]

/-- Threads over a shared state: one step is a move of one thread. -/
def threads (init : γ → (τ → ℓ) → Prop) (move : τ → γ → ℓ → γ → ℓ → Prop) :
    System (γ × (τ → ℓ)) where
  init s := init s.1 s.2
  step s s' := ∃ t g next, move t s.1 (s.2 t) g next ∧ s' = (g, Function.update s.2 t next)

theorem Reachable.move {init : γ → (τ → ℓ) → Prop} {move : τ → γ → ℓ → γ → ℓ → Prop}
    {s : γ × (τ → ℓ)} (reached : Reachable (threads init move) s) {t : τ} {p p' : ℓ} {g : γ}
    (here : s.2 t = p) (moved : move t s.1 p g p') :
    Reachable (threads init move) (g, Function.update s.2 t p') :=
  .step reached ⟨t, g, p', here ▸ moved, rfl⟩

/-- A property of single threads that every move of a thread keeps. -/
theorem threads_local {init : γ → (τ → ℓ) → Prop} {move : τ → γ → ℓ → γ → ℓ → Prop} {P : ℓ → Prop}
    (start : ∀ g l, init g l → ∀ t, P (l t))
    (keep : ∀ t g p g' p', move t g p g' p' → P p → P p') {s : γ × (τ → ℓ)}
    (reached : Reachable (threads init move) s) (t : τ) : P (s.2 t) := by
  induction reached with
  | init initial => exact start _ _ initial t
  | @step s _ _ next ih =>
      obtain ⟨u, g, p, moved, rfl⟩ := next
      rcases eq_or_ne t u with rfl | other
      · simp only [Function.update_self]
        exact keep _ _ _ _ _ moved ih
      · simp only [Function.update_of_ne other]
        exact ih

theorem sum_update [Fintype τ] {M : Type*} [AddCommGroup M] (weight : ℓ → M) (point : τ → ℓ)
    (t : τ) (next : ℓ) :
    ∑ u, weight (Function.update point t next u) =
      (∑ u, weight (point u)) + (weight next - weight (point t)) := by
  have split := Finset.sum_update_of_mem (Finset.mem_univ t) (fun u => weight (point u))
    (weight next)
  have before := Finset.sum_sdiff_eq_sub (f := fun u => weight (point u))
    (Finset.subset_univ {t})
  simp only [← Function.apply_update (fun _ => weight), Finset.sum_singleton] at split before
  rw [split, before]
  exact add_sub_left_comm _ _ _

/-- If every move of a thread lowers its own rank, every step lowers the sum. -/
theorem threads_falls [Fintype τ] {init : γ → (τ → ℓ) → Prop}
    {move : τ → γ → ℓ → γ → ℓ → Prop} {rank : ℓ → Nat}
    (falls : ∀ t g p g' p', move t g p g' p' → rank p' < rank p) (s s' : γ × (τ → ℓ))
    (step : (threads init move).step s s') : ∑ t, rank (s'.2 t) < ∑ t, rank (s.2 t) := by
  obtain ⟨t, g, next, moved, rfl⟩ := step
  have less := falls _ _ _ _ _ moved
  have total := sum_update (fun p => (rank p : Int)) s.2 t next
  simp only [← Nat.cast_sum] at total
  change ∑ u, rank (Function.update s.2 t next u) < ∑ u, rank (s.2 u)
  omega

/-- `lock` is owned by the one thread of which `owns` says so, or free if there is none. -/
def Owned (lock : Option τ) (owns : τ → Bool) : Prop := ∀ t, lock = some t ↔ owns t = true

/-- Thread `t` leaves the lock alone, acquires it or releases it. -/
inductive LockMove (t : τ) : Option τ → Option τ → Bool → Bool → Prop
  | still {lock owns} : LockMove t lock lock owns owns
  | acquire {owns} : LockMove t none (some t) owns true
  | release {lock} : LockMove t lock none true false

omit [DecidableEq τ] in
theorem LockMove.of_eq {t : τ} {lock : Option τ} {was now : Bool} (same : was = now) :
    LockMove t lock lock was now := same ▸ .still

omit [DecidableEq τ] in
theorem Owned.unique {lock : Option τ} {owns : τ → Bool} (owned : Owned lock owns) {t u : τ}
    (mine : owns t = true) (yours : owns u = true) : t = u := by
  have first := (owned t).mpr mine
  have second := (owned u).mpr yours
  rw [first, Option.some.injEq] at second
  exact second

theorem Owned.move {lock lock' : Option τ} {point : τ → ℓ} {owns : ℓ → Bool}
    (owned : Owned lock fun u => owns (point u)) {t : τ} {next : ℓ}
    (move : LockMove t lock lock' (owns (point t)) (owns next)) :
    Owned lock' fun u => owns (Function.update point t next u) := by
  intro u
  have before : lock = some u ↔ owns (point u) = true := owned u
  have mine : lock = some t ↔ owns (point t) = true := owned t
  change lock' = some u ↔ owns (Function.update point t next u) = true
  rcases eq_or_ne u t with rfl | other
  · rw [Function.update_self]
    generalize owns next = now at move ⊢
    generalize owns (point u) = was at move before
    cases move with
    | still => exact before
    | acquire => simp
    | release => simp
  · rw [Function.update_of_ne other, ← before]
    generalize owns next = now at move
    generalize was_def : owns (point t) = was at move mine
    cases move with
    | still => rfl
    | acquire => simp [other.symm]
    | release => simp [mine.mpr rfl, other.symm]

end Threads

/-! ## Objects

A method takes the state of an object and an input to another state and a result; it may be
undefined or not return.
-/

section Objects

variable {ι α : Type*}

abbrev Method (σ ι α : Type*) := σ → ι → Option (σ × α)

/-- Calls of one method of an object that was constructed in state `fresh`. -/
def calls (fresh : σ) (method : Method σ ι α) : System σ where
  init s := s = fresh
  step s t := ∃ i r, method s i = some (t, r)

/-- In state `s` a call returns what it would return on a fresh object. -/
def AsFresh (fresh : σ) (method : Method σ ι α) (s : σ) (i : ι) : Prop :=
  (method s i).map Prod.snd = (method fresh i).map Prod.snd

end Objects

end Transition
