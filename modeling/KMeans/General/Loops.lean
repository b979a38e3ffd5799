import Mathlib.Data.List.OfFn
import Mathlib.Data.List.Range
import Mathlib.Order.Monotone.Basic
import Mathlib.Data.Set.Finite.Basic
import Mathlib.Order.Preorder.Finite

/-! # Loops of partial programs

A program step is a function into `Option`: `none` is a step the language leaves
undefined, such as an access past the end of an array. A counting loop either
runs its body for every index or is undefined as a whole. A `while` loop may also
diverge, so it takes fuel, and the theorems below say which fuel is enough.
-/

namespace Loops

/-- `for (i = lo; i < hi; i++) body`. -/
def forLoop (lo hi : Nat) (s : σ) (body : Nat → σ → Option σ) : Option σ :=
  (List.range' lo (hi - lo)).foldlM (fun s i => body i s) s

theorem forLoop_empty (lo : Nat) (s : σ) (body : Nat → σ → Option σ) :
    forLoop lo lo s body = some s := by
  simp [forLoop]

theorem forLoop_succ {lo hi : Nat} (le : lo ≤ hi) (s : σ) (body : Nat → σ → Option σ) :
    forLoop lo (hi + 1) s body = (forLoop lo hi s body).bind (body hi) := by
  have split : hi + 1 - lo = (hi - lo) + 1 := by omega
  have last : lo + (hi - lo) = hi := by omega
  rw [forLoop, split, ← List.range'_append_1, List.foldlM_append]
  simp only [List.range'_one, List.foldlM_cons, List.foldlM_nil, last, forLoop]
  cases (List.range' lo (hi - lo)).foldlM (fun s i => body i s) s with
  | none => rfl
  | some t => exact bind_pure (body hi t)

theorem forLoop_cons {lo hi : Nat} (lt : lo < hi) (s : σ) (body : Nat → σ → Option σ) :
    forLoop lo hi s body = (body lo s).bind fun t => forLoop (lo + 1) hi t body := by
  have split : hi - lo = (hi - (lo + 1)) + 1 := by omega
  rw [forLoop, split, List.range'_succ, List.foldlM_cons]
  rfl

/-- A counting loop that does not fail does not fail in its next turn. -/
theorem turn_of_forLoop {lo hi : Nat} {s t : σ} {body : Nat → σ → Option σ} (lt : lo < hi)
    (run : forLoop lo hi s body = some t) : (body lo s).isSome := by
  rw [forLoop_cons lt] at run
  obtain ⟨_, turn, _⟩ := Option.bind_eq_some_iff.mp run
  rw [turn]
  rfl

/-- A turn that always fails fails the loop. -/
theorem forLoop_eq_none {lo hi i : Nat} {s : σ} {body : Nat → σ → Option σ} (low : lo ≤ i)
    (high : i < hi) (fails : ∀ t, body i t = none) : forLoop lo hi s body = none := by
  induction hi, Nat.le_of_lt (Nat.lt_of_le_of_lt low high) using Nat.le_induction with
  | base => omega
  | succ hi le ih =>
      rw [forLoop_succ le]
      rcases Nat.lt_succ_iff_lt_or_eq.mp high with earlier | rfl
      · rw [ih earlier, Option.bind_none]
      · cases forLoop lo i s body with
        | none => rfl
        | some t => exact fails t

/-- The loop computes `spec hi` when every turn takes `spec i` to `spec (i + 1)`. -/
theorem forLoop_eq {lo hi : Nat} (le : lo ≤ hi) (body : Nat → σ → Option σ) (spec : Nat → σ)
    (turn : ∀ i, lo ≤ i → i < hi → body i (spec i) = some (spec (i + 1))) :
    forLoop lo hi (spec lo) body = some (spec hi) := by
  induction hi, le using Nat.le_induction with
  | base => exact forLoop_empty lo _ body
  | succ hi le ih =>
      rw [forLoop_succ le, ih (fun i low high => turn i low (by omega))]
      exact turn hi le (Nat.lt_succ_self hi)

/-- The same rule for an invariant that does not determine the state. -/
theorem forLoop_invariant {lo hi : Nat} (le : lo ≤ hi) (body : Nat → σ → Option σ)
    (inv : Nat → σ → Prop) {s : σ} (start : inv lo s)
    (turn : ∀ i s, lo ≤ i → i < hi → inv i s → ∃ t, body i s = some t ∧ inv (i + 1) t) :
    ∃ t, forLoop lo hi s body = some t ∧ inv hi t := by
  induction hi, le using Nat.le_induction with
  | base => exact ⟨s, forLoop_empty lo s body, start⟩
  | succ hi le ih =>
      obtain ⟨t, run, holds⟩ := ih fun i s low high => turn i s low (by omega)
      obtain ⟨u, last, next⟩ := turn hi t le (Nat.lt_succ_self hi) holds
      exact ⟨u, by rw [forLoop_succ le, run]; exact last, next⟩

/-- Two counting loops whose turns correspond along `f` end in corresponding states. -/
theorem forLoop_map {f : σ → ρ} {body : Nat → σ → Option σ} {body' : Nat → ρ → Option ρ}
    (turn : ∀ i s, body' i (f s) = (body i s).map f) (lo hi : Nat) (s : σ) :
    forLoop lo hi (f s) body' = (forLoop lo hi s body).map f := by
  unfold forLoop
  induction List.range' lo (hi - lo) generalizing s with
  | nil => rfl
  | cons i rest ih =>
      rw [List.foldlM_cons, List.foldlM_cons, turn]
      cases body i s with
      | none => rfl
      | some t => exact ih t

/-- `for (i = lo; i < lo + n; i++) body`, where the body says whether to go on
    (`true`) or to leave the loop by `break`. -/
def forBreak (body : Nat → σ → Option (σ × Bool)) : (n lo : Nat) → σ → Option σ
  | 0, _, s => some s
  | n + 1, lo, s => do
    let (t, go) ← body lo s
    if go then forBreak body n (lo + 1) t else some t

/-- Whether such a loop is left by `break`. -/
def breaks (body : Nat → σ → Option (σ × Bool)) : (n lo : Nat) → σ → Option Bool
  | 0, _, _ => some false
  | n + 1, lo, s => do
    let (t, go) ← body lo s
    if go then breaks body n (lo + 1) t else some true

theorem forBreak_invariant (body : Nat → σ → Option (σ × Bool)) (inv : σ → Prop) (n lo : Nat)
    {s : σ} (start : inv s)
    (turn : ∀ i s, lo ≤ i → i < lo + n → inv s → ∃ t go, body i s = some (t, go) ∧ inv t) :
    ∃ t, forBreak body n lo s = some t ∧ inv t := by
  induction n generalizing lo s with
  | zero => exact ⟨s, rfl, start⟩
  | succ n ih =>
      obtain ⟨t, go, run, holds⟩ := turn lo s le_rfl (by omega) start
      simp only [forBreak, run, Option.bind_eq_bind, Option.bind_some]
      cases go with
      | false => exact ⟨t, rfl, holds⟩
      | true => exact ih (lo + 1) holds fun i s low high => turn i s (by omega) (by omega)

theorem forBreak_map {f : σ → ρ} {body : Nat → σ → Option (σ × Bool)}
    {body' : Nat → ρ → Option (ρ × Bool)}
    (turn : ∀ i s, body' i (f s) = (body i s).map (Prod.map f id)) (n lo : Nat) (s : σ) :
    forBreak body' n lo (f s) = (forBreak body n lo s).map f := by
  induction n generalizing lo s with
  | zero => rfl
  | succ n ih =>
      unfold forBreak
      rw [turn]
      cases body lo s with
      | none => rfl
      | some next =>
          obtain ⟨t, go⟩ := next
          cases go with
          | false => rfl
          | true => exact ih (lo + 1) t

/-- `while (cond) body`, for at most `fuel` turns of the body. -/
def whileLoop (cond : σ → Bool) (body : σ → Option σ) : Nat → σ → Option σ
  | 0, s => if cond s then none else some s
  | fuel + 1, s => if cond s then (body s).bind (whileLoop cond body fuel) else some s

/-- `for (i = lo; i < hi; i++) body` with a counter that wraps around at `bound`, for at most
    `fuel` turns. -/
def wrapLoop (bound lo hi : Nat) (body : Nat → σ → Option σ) (fuel : Nat) (s : σ) : Option σ :=
  (whileLoop (fun t => decide (t.1 < hi))
    (fun t => (body t.1 t.2).map fun u => ((t.1 + 1) % bound, u)) fuel (lo, s)).map Prod.snd

/-- Below the bound the counter does not wrap, and the loop ends after `hi - lo` turns. -/
theorem wrapLoop_eq_forLoop {bound lo hi fuel : Nat} (le : lo ≤ hi) (small : hi < bound)
    (enough : hi - lo ≤ fuel) (body : Nat → σ → Option σ) (s : σ) :
    wrapLoop bound lo hi body fuel s = forLoop lo hi s body := by
  induction fuel generalizing lo s with
  | zero =>
      obtain rfl : lo = hi := by omega
      rw [forLoop_empty]
      simp [wrapLoop, whileLoop]
  | succ fuel ih =>
      unfold wrapLoop whileLoop
      rcases Nat.lt_or_ge lo hi with goes | ended
      · have next : (lo + 1) % bound = lo + 1 := Nat.mod_eq_of_lt (by omega)
        rw [forLoop_cons goes]
        simp only [goes, decide_true, if_true]
        cases body lo s with
        | none => rfl
        | some t =>
            simp only [Option.map_some, Option.bind_some, next]
            exact ih (by omega) (by omega) t
      · obtain rfl : lo = hi := by omega
        rw [forLoop_empty]
        simp

/-- The state after `n` turns of a loop body. -/
def turns (body : σ → Option σ) : Nat → σ → Option σ
  | 0, s => some s
  | n + 1, s => (turns body n s).bind body

/-- The states in which the loop tests its condition. -/
inductive Tested (cond : σ → Bool) (body : σ → Option σ) (s : σ) : σ → Prop
  | start : Tested cond body s s
  | next {t u} : Tested cond body s t → cond t = true → body t = some u → Tested cond body s u

/-- Running the loop for at most `fuel` turns finds `P` each time that the condition is tested,
    and comes to its end. -/
def everyTest (P : σ → Prop) [DecidablePred P] (cond : σ → Bool) (body : σ → Option σ) :
    Nat → σ → Bool
  | 0, s => decide (P s) && !cond s
  | fuel + 1, s => decide (P s) && (!cond s || (body s).all (everyTest P cond body fuel))

theorem Tested.of_everyTest {P : σ → Prop} [DecidablePred P] {cond : σ → Bool}
    {body : σ → Option σ} {s t : σ} (fuel : Nat) (every : everyTest P cond body fuel s = true)
    (tested : Tested cond body s t) : P t := by
  have rest : ∃ left, everyTest P cond body left t = true := by
    induction tested with
    | start => exact ⟨fuel, every⟩
    | next _ goes turn ih =>
        obtain ⟨left, here⟩ := ih
        cases left with
        | zero => simp [everyTest, goes] at here
        | succ left =>
            simp only [everyTest, goes, turn, Bool.not_true, Bool.false_or, Option.all_some,
              Bool.and_eq_true] at here
            exact ⟨left, here.2⟩
  obtain ⟨left, here⟩ := rest
  cases left with
  | zero | succ =>
      simp only [everyTest, Bool.and_eq_true, decide_eq_true_eq] at here
      exact here.1

section Trace

variable {cond : σ → Bool} {body : σ → Option σ} {trace : Nat → σ}

/-- When the body never fails along `trace`, the loop returns exactly the first
    state of the trace that violates the condition. -/
theorem whileLoop_eq_some (turn : ∀ i, body (trace i) = some (trace (i + 1))) (fuel i : Nat) (r : σ) :
    whileLoop cond body fuel (trace i) = some r ↔
      ∃ n ≤ fuel, r = trace (i + n) ∧ cond (trace (i + n)) = false ∧
        ∀ m < n, cond (trace (i + m)) = true := by
  induction fuel generalizing i with
  | zero =>
      constructor
      · intro run
        cases stop : cond (trace i) <;> simp [whileLoop, stop] at run
        exact ⟨0, le_rfl, run.symm, stop, by simp⟩
      · rintro ⟨n, le, rfl, stop, -⟩
        obtain rfl : n = 0 := by omega
        simp only [Nat.add_zero] at stop ⊢
        simp [whileLoop, stop]
  | succ fuel ih =>
      cases test : cond (trace i) with
      | false =>
          simp only [whileLoop, test, Bool.false_eq_true, if_false, Option.some.injEq]
          constructor
          · rintro rfl
            exact ⟨0, by omega, rfl, test, by simp⟩
          · rintro ⟨n, -, rfl, -, before⟩
            cases n with
            | zero => rfl
            | succ n => simpa [test] using before 0 (by omega)
      | true =>
          simp only [whileLoop, test, if_true, turn i, Option.bind_some, ih (i + 1)]
          constructor
          · rintro ⟨n, le, rfl, stop, before⟩
            have shift : ∀ m, i + 1 + m = i + (m + 1) := fun m => by omega
            refine ⟨n + 1, by omega, by rw [shift], by rw [← shift]; exact stop, ?_⟩
            intro m lt
            cases m with
            | zero => exact test
            | succ m => rw [← shift]; exact before m (by omega)
          · rintro ⟨n, le, rfl, stop, before⟩
            cases n with
            | zero => simp [test] at stop
            | succ n =>
                have shift : ∀ m, i + (m + 1) = i + 1 + m := fun m => by omega
                refine ⟨n, by omega, by rw [shift], by rw [← shift]; exact stop, ?_⟩
                intro m lt
                rw [← shift]
                exact before (m + 1) (by omega)

/-- The same for a loop whose condition holds at first and is then decided by the
    turn just made: it returns after the first turn that `stops`. -/
theorem whileLoop_eq_some_of_test (turn : ∀ i, body (trace i) = some (trace (i + 1)))
    (first : cond (trace 0) = true) {stops : Nat → Prop}
    (test : ∀ m, cond (trace (m + 1)) = false ↔ stops m) (fuel : Nat) (r : σ) :
    whileLoop cond body fuel (trace 0) = some r ↔
      ∃ m < fuel, stops m ∧ (∀ l < m, ¬ stops l) ∧ r = trace (m + 1) := by
  have goes : ∀ m, cond (trace (m + 1)) = true ↔ ¬ stops m := fun m => by
    rw [← test, Bool.not_eq_false]
  simp only [whileLoop_eq_some turn, Nat.zero_add]
  constructor
  · rintro ⟨m, le, rfl, stop, before⟩
    cases m with
    | zero => simp [first] at stop
    | succ m =>
        exact ⟨m, le, (test m).mp stop, fun l lt => (goes l).mp (before (l + 1) (by omega)), rfl⟩
  · rintro ⟨m, lt, stop, before, rfl⟩
    refine ⟨m + 1, lt, rfl, (test m).mpr stop, fun l less => ?_⟩
    cases l with
    | zero => exact first
    | succ l => exact (goes l).mpr (before l (by omega))

theorem tested_iff (turn : ∀ i, body (trace i) = some (trace (i + 1))) {s : σ} :
    Tested cond body (trace 0) s ↔ ∃ n, s = trace n ∧ ∀ m < n, cond (trace m) = true := by
  constructor
  · intro tested
    induction tested with
    | start => exact ⟨0, rfl, fun m lt => absurd lt (Nat.not_lt_zero m)⟩
    | next _ goes step ih =>
        obtain ⟨n, rfl, before⟩ := ih
        rw [turn n, Option.some.injEq] at step
        refine ⟨n + 1, step.symm, fun m lt => ?_⟩
        rcases Nat.lt_succ_iff_lt_or_eq.mp lt with earlier | rfl
        · exact before m earlier
        · exact goes
  · rintro ⟨n, rfl, before⟩
    induction n with
    | zero => exact .start
    | succ n ih => exact .next (ih fun m lt => before m (by omega)) (before n (by omega)) (turn n)

theorem turns_eq (turn : ∀ i, body (trace i) = some (trace (i + 1))) (n : Nat) :
    turns body n (trace 0) = some (trace n) := by
  induction n with
  | zero => rfl
  | succ n ih => rw [turns, ih, Option.bind_some, turn]

end Trace

/-- Two loops that return at corresponding points of their traces return, or run out of fuel,
    together. -/
theorem returns_map {f : σ → ρ} {run : Option σ} {run' : Option ρ} {fuel : Nat}
    {stops stops' : Nat → Prop} {trace : Nat → σ} {trace' : Nat → ρ}
    (returns : ∀ s, run = some s ↔ ∃ m < fuel, stops m ∧ s = trace m)
    (returns' : ∀ t, run' = some t ↔ ∃ m < fuel, stops' m ∧ t = trace' m)
    (together : ∀ m, stops' m ↔ stops m) (same : ∀ m, trace' m = f (trace m)) :
    run' = run.map f := by
  apply Option.ext
  intro t
  rw [returns', Option.map_eq_some_iff]
  constructor
  · intro stopped
    obtain ⟨m, lt, stop, rfl⟩ := stopped
    have ended := (returns _).mpr ⟨m, lt, (together m).mp stop, rfl⟩
    exact ⟨trace m, ended, (same m).symm⟩
  · intro stopped
    obtain ⟨s, ended, rfl⟩ := stopped
    obtain ⟨m, lt, stop, rfl⟩ := (returns s).mp ended
    exact ⟨m, lt, (together m).mpr stop, (same m).symm⟩

/-- A descending sequence with finitely many values repeats one at once. -/
theorem descending_repeats [LinearOrder α] {v : Nat → α} (down : ∀ n, v (n + 1) ≤ v n)
    (finite : (Set.range v).Finite) : ∃ n, v (n + 1) = v n := by
  by_contra never
  push Not at never
  have strict : StrictAnti v := strictAnti_nat_of_succ_lt fun n => lt_of_le_of_ne (down n) (never n)
  exact Set.infinite_range_of_injective strict.injective finite

end Loops
