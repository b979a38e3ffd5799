import Mathlib.Tactic.IntervalCases
import KMeans.Threadsafe.LockProgress
import KMeans.Threadsafe.MapAccess

/-! # A `find` that overlaps with a modification

`unlock` searches the map outside of `m_global`, and nothing is promised for a search in a
map that another thread is changing. Here such a `find` may miss the entry: `unlock` then
returns at once and the mutex stays locked. In a run in which no `find` overlaps with a
modification, the threads go through states that they also reach with atomic accesses.
-/

namespace KMeans.IndexLocker

open Transition

variable {τ ι A : Type} [DecidableEq ι]

/-! ## Matched calls -/

/-- With the given indexes held, each `lock` is for an index that is not held and each
    `unlock` for one that is. -/
def Matched : Finset ι → List (Request ι) → Prop
  | _, [] => True
  | held, .lock index :: rest => index ∉ held ∧ Matched (insert index held) rest
  | held, .unlock index :: rest => index ∈ held ∧ Matched (held.erase index) rest
  | held, .size :: rest => Matched held rest

/-- The calls to come are matched, once the one under way has returned. -/
def Matching (p : Local ι A × List (Request ι)) : Prop :=
  match p.1.point.locking with
  | some i => i ∉ p.1.held ∧ Matched (insert i p.1.held) p.2
  | none => Matched p.1.held p.2

variable [DecidableEq A]

theorem Act.matching {t : τ} {g g' : Shared τ ι A} {p p' : Local ι A × List (Request ι)}
    (act : Act t g p g' p') (matching : Matching p) : Matching p' := by
  cases act with
  | lock => exact matching
  | unlock => exact matching.2
  | size => exact matching
  | inside away move =>
      cases move <;> first | exact matching | exact matching.2 | exact absurd rfl away

theorem Act.move_of_matching {t : τ} {g g' : Shared τ ι A} {p p' : Local ι A × List (Request ι)}
    (act : Act t g p g' p') (matching : Matching p) : Move matched t g p.1 g' p'.1 := by
  cases act with
  | lock => exact .callLock matching.1
  | unlock => exact .callUnlock matching.1
  | size => exact .callSize
  | inside _ move => exact move

/-! ## The threads -/

/-- The locker, the threads with their calls to come, and who is inside of the map. -/
structure Racing (τ ι A : Type) where
  shared : Shared τ ι A
  thread : τ → Local ι A × List (Request ι)
  inside : τ → Option Access
  /-- The threads whose `find` has overlapped with a modification. -/
  torn : Set τ

namespace Racing

/-- The threads without their calls to come. -/
def stretch (r : Racing τ ι A) : Shared τ ι A × (τ → Local ι A × Option Access) :=
  (r.shared, fun t => ((r.thread t).1, r.inside t))

variable [DecidableEq τ]

/-- Thread `t` begins an access. A `find` and a modification by another thread that are under
    way together overlap. -/
def begins (r : Racing τ ι A) (t : τ) (access : Access) : Racing τ ι A :=
  let inside := Function.update r.inside t (some access)
  { r with
    inside
    torn := r.torn ∪ {u | Finding ((r.thread u).1, inside u) ∧
      ∃ v ≠ u, Modifying ((r.thread v).1, inside v)} }

/-- Thread `t` goes on to `next`, outside of the map. -/
def goes (r : Racing τ ι A) (t : τ) (shared : Shared τ ι A)
    (next : Local ι A × List (Request ι)) : Racing τ ι A :=
  ⟨shared, Function.update r.thread t next, Function.update r.inside t none, r.torn \ {t}⟩

end Racing

variable [DecidableEq τ]

/-- The actions of thread `t`, which may be inside of an access. -/
inductive RacingAct (t : τ) : Racing τ ι A → Racing τ ι A → Prop
  | begin {r access} : r.inside t = none → r.shared.access (r.thread t).1.point = some access →
      RacingAct t r (r.begins t access)
  | finish {r g next} : r.inside t ≠ none → Act t r.shared (r.thread t) g next →
      RacingAct t r (r.goes t g next)
  | other {r g next} : r.inside t = none → r.shared.access (r.thread t).1.point = none →
      Act t r.shared (r.thread t) g next → RacingAct t r (r.goes t g next)
  /-- The `find` of `unlock` comes to the end of the map, and `unlock` returns. -/
  | miss {r i held rest} : t ∈ r.torn → r.thread t = (⟨.find i, held⟩, rest) →
      RacingAct t r (r.goes t r.shared (⟨.outside, held⟩, rest))

/-- All interleavings of threads that make the given calls. -/
def racing (requests : τ → List (Request ι)) : System (Racing τ ι A) where
  init r := initial r.shared (fun t => (r.thread t).1) ∧ (∀ t, (r.thread t).2 = requests t) ∧
    (∀ t, r.inside t = none) ∧ r.torn = ∅
  step r r' := ∃ t, RacingAct t r r'

/-! ## Runs without an overlap -/

section Steps

variable {r r' : Racing τ ι A} {t : τ}

omit [DecidableEq ι] [DecidableEq A] in
@[simp] theorem Racing.stretch_goes (g : Shared τ ι A) (next : Local ι A × List (Request ι)) :
    (r.goes t g next).stretch = (g, Function.update r.stretch.2 t (next.1, none)) := by
  unfold Racing.stretch Racing.goes
  congr
  funext u
  by_cases same : u = t
  · subst same
    simp
  · simp [same]

omit [DecidableEq ι] [DecidableEq A] in
@[simp] theorem Racing.stretch_begins (access : Access) : (r.begins t access).stretch =
    (r.shared, Function.update r.stretch.2 t ((r.thread t).1, some access)) := by
  unfold Racing.stretch Racing.begins
  congr
  funext u
  by_cases same : u = t
  · subst same
    simp
  · simp [same]

/-- Without torn accesses, what a thread does is an action of the locker. -/
theorem RacingAct.stretched (act : RacingAct t r r') (whole : r.torn = ∅)
    (matching : Matching (r.thread t)) : stretched.step r.stretch r'.stretch := by
  cases act with
  | @begin access outside next =>
      refine ⟨t, r.shared, _, ?_, Racing.stretch_begins access⟩
      simp only [Racing.stretch, outside]
      exact .begin next
  | @finish g next inside act =>
      obtain ⟨access, inside⟩ := Option.ne_none_iff_exists'.mp inside
      refine ⟨t, g, _, ?_, Racing.stretch_goes g next⟩
      simp only [Racing.stretch, inside]
      exact .finish (act.move_of_matching matching)
  | @other g next outside apart act =>
      refine ⟨t, g, _, ?_, Racing.stretch_goes g next⟩
      simp only [Racing.stretch, outside]
      exact .other apart (act.move_of_matching matching)
  | miss torn _ =>
      rw [whole] at torn
      cases torn

/-- Beginning an access changes nothing for the calls, ending it is an action of a call. -/
theorem RacingAct.act (act : RacingAct t r r') (whole : r.torn = ∅) :
    (r'.shared = r.shared ∧ r'.thread = r.thread) ∨
      ∃ next, Act t r.shared (r.thread t) r'.shared next ∧
        r'.thread = Function.update r.thread t next := by
  cases act with
  | begin _ _ => exact Or.inl ⟨rfl, rfl⟩
  | finish _ act | other _ _ act => exact Or.inr ⟨_, act, rfl⟩
  | miss torn _ =>
      rw [whole] at torn
      cases torn

/-- As long as whoever modifies the map is alone in it, no access is torn. -/
theorem RacingAct.whole (act : RacingAct t r r') (whole : r.torn = ∅)
    (exclusive : Exclusive r'.stretch) : r'.torn = ∅ := by
  cases act with
  | @begin access _ _ =>
      apply Set.eq_empty_of_forall_notMem
      intro u torn
      cases torn with
      | inl before =>
          rw [whole] at before
          cases before
      | inr overlap =>
          obtain ⟨finding, v, other, modifying⟩ := overlap
          exact finding.2 (exclusive v u other modifying)
  | finish _ _ | other _ _ _ | miss _ _ => simp [Racing.goes, whole]

end Steps

theorem matching_of_reachable {requests : τ → List (Request ι)}
    (calls : ∀ t, Matched ∅ (requests t))
    {r : Shared τ ι A × (τ → Local ι A × List (Request ι))}
    (reached : Reachable (programs requests) r) (t : τ) : Matching (r.2 t) := by
  apply threads_local (P := Matching) _ _ reached t
  · intro g l start t
    obtain ⟨⟨_, _, _, outside⟩, made⟩ := start
    have outside : (l t).1 = ⟨.outside, ∅⟩ := outside t
    unfold Matching
    rw [outside, made t]
    exact calls t
  · intro t g p g' p' act matching
    exact act.matching matching

/-- The state is one that atomic accesses lead to as well. -/
structure Undisturbed (requests : τ → List (Request ι)) (r : Racing τ ι A) : Prop where
  torn : r.torn = ∅
  exclusive : Exclusive r.stretch
  stretched : Reachable stretched r.stretch
  atomic : Reachable (programs requests) (r.shared, r.thread)

section Runs

variable [Fintype τ] {requests : τ → List (Request ι)} {r r' : Racing τ ι A}

theorem Undisturbed.step (calls : ∀ t, Matched ∅ (requests t))
    (undisturbed : Undisturbed requests r) (step : (racing requests).step r r')
    (apart : ¬ Collides r.stretch r'.stretch) : Undisturbed requests r' := by
  obtain ⟨t, act⟩ := step
  have matching := matching_of_reachable calls undisturbed.atomic t
  have moved := act.stretched undisturbed.torn matching
  have exclusive := undisturbed.exclusive.step undisturbed.stretched moved apart
  refine ⟨act.whole undisturbed.torn exclusive, exclusive, undisturbed.stretched.step moved, ?_⟩
  cases act.act undisturbed.torn with
  | inl still =>
      rw [still.1, still.2]
      exact undisturbed.atomic
  | inr called =>
      obtain ⟨next, called, thread⟩ := called
      rw [thread]
      exact undisturbed.atomic.step ⟨t, _, next, called, rfl⟩

theorem undisturbed_of_apart (calls : ∀ t, Matched ∅ (requests t)) {n : Nat}
    {run : Nat → Racing τ ι A} (isRun : IsRun (racing requests) n run)
    (apart : ∀ i < n, ¬ Collides (run i).stretch (run (i + 1)).stretch) :
    ∀ i ≤ n, Undisturbed requests (run i) := by
  intro i le
  apply isRun.carry (Undisturbed requests) (Nat.zero_le i) le
  · obtain ⟨start, made, outside, whole⟩ := isRun.start
    refine ⟨whole, ?_, .init ⟨start, outside⟩, .init ⟨start, made⟩⟩
    intro t u _ _
    exact outside u
  · intro l _ before step undisturbed
    exact undisturbed.step calls step (apart l (by omega))

end Runs

/-! ## The guarantee -/

/-- Thread `t` has an enabled action. -/
def Racing.CanStep (r : Racing τ ι A) (t : τ) : Prop := ∃ r', RacingAct t r r'

/-- A thread that can act can also do so when its accesses take time. -/
theorem Racing.canStep_of_act {r : Racing τ ι A} {t : τ} {g : Shared τ ι A}
    {next : Local ι A × List (Request ι)} (act : Act t r.shared (r.thread t) g next) :
    r.CanStep t := by
  by_cases outside : r.inside t = none
  · cases reads : r.shared.access (r.thread t).1.point with
    | none => exact ⟨_, .other outside reads act⟩
    | some access => exact ⟨_, .begin outside reads⟩
  · exact ⟨_, .finish outside act⟩

theorem Racing.canStep_of_move {r : Racing τ ι A} {t : τ} (away : (r.thread t).1.point ≠ .outside)
    (can : IndexLocker.CanStep matched (r.shared, fun t => (r.thread t).1) t) : r.CanStep t := by
  obtain ⟨g, next, move⟩ := can
  have act : Act t r.shared (r.thread t) g (next, (r.thread t).2) := .inside away move
  exact canStep_of_act act

/-- What `Independent` says, of threads that may be inside of an access. -/
structure Racing.Independent (r : Racing τ ι A) : Prop where
  waiting : ∀ t i a, (r.thread t).1.point = .lockMtx i a → r.shared.m_global ≠ some t
  owner : ∀ t, r.shared.m_global = some t → r.CanStep t
  blocked : ∀ t j, (r.thread t).1.point.locking = some j → ¬ r.CanStep t →
    (∃ u ≠ t, r.shared.m_global = some u) ∨ ∃ u ≠ t, r.shared.OwnsMutex j u

section Guarantee

variable [Fintype τ] {requests : τ → List (Request ι)}

theorem Undisturbed.independent [Infinite A] {r : Racing τ ι A}
    (undisturbed : Undisturbed requests r) : r.Independent := by
  have reached : Reachable (system matched) (r.shared, fun t => (r.thread t).1) :=
    unstretched undisturbed.stretched
  have inv := inv_reachable reached
  have atomic := index_independence.1 _ reached
  constructor
  · intro t i a at_t
    exact atomic.waiting t i a at_t
  · intro t owner
    apply Racing.canStep_of_move _ (atomic.owner t owner)
    intro outside
    have inside : (r.thread t).1.point.inGlobal = true := (inv.global t).mp owner
    rw [outside] at inside
    cases inside
  · intro t j locking stuck
    apply atomic.blocked t j locking
    intro can
    apply stuck
    apply Racing.canStep_of_move _ can
    intro outside
    rw [outside] at locking
    cases locking

end Guarantee

/-! ## Two threads -/

section Stuck

variable {r : Racing τ ι A} {t : τ}

theorem Racing.not_canStep_of_finished (finished : Finished (r.thread t))
    (outside : r.inside t = none) : ¬ r.CanStep t := by
  obtain ⟨point, rest⟩ := finished
  intro can
  obtain ⟨r', act⟩ := can
  cases act with
  | begin _ reads => simp [point, Shared.access] at reads
  | finish inside _ => exact inside outside
  | miss _ here => simp [here] at point
  | other _ _ act =>
      generalize r.thread t = p at point rest act
      cases act with
      | lock | unlock | size => simp at rest
      | inside away _ => exact away point

/-- A thread cannot take a mutex that is locked. -/
theorem Racing.not_canStep_of_waits {i : ι} {a : A} (waits : (r.thread t).1.point = .lockMtx i a)
    (owned : ∀ o, r.shared.node a = some o → o.mtx ≠ none) (outside : r.inside t = none) :
    ¬ r.CanStep t := by
  intro can
  obtain ⟨r', act⟩ := can
  cases act with
  | begin _ reads => simp [waits, Shared.access] at reads
  | finish inside _ => exact inside outside
  | miss _ here => simp [here] at waits
  | other _ _ act =>
      generalize r.thread t = p at waits act
      cases act with
      | lock | unlock | size => cases waits
      | @inside p _ _ _ _ move =>
          obtain ⟨point, held⟩ := p
          obtain rfl : point = .lockMtx i a := waits
          cases move with
          | lockMtx there free => exact owned _ there free

end Stuck

private abbrev first : Fin 2 := ⟨0, Nat.zero_lt_two⟩

private abbrev second : Fin 2 := ⟨1, Nat.one_lt_two⟩

/-- The first thread takes index 0 and then index 1, the second one takes index 1. -/
private def inTurn : Fin 2 → List (Request Nat)
  | ⟨0, _⟩ => [.lock 0, .unlock 0, .lock 1, .unlock 1]
  | ⟨1, _⟩ => [.lock 1, .unlock 1]

private abbrev Turns := Racing (Fin 2) Nat Nat

private def setNode (g : Shared (Fin 2) Nat Nat) (a : Nat) (o : SyncObject (Fin 2)) :
    Shared (Fin 2) Nat Nat := { g with node := Function.update g.node a (some o) }

/-- The second thread takes index 1. While the first one inserts the entry of index 0, the `find`
    of the second one misses. The first one takes index 0 and leaves it, and then waits for
    index 1. -/
private def missing : List (Turns → Turns) := [
  fun r => r.goes second r.shared (⟨.lockGlobal 1, ∅⟩, [.unlock 1]),
  fun r => r.goes second { r.shared with m_global := some second } (⟨.subscript 1, ∅⟩, [.unlock 1]),
  fun r => r.begins second .insertion,
  fun r => r.goes second { r.shared with
      m_lockers := r.shared.m_lockers.insert 1 1
      node := Function.update r.shared.node 1 (some .make) } (⟨.increment 1 1, ∅⟩, [.unlock 1]),
  fun r => r.goes second (setNode r.shared 1 ⟨none, 1⟩) (⟨.tryLock 1 1, ∅⟩, [.unlock 1]),
  fun r => r.goes second (setNode r.shared 1 ⟨some second, 1⟩) (⟨.enter 1 1, ∅⟩, [.unlock 1]),
  fun r => r.goes second { r.shared with m_global := none } (⟨.outside, {1}⟩, [.unlock 1]),
  fun r => r.goes first r.shared (⟨.lockGlobal 0, ∅⟩, [.unlock 0, .lock 1, .unlock 1]),
  fun r => r.goes first { r.shared with m_global := some first }
    (⟨.subscript 0, ∅⟩, [.unlock 0, .lock 1, .unlock 1]),
  fun r => r.begins first .insertion,
  fun r => r.goes second r.shared (⟨.find 1, ∅⟩, []),
  fun r => r.begins second .lookup,
  fun r => r.goes second r.shared (⟨.outside, ∅⟩, []),
  fun r => r.goes first { r.shared with
      m_lockers := r.shared.m_lockers.insert 0 0
      node := Function.update r.shared.node 0 (some .make) }
    (⟨.increment 0 0, ∅⟩, [.unlock 0, .lock 1, .unlock 1]),
  fun r => r.goes first (setNode r.shared 0 ⟨none, 1⟩)
    (⟨.tryLock 0 0, ∅⟩, [.unlock 0, .lock 1, .unlock 1]),
  fun r => r.goes first (setNode r.shared 0 ⟨some first, 1⟩)
    (⟨.enter 0 0, ∅⟩, [.unlock 0, .lock 1, .unlock 1]),
  fun r => r.goes first { r.shared with m_global := none }
    (⟨.outside, {0}⟩, [.unlock 0, .lock 1, .unlock 1]),
  fun r => r.goes first r.shared (⟨.find 0, ∅⟩, [.lock 1, .unlock 1]),
  fun r => r.begins first .lookup,
  fun r => r.goes first r.shared (⟨.unlockMtx 0 0, ∅⟩, [.lock 1, .unlock 1]),
  fun r => r.goes first (setNode r.shared 0 ⟨none, 1⟩)
    (⟨.relockGlobal 0 0, ∅⟩, [.lock 1, .unlock 1]),
  fun r => r.goes first { r.shared with m_global := some first }
    (⟨.decrement 0 0, ∅⟩, [.lock 1, .unlock 1]),
  fun r => r.goes first (setNode r.shared 0 ⟨none, 0⟩) (⟨.compare 0 0, ∅⟩, [.lock 1, .unlock 1]),
  fun r => r.goes first r.shared (⟨.erase 0 0, ∅⟩, [.lock 1, .unlock 1]),
  fun r => r.begins first .erase,
  fun r => r.goes first { r.shared with
      m_lockers := r.shared.m_lockers.erase 0
      node := Function.update r.shared.node 0 none } (⟨.leave, ∅⟩, [.lock 1, .unlock 1]),
  fun r => r.goes first { r.shared with m_global := none } (⟨.outside, ∅⟩, [.lock 1, .unlock 1]),
  fun r => r.goes first r.shared (⟨.lockGlobal 1, ∅⟩, [.unlock 1]),
  fun r => r.goes first { r.shared with m_global := some first } (⟨.subscript 1, ∅⟩, [.unlock 1]),
  fun r => r.begins first .lookup,
  fun r => r.goes first r.shared (⟨.increment 1 1, ∅⟩, [.unlock 1]),
  fun r => r.goes first (setNode r.shared 1 ⟨some second, 2⟩) (⟨.tryLock 1 1, ∅⟩, [.unlock 1]),
  fun r => r.goes first r.shared (⟨.giveWay 1 1, ∅⟩, [.unlock 1]),
  fun r => r.goes first { r.shared with m_global := none } (⟨.lockMtx 1 1, ∅⟩, [.unlock 1])]

private def inTurnStart : Turns :=
  ⟨⟨none, ∅, fun _ => none⟩, fun t => (⟨.outside, ∅⟩, inTurn t), fun _ => none, ∅⟩

/-- The state after the first `i` steps. -/
private def afterSteps (i : Nat) : Turns := (missing.take i).foldl (fun r step => step r) inTurnStart

private theorem afterSteps_isRun : IsRun (racing inTurn) 34 afterSteps := by
  refine ⟨⟨⟨rfl, rfl, fun _ => rfl, fun _ => rfl⟩, fun _ => rfl, fun _ => rfl, rfl⟩, fun i lt => ?_⟩
  interval_cases i
  · exact ⟨1, .other rfl rfl .lock⟩
  · exact ⟨1, .other rfl rfl (.inside nofun (.lockGlobal rfl))⟩
  · exact ⟨1, .begin rfl rfl⟩
  · exact ⟨1, .finish nofun (.inside nofun (.insert rfl rfl))⟩
  · exact ⟨1, .other rfl rfl (.inside nofun (.increment (o := .make) rfl))⟩
  · exact ⟨1, .other rfl rfl (.inside nofun (.tryLock (o := ⟨none, 1⟩) rfl rfl))⟩
  · exact ⟨1, .other rfl rfl (.inside nofun .enter)⟩
  · exact ⟨0, .other rfl rfl .lock⟩
  · exact ⟨0, .other rfl rfl (.inside nofun (.lockGlobal rfl))⟩
  · exact ⟨0, .begin rfl rfl⟩
  · exact ⟨1, .other rfl rfl .unlock⟩
  · exact ⟨1, .begin rfl rfl⟩
  · exact ⟨1, .miss (Or.inr ⟨⟨⟨1, rfl⟩, nofun⟩, 0, nofun, .insertion, rfl, trivial⟩) rfl⟩
  · exact ⟨0, .finish nofun (.inside nofun (.insert rfl rfl))⟩
  · exact ⟨0, .other rfl rfl (.inside nofun (.increment (o := .make) rfl))⟩
  · exact ⟨0, .other rfl rfl (.inside nofun (.tryLock (o := ⟨none, 1⟩) rfl rfl))⟩
  · exact ⟨0, .other rfl rfl (.inside nofun .enter)⟩
  · exact ⟨0, .other rfl rfl .unlock⟩
  · exact ⟨0, .begin rfl rfl⟩
  · exact ⟨0, .finish nofun (.inside nofun (.find rfl))⟩
  · exact ⟨0, .other rfl rfl (.inside nofun (.unlockMtx (o := ⟨some 0, 1⟩) rfl))⟩
  · exact ⟨0, .other rfl rfl (.inside nofun (.relockGlobal rfl))⟩
  · exact ⟨0, .other rfl rfl (.inside nofun (.decrement (o := ⟨none, 1⟩) rfl))⟩
  · exact ⟨0, .other rfl rfl (.inside nofun (.compareZero (o := ⟨none, 0⟩) rfl rfl))⟩
  · exact ⟨0, .begin rfl rfl⟩
  · exact ⟨0, .finish nofun (.inside nofun .erase)⟩
  · exact ⟨0, .other rfl rfl (.inside nofun .leave)⟩
  · exact ⟨0, .other rfl rfl .lock⟩
  · exact ⟨0, .other rfl rfl (.inside nofun (.lockGlobal rfl))⟩
  · exact ⟨0, .begin rfl rfl⟩
  · exact ⟨0, .finish nofun (.inside nofun (.subscript rfl))⟩
  · exact ⟨0, .other rfl rfl (.inside nofun (.increment (o := ⟨some 1, 1⟩) rfl))⟩
  · exact ⟨0, .other rfl rfl (.inside nofun (.tryLockFails rfl))⟩
  · exact ⟨0, .other rfl rfl (.inside nofun .giveWay)⟩

private theorem inTurn_single (t : Fin 2) : Single none (inTurn t) := by
  match t with
  | ⟨0, _⟩ => exact ⟨rfl, rfl, trivial⟩
  | ⟨1, _⟩ => exact ⟨rfl, trivial⟩

private theorem inTurn_matched (t : Fin 2) : Matched ∅ (inTurn t) := by
  match t with
  | ⟨0, _⟩ => simp [inTurn, Matched]
  | ⟨1, _⟩ => simp [inTurn, Matched]

/-- As long as no `find` of `unlock` overlaps with a modification of the map, a thread waits
    for `m_global` or for its own index only, and threads that hold one index at a time do not
    deadlock. -/
theorem independence_of_apart [Fintype τ] [Infinite A] {requests : τ → List (Request ι)}
    (calls : ∀ t, Matched ∅ (requests t)) {n : Nat} {run : Nat → Racing τ ι A}
    (isRun : IsRun (racing requests) n run)
    (apart : ∀ i < n, ¬ Collides (run i).stretch (run (i + 1)).stretch) :
    ∀ i ≤ n, (run i).Independent ∧
      ((∀ t, Single none (requests t)) → (∃ t, ¬ Finished ((run i).thread t)) →
        ∃ r', (racing requests).step (run i) r') := by
  intro i le
  have undisturbed := undisturbed_of_apart calls isRun apart i le
  refine ⟨undisturbed.independent, ?_⟩
  intro single unfinished
  obtain ⟨_, t, _, _, act, _⟩ := index_independence.2 requests single _ undisturbed.atomic unfinished
  obtain ⟨r', step⟩ := Racing.canStep_of_act act
  exact ⟨r', t, step⟩

theorem independence_of_apart_two_threads : ∃ run : Nat → Turns, IsRun (racing inTurn) 11 run ∧
    ((run 11).thread 1).1.point = .find 1 ∧ (run 11).inside 0 = some .insertion ∧
    ∀ i ≤ 11, (run i).Independent ∧ ((∀ t, Single none (inTurn t)) →
      (∃ t, ¬ Finished ((run i).thread t)) → ∃ r', (racing inTurn).step (run i) r') := by
  have isRun : IsRun (racing inTurn) 11 afterSteps :=
    ⟨afterSteps_isRun.start, fun i lt => afterSteps_isRun.next i (by omega)⟩
  refine ⟨afterSteps, isRun, rfl, rfl, independence_of_apart inTurn_matched isRun ?_⟩
  intro i lt collides
  have elsewhere : ∀ t j, ((afterSteps i).stretch.2 t).1.point ≠ .find j := by
    intro t
    interval_cases i <;> match t with | ⟨0, _⟩ | ⟨1, _⟩ => exact nofun
  obtain ⟨t, u, _, _, which⟩ := collides
  cases which with
  | inl finding => exact elsewhere t _ finding.1.choose_spec
  | inr modifying => exact elsewhere u _ modifying.2.1.choose_spec

/-- The `find` of thread 1 overlaps with the insertion and misses, and the mutex of index 1 stays
    locked. Thread 1 has then finished, `m_global` is free, and thread 0 waits for ever. -/
theorem missed_find_deadlocks : ¬ ∀ requests : Fin 2 → List (Request Nat),
    (∀ t, Matched ∅ (requests t)) → ∀ r : Turns, Reachable (racing requests) r → r.Independent ∧
      ((∀ t, Single none (requests t)) → (∃ t, ¬ Finished (r.thread t)) →
        ∃ r', (racing requests).step r r') := by
  intro claim
  have reached := afterSteps_isRun.reachable 34 le_rfl
  have stuck : ∀ t, ¬ (afterSteps 34).CanStep t := by
    intro t
    match t with
    | ⟨0, _⟩ =>
        apply Racing.not_canStep_of_waits (i := 1) (a := 1) rfl _ rfl
        intro o there free
        cases there
        cases free
    | ⟨1, _⟩ => exact Racing.not_canStep_of_finished ⟨rfl, rfl⟩ rfl
  obtain ⟨r', t, act⟩ := (claim inTurn inTurn_matched _ reached).2 inTurn_single
    ⟨0, fun finished => nomatch finished.2⟩
  exact stuck t ⟨r', act⟩

end KMeans.IndexLocker
