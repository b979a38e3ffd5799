import Mathlib.Data.Finmap
import KMeans.General.Transition

/-! # `locks::index_locker<T>`

One mutex for each index in use. `lock` creates the mutex of an index on demand and
counts its users, and the last `unlock` erases it. The map holds the address of the
node in which an entry lives; a thread keeps that address from `m_lockers[index]` or
`m_lockers.find(index)` on, whether the node still exists or not, and a new node may
be given the address of an erased one.

The program points name the next action of a thread. Every access to the map is one
action here, also the `find` of `unlock`, for which the code does not lock `m_global`.
The counter is an `int` that no number of threads makes overflow here.
-/

namespace KMeans.IndexLocker

open Transition

variable {τ ι A : Type}

/-- `struct sync_object`. -/
structure SyncObject (τ : Type) where
  /-- The owner of the mutex. -/
  mtx : Option τ
  catch_cnt : Int

/-- `sync_object()`. -/
def SyncObject.make : SyncObject τ := ⟨none, 0⟩

/-- The members of an `index_locker`, and the nodes of its map. -/
structure Shared (τ ι A : Type) where
  /-- The owner of `m_global`. -/
  m_global : Option τ
  m_lockers : Finmap fun _ : ι => A
  node : A → Option (SyncObject τ)

/-- What a thread does next. -/
inductive Point (ι A : Type)
  /-- Outside of `lock`, `unlock` and `size`. -/
  | outside
  /-- `lock`: `m_global.lock()` -/
  | lockGlobal (index : ι)
  /-- `sync_object &cur_object = m_lockers[index]` -/
  | subscript (index : ι)
  /-- `cur_object.catch_cnt++` -/
  | increment (index : ι) (cur_object : A)
  /-- `cur_object.mtx.try_lock()` -/
  | tryLock (index : ι) (cur_object : A)
  /-- `m_global.unlock()`, after `try_lock` has failed -/
  | giveWay (index : ι) (cur_object : A)
  /-- `cur_object.mtx.lock()` -/
  | lockMtx (index : ι) (cur_object : A)
  /-- `m_global.unlock()`, after `try_lock` has succeeded -/
  | enter (index : ι) (cur_object : A)
  /-- `unlock`: `m_lockers.find(index)` -/
  | find (index : ι)
  /-- `cur_lock->second.mtx.unlock()` -/
  | unlockMtx (index : ι) (cur_lock : A)
  /-- `m_global.lock()` -/
  | relockGlobal (index : ι) (cur_lock : A)
  /-- `cur_lock->second.catch_cnt--` -/
  | decrement (index : ι) (cur_lock : A)
  /-- `cur_lock->second.catch_cnt == 0` -/
  | compare (index : ι) (cur_lock : A)
  /-- `m_lockers.erase(cur_lock)` -/
  | erase (index : ι) (cur_lock : A)
  /-- `m_global.unlock()` at the end of `unlock` -/
  | leave
  /-- `size`: `std::lock_guard<std::mutex> lck(m_global)` -/
  | sizeLock
  /-- `m_lockers.size()` -/
  | sizeRead
  /-- The end of `lck`, before `size` returns the value -/
  | sizeReturn (size : Nat)

/-- A thread: its next action, and the indexes between the return of its `lock` and its
    call of `unlock`. -/
structure Local (ι A : Type) where
  point : Point ι A
  held : Finset ι

variable [DecidableEq ι] [DecidableEq A]

/-- The actions of thread `t`. `calls` says when a thread may call `lock`; it calls
    `unlock` only for an index it holds. A `try_lock` may also fail spuriously. -/
inductive Move (calls : Local ι A → ι → Prop) (t : τ) :
    Shared τ ι A → Local ι A → Shared τ ι A → Local ι A → Prop
  | callLock {g held i} : calls ⟨.outside, held⟩ i →
      Move calls t g ⟨.outside, held⟩ g ⟨.lockGlobal i, held⟩
  | lockGlobal {g held i} : g.m_global = none →
      Move calls t g ⟨.lockGlobal i, held⟩ { g with m_global := some t } ⟨.subscript i, held⟩
  | subscript {g held i a} : g.m_lockers.lookup i = some a →
      Move calls t g ⟨.subscript i, held⟩ g ⟨.increment i a, held⟩
  | insert {g held i a} : g.m_lockers.lookup i = none → g.node a = none →
      Move calls t g ⟨.subscript i, held⟩
        { g with
          m_lockers := g.m_lockers.insert i a
          node := Function.update g.node a (some .make) }
        ⟨.increment i a, held⟩
  | increment {g held i a o} : g.node a = some o →
      Move calls t g ⟨.increment i a, held⟩
        { g with node := Function.update g.node a (some { o with catch_cnt := o.catch_cnt + 1 }) }
        ⟨.tryLock i a, held⟩
  | tryLock {g held i a o} : g.node a = some o → o.mtx = none →
      Move calls t g ⟨.tryLock i a, held⟩
        { g with node := Function.update g.node a (some { o with mtx := some t }) }
        ⟨.enter i a, held⟩
  | tryLockFails {g held i a} : (g.node a).isSome →
      Move calls t g ⟨.tryLock i a, held⟩ g ⟨.giveWay i a, held⟩
  | giveWay {g held i a} :
      Move calls t g ⟨.giveWay i a, held⟩ { g with m_global := none } ⟨.lockMtx i a, held⟩
  | lockMtx {g held i a o} : g.node a = some o → o.mtx = none →
      Move calls t g ⟨.lockMtx i a, held⟩
        { g with node := Function.update g.node a (some { o with mtx := some t }) }
        ⟨.outside, insert i held⟩
  | enter {g held i a} :
      Move calls t g ⟨.enter i a, held⟩ { g with m_global := none } ⟨.outside, insert i held⟩
  | callUnlock {g held i} : i ∈ held →
      Move calls t g ⟨.outside, held⟩ g ⟨.find i, held.erase i⟩
  | find {g held i a} : g.m_lockers.lookup i = some a →
      Move calls t g ⟨.find i, held⟩ g ⟨.unlockMtx i a, held⟩
  | findNothing {g held i} : g.m_lockers.lookup i = none →
      Move calls t g ⟨.find i, held⟩ g ⟨.outside, held⟩
  | unlockMtx {g held i a o} : g.node a = some o →
      Move calls t g ⟨.unlockMtx i a, held⟩
        { g with node := Function.update g.node a (some { o with mtx := none }) }
        ⟨.relockGlobal i a, held⟩
  | relockGlobal {g held i a} : g.m_global = none →
      Move calls t g ⟨.relockGlobal i a, held⟩ { g with m_global := some t } ⟨.decrement i a, held⟩
  | decrement {g held i a o} : g.node a = some o →
      Move calls t g ⟨.decrement i a, held⟩
        { g with node := Function.update g.node a (some { o with catch_cnt := o.catch_cnt - 1 }) }
        ⟨.compare i a, held⟩
  | compareZero {g held i a o} : g.node a = some o → o.catch_cnt = 0 →
      Move calls t g ⟨.compare i a, held⟩ g ⟨.erase i a, held⟩
  | compareNonzero {g held i a o} : g.node a = some o → o.catch_cnt ≠ 0 →
      Move calls t g ⟨.compare i a, held⟩ g ⟨.leave, held⟩
  | erase {g held i a} :
      Move calls t g ⟨.erase i a, held⟩
        { g with
          m_lockers := g.m_lockers.erase i
          node := Function.update g.node a none }
        ⟨.leave, held⟩
  | leave {g held} :
      Move calls t g ⟨.leave, held⟩ { g with m_global := none } ⟨.outside, held⟩
  | callSize {g held} : Move calls t g ⟨.outside, held⟩ g ⟨.sizeLock, held⟩
  | sizeLock {g held} : g.m_global = none →
      Move calls t g ⟨.sizeLock, held⟩ { g with m_global := some t } ⟨.sizeRead, held⟩
  | sizeRead {g held} :
      Move calls t g ⟨.sizeRead, held⟩ g ⟨.sizeReturn g.m_lockers.keys.card, held⟩
  | sizeReturn {g held n} :
      Move calls t g ⟨.sizeReturn n, held⟩ { g with m_global := none } ⟨.outside, held⟩

/-- No entry, nothing locked, and every thread outside with nothing held. -/
def initial (g : Shared τ ι A) (l : τ → Local ι A) : Prop :=
  g.m_global = none ∧ g.m_lockers = ∅ ∧ (∀ a, g.node a = none) ∧ ∀ t, l t = ⟨.outside, ∅⟩

/-- Any number of threads at work on one `index_locker`. -/
def system [DecidableEq τ] (calls : Local ι A → ι → Prop) :
    System (Shared τ ι A × (τ → Local ι A)) :=
  threads initial (Move calls)

/-! ## What a program point says about an index -/

/-- The index that `lock` or `unlock` works on. -/
def Point.index : Point ι A → Option ι
  | .lockGlobal i | .subscript i | .increment i _ | .tryLock i _ | .giveWay i _ => some i
  | .lockMtx i _ | .enter i _ | .find i | .unlockMtx i _ | .relockGlobal i _ => some i
  | .decrement i _ | .compare i _ | .erase i _ => some i
  | _ => none

/-- The node of index `i` that the thread still uses or is blocked on, through the
    reference or the iterator it has. -/
def Point.reference (i : ι) : Point ι A → Option A
  | .increment j a | .tryLock j a | .giveWay j a | .lockMtx j a => if j = i then some a else none
  | .unlockMtx j a | .relockGlobal j a | .decrement j a => if j = i then some a else none
  | .compare j a | .erase j a => if j = i then some a else none
  | _ => none

/-- Past the increment in `lock(i)` and before the decrement in `unlock(i)`. -/
def Local.counted (i : ι) (l : Local ι A) : Prop :=
  i ∈ l.held ∨ match l.point with
    | .tryLock j _ | .giveWay j _ | .lockMtx j _ | .enter j _ => j = i
    | .find j | .unlockMtx j _ | .relockGlobal j _ | .decrement j _ => j = i
    | _ => False

instance (i : ι) : DecidablePred (Local.counted (A := A) i) := fun l => by
  unfold Local.counted
  cases l.point <;> infer_instance

/-- Neither inside nor between a `lock` and its `unlock`. -/
def Local.idle (l : Local ι A) : Prop := l.point.index = none ∧ l.point ≠ .leave ∧ l.held = ∅

/-- Calls are matched: no thread calls `lock` for an index that it holds. -/
def matched (l : Local ι A) (i : ι) : Prop := i ∉ l.held

end KMeans.IndexLocker
