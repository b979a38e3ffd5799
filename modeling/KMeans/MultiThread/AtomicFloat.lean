import Mathlib.Algebra.BigOperators.Ring.Finset
import Mathlib.Algebra.Order.Ring.Rat
import Mathlib.Tactic.Linarith
import KMeans.General.Monitor

/-! # `AtomicFloat`

A float with a mutex of its own. An operator reads or writes `m_value` in single actions,
between the locking and the unlocking of `m_mutex`; `+=` reads it and writes it. For its
callers each operator is one action, so no `+=` of any thread is lost. As before, the float
is read as an exact rational.
-/

namespace KMeans

open Transition Monitor

namespace AtomicFloat

/-- The operators with the parameter `_val`. -/
inductive Request
  /-- `operator ==` -/
  | eq (_val : ℚ)
  /-- `operator !=` -/
  | ne (_val : ℚ)
  /-- `operator +=` -/
  | addAssign (_val : ℚ)
  /-- `operator =` -/
  | assign (_val : ℚ)
  /-- `operator float` -/
  | read
  deriving DecidableEq

/-- What an operator returns. -/
inductive Reply
  | bool (result : Bool)
  /-- `*this` -/
  | self
  | float (result : ℚ)
  deriving DecidableEq

/-- What a thread in an operator does next, while it has locked `m_mutex`. -/
inductive Place
  /-- `m_value == _val` -/
  | eq (_val : ℚ)
  /-- `m_value != _val` -/
  | ne (_val : ℚ)
  /-- The reading of `m_value`, of `m_value += _val` -/
  | load (_val : ℚ)
  /-- The writing of the sum, of the same -/
  | store (sum : ℚ)
  /-- `m_value = _val` -/
  | assign (_val : ℚ)
  /-- `return m_value` -/
  | read
  /-- The end of `lk`. -/
  | done (reply : Reply)

/-- The first action of an operator. -/
def Request.enter : Request → Place
  | eq _val => .eq _val
  | ne _val => .ne _val
  | addAssign _val => .load _val
  | assign _val => .assign _val
  | read => .read

namespace Place

def result : Place → Option Reply
  | done reply => some reply
  | _ => none

/-- The number of actions left. -/
def rank : Place → Nat
  | done _ => 0
  | load _ => 2
  | _ => 1

def step (m_value : ℚ) : Place → Option (ℚ × Place)
  | eq _val => some (m_value, .done (.bool (m_value == _val)))
  | ne _val => some (m_value, .done (.bool (m_value != _val)))
  | load _val => some (m_value, .store (m_value + _val))
  | store sum => some (sum, .done .self)
  | assign _val => some (_val, .done .self)
  | read => some (m_value, .done (.float m_value))
  | done _ => none

end Place

/-- `class AtomicFloat`, constructed with `_val`. -/
def object (_val : ℚ) : Object ℚ Place Request Reply where
  fresh := _val
  enter := Request.enter
  act s b s' b' := b.step s = some (s', b')
  result := Place.result

/-- The operators, each in one action. -/
def call (m_value : ℚ) : Request → ℚ × Reply
  | .eq _val => (m_value, .bool (m_value == _val))
  | .ne _val => (m_value, .bool (m_value != _val))
  | .addAssign _val => (m_value + _val, .self)
  | .assign _val => (_val, .self)
  | .read => (m_value, .float m_value)

section Calls

variable {_val s s' : ℚ} {b b' : Place} {reply : Reply}

theorem rank_falls (act : (object _val).act s b s' b') : b'.rank < b.rank := by
  have act : b.step s = some (s', b') := act
  cases b with
  | done _ => cases act
  | eq _ | ne _ | load _ | store _ | assign _ | read =>
      cases act
      simp [Place.rank]

theorem finishes_done {r : Reply} :
    (object _val).Finishes s (.done r) s' reply ↔ (s, r) = (s', reply) := by
  rw [Object.finishes_iff]
  simp [object, Place.result, Place.step, and_comm]

theorem finishes_of_step {s₁ : ℚ} {b₁ : Place} (step : b.step s = some (s₁, b₁)) :
    (object _val).Finishes s b s' reply ↔ (object _val).Finishes s₁ b₁ s' reply := by
  have going : b.result = none := by
    cases b with
    | done _ => cases step
    | _ => rfl
  rw [Object.finishes_iff]
  simp [object, going, step]

/-- The actions of an operator are what it does in one. -/
theorem performs_iff {request : Request} :
    (object _val).Performs s request s' reply ↔ call s request = (s', reply) := by
  unfold Object.Performs
  cases request with
  | addAssign other =>
      change (object _val).Finishes s (.load other) s' reply ↔ _
      rw [finishes_of_step rfl, finishes_of_step rfl, finishes_done]
      rfl
  | eq other | ne other | assign other | read =>
      rw [finishes_of_step rfl, finishes_done]
      rfl

theorem acts_of_going (going : b.result = none) : ∃ s' b', (object _val).act s b s' b' := by
  cases b with
  | done _ => cases going
  | eq _ | ne _ | load _ | store _ | assign _ | read => exact ⟨_, _, rfl⟩

end Calls

/-! ## Threads that add -/

/-- A thread with the operators that it still calls, and what it got from those before. -/
structure Caller where
  requests : List Request
  replies : List Reply

/-- Threads that call the operators of one `AtomicFloat`, each in the order of its list. -/
def callers {τ : Type} (jobs : τ → List Request) : Client τ Unit Caller Request Reply where
  init _ l := ∀ t, l t = ⟨jobs t, []⟩
  own _ _ _ _ _ := False
  request l := l.requests.head?
  resume l reply := ⟨l.requests.tail, l.replies ++ [reply]⟩

/-- What the calls of a list add to `m_value`. -/
def addends : List Request → ℚ
  | [] => 0
  | .addAssign _val :: rest => _val + addends rest
  | _ :: rest => addends rest

section Threads

variable {τ : Type} [DecidableEq τ] {jobs : τ → List Request} {_val : ℚ}

theorem call_addends {request : Request} (plain : ∀ v, request ≠ .assign v) (m_value : ℚ)
    (rest : List Request) :
    (call m_value request).1 + addends rest = m_value + addends (request :: rest) := by
  cases request with
  | addAssign v => exact add_assoc m_value v (addends rest)
  | assign v => exact absurd rfl (plain v)
  | eq _ | ne _ | read => rfl

omit [DecidableEq τ] in
theorem exists_cons_of_asks {l : Caller} {request : Request}
    (asks : (callers jobs).request l = some request) : ∃ rest, l.requests = request :: rest := by
  cases listed : l.requests with
  | nil => simp [callers, listed] at asks
  | cons first rest =>
      have same : first = request := by simpa [callers, listed] using asks
      exact ⟨rest, by rw [same]⟩

variable [Fintype τ]

/-- What has been added and what is still to be added make up the same sum all the time. -/
structure Adds (jobs : τ → List Request) (_val m_value : ℚ) (l : τ → Caller) : Prop where
  plain : ∀ t v, .assign v ∉ (l t).requests
  sum : m_value + ∑ t, addends (l t).requests = _val + ∑ t, addends (jobs t)

theorem Adds.move {g : Unit} {m_value : ℚ} {l : τ → Caller} {t : τ} {x : Unit × ℚ} {next : Caller}
    (adds : Adds jobs _val m_value l)
    (move : AtomicMove (callers jobs) (object _val).Performs t (g, m_value) (l t) x next) :
    Adds jobs _val x.2 (Function.update l t next) := by
  generalize here : l t = now at move
  cases move with
  | own own => exact own.elim
  | @call _ _ m_value' _ request reply asks performed =>
      have called := performs_iff.mp performed
      obtain ⟨rest, requests⟩ := exists_cons_of_asks asks
      rw [← here] at requests
      have left : ((callers jobs).resume now reply).requests = rest := by
        simp [callers, ← here, requests]
      have kept := adds.plain t
      rw [requests] at kept
      constructor
      · intro u v
        by_cases same : u = t
        · subst same
          rw [Function.update_self, left]
          exact fun member => kept v (List.mem_cons_of_mem request member)
        · rw [Function.update_of_ne same]
          exact adds.plain u v
      · have total := sum_update (fun l : Caller => addends l.requests) l t
          ((callers jobs).resume now reply)
        have one := call_addends (fun v same => kept v (same ▸ List.mem_cons_self)) m_value rest
        have before := adds.sum
        rw [called] at one
        rw [left, requests] at total
        simp only at before one ⊢
        linarith

theorem adds_of_reachable (plain : ∀ t v, .assign v ∉ jobs t) {s : (Unit × ℚ) × (τ → Caller)}
    (reached : Reachable (atomic (callers jobs) _val (object _val).Performs) s) :
    Adds jobs _val s.1.2 s.2 := by
  induction reached with
  | @init s initial =>
      obtain ⟨start, same⟩ := initial
      refine ⟨?_, ?_⟩
      · intro t v
        rw [start t]
        exact plain t v
      · rw [same]
        simp only [start _]
  | step _ move ih =>
      obtain ⟨t, x, next, move, rfl⟩ := move
      exact ih.move move

/-- The actions that a thread has left. -/
def actions : Point Caller Place → Nat
  | .outside l => 4 * l.requests.length
  | .inside l b => 4 * l.requests.tail.length + b.rank + 1

omit [DecidableEq τ] [Fintype τ] in
theorem actions_lt {t : τ} {x x' : Shared τ Unit ℚ} {p p' : Point Caller Place}
    (move : LockedMove (callers jobs) (object _val) t x p x' p') : actions p' < actions p := by
  cases move with
  | own own => exact own.elim
  | @lock _ _ l request asks =>
      obtain ⟨rest, requests⟩ := exists_cons_of_asks asks
      have short : request.enter.rank ≤ 2 := by cases request <;> simp [Request.enter, Place.rank]
      change 4 * l.requests.tail.length + request.enter.rank + 1 < 4 * l.requests.length
      rw [requests, List.tail_cons, List.length_cons]
      omega
  | act act =>
      have less := rank_falls act
      simp only [actions]
      omega
  | unlock _ =>
      simp only [actions, callers]
      omega

/-- All calls have returned, and `m_value` is what it was plus all that was added. -/
structure Summed (jobs : τ → List Request) (_val : ℚ)
    (s : Shared τ Unit ℚ × (τ → Point Caller Place)) : Prop where
  returned : ∀ t, ∃ replies, s.2 t = .outside ⟨[], replies⟩
  lock : s.1.lock = none
  m_value : s.1.object = _val + ∑ t, addends (jobs t)

theorem exists_move (plain : ∀ t v, .assign v ∉ jobs t)
    {s : Shared τ Unit ℚ × (τ → Point Caller Place)}
    (reached : Reachable (locked (callers jobs) (object _val)) s) (more : ¬ Summed jobs _val s) :
    ∃ s', (locked (callers jobs) (object _val)).step s s' := by
  obtain ⟨⟨g, lock, m_value⟩, p⟩ := s
  have owned := owned_of_reachable reached
  cases lock with
  | some t =>
      have inside : (p t).isInside = true := (owned t).mp rfl
      cases here : p t with
      | outside l => simp [here, Point.isInside] at inside
      | inside l b =>
          cases result : b.result with
          | some reply => exact ⟨_, step_of_move here (.unlock result)⟩
          | none =>
              have going : ∃ next b', (object _val).act m_value b next b' := acts_of_going result
              cases going with
              | intro next going =>
                  obtain ⟨b', act⟩ := going
                  exact ⟨_, step_of_move here (.act act)⟩
  | none =>
      have outside : ∀ t, ∃ l, p t = .outside l := by
        intro t
        cases here : p t with
        | outside l => exact ⟨l, rfl⟩
        | inside l b =>
            have locked := (owned t).mpr (by simp only [here, Point.isInside])
            cases locked
      by_contra stuck
      have idle : ∀ t, ∃ replies, p t = .outside ⟨[], replies⟩ := by
        intro t
        obtain ⟨⟨requests, replies⟩, here⟩ := outside t
        cases requests with
        | nil => exact ⟨replies, here⟩
        | cons request rest =>
            exact absurd ⟨_, step_of_move here (.lock (i := request) rfl)⟩ stuck
      apply more
      refine ⟨idle, rfl, ?_⟩
      obtain ⟨start, since⟩ := since_of_reachable reached
      have adds := adds_of_reachable plain since.reached
      have nothing : ∀ t, addends (clients p t).requests = 0 := by
        intro t
        obtain ⟨replies, here⟩ := idle t
        simp [clients, here, addends]
      have sum := adds.sum
      simp only [nothing, Finset.sum_const_zero, add_zero] at sum
      exact (since.free rfl).trans sum

/-- In every interleaving of threads that call the operators, none of them `=`, all calls return
    after a bounded number of actions, and no `+=` is lost. -/
theorem no_add_lost (plain : ∀ t v, .assign v ∉ jobs t) :
    Ends (locked (callers jobs) (object _val)) (fun s => ∑ t, actions (s.2 t))
      (Summed jobs _val) := by
  apply Ends.of_rank
  · intro s s' _ step
    exact threads_falls (fun _ _ _ _ _ move => actions_lt move) s s' step
  · intro s reached more
    exact exists_move plain reached more

/-- One thread adds two values, another one a value that it reads afterwards. -/
theorem no_add_lost_two_threads :
    Ends (locked (callers fun t : Bool =>
        cond t [.addAssign 1, .addAssign 2] [.addAssign 3, .read]) (object 0))
      (fun s => ∑ t, actions (s.2 t))
      (Summed (fun t : Bool => cond t [.addAssign 1, .addAssign 2] [.addAssign 3, .read]) 0) := by
  apply no_add_lost
  intro t v
  cases t <;> simp

end Threads

end AtomicFloat

end KMeans
