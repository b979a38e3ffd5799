import KMeans.General.Transition

/-! # Objects that guard their state with a mutex

A method of such an object locks the mutex, works on the state in several actions and
unlocks the mutex when it returns. Threads call methods and do other things in between.
`locked` is this program, in which the actions of all threads interleave. `atomic` is the
same program with every call done in one action. The two reach the same states, so what
holds of the calls in any order holds of the actions in any order.
-/

namespace Monitor

open Transition

variable {τ γ ℓ σ ρ β ι α : Type*}

/-- The code of the methods. `ι` is a method with its arguments, `α` what it returns and `β`
    a place in a body with the values of the local variables. -/
structure Object (σ β ι α : Type*) where
  fresh : σ
  /-- The first place of a body. -/
  enter : ι → β
  /-- One action of a body. -/
  act : σ → β → σ → β → Prop
  /-- What is returned from a place, if it is the last one. -/
  result : β → Option α

namespace Object

variable (object : Object σ β ι α)

/-- Any number of actions of one body. -/
def Runs : σ × β → σ × β → Prop :=
  Relation.ReflTransGen fun x y => object.act x.1 x.2 y.1 y.2

/-- The rest of a call, from a place of the body on. -/
def Finishes (s : σ) (b : β) (s' : σ) (r : α) : Prop :=
  ∃ b', object.Runs (s, b) (s', b') ∧ object.result b' = some r

/-- A whole call, with nothing in between. -/
def Performs (s : σ) (i : ι) (s' : σ) (r : α) : Prop := object.Finishes s (object.enter i) s' r

/-- Wherever the body comes to from here, it is at its end or has a next action. -/
def Safe (s : σ) (b : β) : Prop :=
  ∀ s' b', object.Runs (s, b) (s', b') →
    (∃ r, object.result b' = some r) ∨ ∃ s'' b'', object.act s' b' s'' b''

variable {object}

theorem finishes_iff {s s' : σ} {b : β} {r : α} : object.Finishes s b s' r ↔
    (object.result b = some r ∧ s = s') ∨
      ∃ s₁ b₁, object.act s b s₁ b₁ ∧ object.Finishes s₁ b₁ s' r := by
  constructor
  · intro finishes
    obtain ⟨b', runs, finished⟩ := finishes
    cases Relation.ReflTransGen.cases_head runs with
    | inl same =>
        obtain ⟨rfl, rfl⟩ := Prod.mk.inj same
        exact Or.inl ⟨finished, rfl⟩
    | inr first =>
        obtain ⟨⟨s₁, b₁⟩, act, rest⟩ := first
        exact Or.inr ⟨s₁, b₁, act, b', rest, finished⟩
  · intro now
    cases now with
    | inl last =>
        obtain ⟨finished, rfl⟩ := last
        exact ⟨b, .refl, finished⟩
    | inr first =>
        obtain ⟨s₁, b₁, act, b', rest, finished⟩ := first
        exact ⟨b', .head act rest, finished⟩

theorem safe_iff {s : σ} {b : β} : object.Safe s b ↔
    ((∃ r, object.result b = some r) ∨ ∃ s' b', object.act s b s' b') ∧
      ∀ s' b', object.act s b s' b' → object.Safe s' b' := by
  constructor
  · intro safe
    refine ⟨safe s b .refl, ?_⟩
    intro s' b' act s'' b'' runs
    exact safe s'' b'' (.head act runs)
  · intro here s' b' runs
    cases Relation.ReflTransGen.cases_head runs with
    | inl same =>
        obtain ⟨rfl, rfl⟩ := Prod.mk.inj same
        exact here.1
    | inr first =>
        obtain ⟨⟨s₁, b₁⟩, act, rest⟩ := first
        exact here.2 s₁ b₁ act s' b' rest

theorem Safe.run {s s' : σ} {b b' : β} (safe : object.Safe s b)
    (runs : object.Runs (s, b) (s', b')) : object.Safe s' b' := by
  intro s'' b'' more
  exact safe s'' b'' (runs.trans more)

/-- A body without endless loops, and never stuck, comes to its end. -/
theorem Safe.finishes {rank : β → Nat} (falls : ∀ s b s' b', object.act s b s' b' → rank b' < rank b)
    {s : σ} {b : β} (safe : object.Safe s b) : ∃ s' r, object.Finishes s b s' r := by
  induction left : rank b using Nat.strong_induction_on generalizing s b with
  | _ n ih =>
      obtain ⟨here, later⟩ := safe_iff.mp safe
      cases here with
      | inl last =>
          obtain ⟨r, finished⟩ := last
          exact ⟨s, r, finishes_iff.mpr (Or.inl ⟨finished, rfl⟩)⟩
      | inr first =>
          obtain ⟨s₁, b₁, act⟩ := first
          obtain ⟨s', r, rest⟩ := ih _ (left ▸ falls s b s₁ b₁ act) (later s₁ b₁ act) rfl
          exact ⟨s', r, finishes_iff.mpr (Or.inr ⟨s₁, b₁, act, rest⟩)⟩

end Object

/-- The code of the threads around the calls. -/
structure Client (τ γ ℓ ι α : Type*) where
  init : γ → (τ → ℓ) → Prop
  /-- An action that does not concern the object. -/
  own : τ → γ → ℓ → γ → ℓ → Prop
  /-- The method a thread calls next, if it is at a call. -/
  request : ℓ → Option ι
  /-- Where a thread goes on with the result of its call. -/
  resume : ℓ → α → ℓ

/-! ## Calls in one action -/

/-- The actions of thread `t` when a call is one of them. -/
inductive AtomicMove (client : Client τ γ ℓ ι α) (perform : σ → ι → σ → α → Prop) (t : τ) :
    γ × σ → ℓ → γ × σ → ℓ → Prop
  | own {g g' s l l'} : client.own t g l g' l' →
      AtomicMove client perform t (g, s) l (g', s) l'
  | call {g s s' l i r} : client.request l = some i → perform s i s' r →
      AtomicMove client perform t (g, s) l (g, s') (client.resume l r)

def atomic [DecidableEq τ] (client : Client τ γ ℓ ι α) (fresh : σ)
    (perform : σ → ι → σ → α → Prop) : System ((γ × σ) × (τ → ℓ)) :=
  threads (fun x l => client.init x.1 l ∧ x.2 = fresh) (AtomicMove client perform)

section Abstraction

variable {client : Client τ γ ℓ ι α} {fresh : σ} {fresh' : ρ}
  {perform : σ → ι → σ → α → Prop} {perform' : ρ → ι → ρ → α → Prop}

theorem AtomicMove.matched {same : σ → ρ → Prop}
    (next : ∀ s a i s' r, same s a → perform s i s' r → ∃ a', perform' a i a' r ∧ same s' a')
    {t : τ} {g : γ} {s : σ} {a : ρ} {l l' : ℓ} {x : γ × σ} (related : same s a)
    (move : AtomicMove client perform t (g, s) l x l') :
    ∃ a', AtomicMove client perform' t (g, a) l (x.1, a') l' ∧ same x.2 a' := by
  cases move with
  | own own => exact ⟨a, .own own, related⟩
  | call request performed =>
      obtain ⟨a', matched, related'⟩ := next _ _ _ _ _ related performed
      exact ⟨a', .call request matched, related'⟩

/-- One object does for its callers what another one does, if each of its calls is matched
    by a call of the other with the same result. -/
theorem atomic_refines [DecidableEq τ] (same : σ → ρ → Prop) (start : same fresh fresh')
    (next : ∀ s a i s' r, same s a → perform s i s' r → ∃ a', perform' a i a' r ∧ same s' a')
    {s : (γ × σ) × (τ → ℓ)} (reached : Reachable (atomic client fresh perform) s) :
    ∃ a, Reachable (atomic client fresh' perform') ((s.1.1, a), s.2) ∧ same s.1.2 a := by
  induction reached with
  | @init s initial =>
      obtain ⟨initial, same_start⟩ := initial
      exact ⟨fresh', .init ⟨initial, rfl⟩, same_start ▸ start⟩
  | step _ move ih =>
      obtain ⟨a, reached, related⟩ := ih
      obtain ⟨t, x, l', move, rfl⟩ := move
      obtain ⟨a', move', related'⟩ := move.matched next related
      exact ⟨a', reached.move rfl move', related'⟩

/-- What one object can do from a state, the other one can do from a related state. -/
theorem atomic_path_refines [DecidableEq τ] (same : σ → ρ → Prop)
    (next : ∀ s a i s' r, same s a → perform s i s' r → ∃ a', perform' a i a' r ∧ same s' a')
    {s s' : (γ × σ) × (τ → ℓ)} {a : ρ} (related : same s.1.2 a)
    (path : Relation.ReflTransGen (atomic client fresh perform).step s s') :
    ∃ a', Relation.ReflTransGen (atomic client fresh' perform').step ((s.1.1, a), s.2)
      ((s'.1.1, a'), s'.2) ∧ same s'.1.2 a' := by
  induction path with
  | refl => exact ⟨a, .refl, related⟩
  | tail _ move ih =>
      obtain ⟨a', path, related⟩ := ih
      obtain ⟨t, x, l', move, rfl⟩ := move
      obtain ⟨a'', move', related'⟩ := move.matched next related
      exact ⟨a'', path.tail ⟨t, _, l', move', rfl⟩, related'⟩

end Abstraction

/-! ## Calls action by action -/

/-- What the threads share: the variables of the client, the mutex and the object. -/
structure Shared (τ γ σ : Type*) where
  client : γ
  /-- The thread that has locked the mutex. -/
  lock : Option τ
  object : σ

inductive Point (ℓ β : Type*)
  /-- Not in a method. -/
  | outside (l : ℓ)
  /-- At a place of a body, called from `l`. -/
  | inside (l : ℓ) (b : β)

namespace Point

/-- The thread without the call it is in. -/
def client : Point ℓ β → ℓ
  | outside l | inside l _ => l

def isInside : Point ℓ β → Bool
  | outside _ => false
  | inside .. => true

@[simp] theorem client_outside (l : ℓ) : (outside l : Point ℓ β).client = l := rfl

@[simp] theorem client_inside (l : ℓ) (b : β) : (inside l b).client = l := rfl

end Point

/-- The actions of thread `t`. To lock the mutex it has to be free. -/
inductive LockedMove (client : Client τ γ ℓ ι α) (object : Object σ β ι α) (t : τ) :
    Shared τ γ σ → Point ℓ β → Shared τ γ σ → Point ℓ β → Prop
  | own {g g' lock s l l'} : client.own t g l g' l' →
      LockedMove client object t ⟨g, lock, s⟩ (.outside l) ⟨g', lock, s⟩ (.outside l')
  | lock {g s l i} : client.request l = some i →
      LockedMove client object t ⟨g, none, s⟩ (.outside l) ⟨g, some t, s⟩
        (.inside l (object.enter i))
  | act {g lock s s' l b b'} : object.act s b s' b' →
      LockedMove client object t ⟨g, lock, s⟩ (.inside l b) ⟨g, lock, s'⟩ (.inside l b')
  | unlock {g lock s l b r} : object.result b = some r →
      LockedMove client object t ⟨g, lock, s⟩ (.inside l b) ⟨g, none, s⟩
        (.outside (client.resume l r))

def locked [DecidableEq τ] (client : Client τ γ ℓ ι α) (object : Object σ β ι α) :
    System (Shared τ γ σ × (τ → Point ℓ β)) :=
  threads (fun x p => x.lock = none ∧ x.object = object.fresh ∧
      client.init x.client (fun t => (p t).client) ∧ ∀ t, (p t).isInside = false)
    (LockedMove client object)

/-- The threads of a state. -/
def clients (p : τ → Point ℓ β) (t : τ) : ℓ := (p t).client

section Locked

variable [DecidableEq τ] {client : Client τ γ ℓ ι α} {object : Object σ β ι α}
  {x x' : Shared τ γ σ} {p : τ → Point ℓ β} {t : τ} {next : Point ℓ β}

theorem clients_update : clients (Function.update p t next) =
    Function.update (clients p) t next.client := by
  funext u
  exact Function.apply_update (fun _ => Point.client) p t next u

theorem clients_update_of_eq (same : next.client = (p t).client) :
    clients (Function.update p t next) = clients p := by
  rw [clients_update, same]
  exact Function.update_eq_self t (clients p)

omit [DecidableEq τ] in
theorem LockedMove.lockMove (move : LockedMove client object t x (p t) x' next)
    (owned : Owned x.lock fun u => (p u).isInside) :
    LockMove t x.lock x'.lock (p t).isInside next.isInside := by
  have mine : x.lock = some t ↔ (p t).isInside = true := owned t
  generalize p t = here at move mine
  cases move with
  | own | act => exact .still
  | lock => exact .acquire
  | unlock =>
      rw [mine.mpr rfl]
      exact .release

theorem owned_of_reachable {s : Shared τ γ σ × (τ → Point ℓ β)}
    (reached : Reachable (locked client object) s) :
    Owned s.1.lock fun t => (s.2 t).isInside := by
  induction reached with
  | init initial =>
      obtain ⟨free, -, -, outside⟩ := initial
      intro t
      simp [free, outside t]
  | step _ move ih =>
      obtain ⟨t, x, next, move, rfl⟩ := move
      exact ih.move (move.lockMove ih)

/-- No two threads are in methods of the object at the same time. -/
theorem alone_of_reachable {s : Shared τ γ σ × (τ → Point ℓ β)}
    (reached : Reachable (locked client object) s) {t u : τ} (mine : (s.2 t).isInside = true)
    (yours : (s.2 u).isInside = true) : t = u :=
  (owned_of_reachable reached).unique mine yours

/-- What the object was when the mutex was last locked or unlocked: `start`. Since then only
    the thread inside has worked on it. -/
structure Since (client : Client τ γ ℓ ι α) (object : Object σ β ι α) (x : Shared τ γ σ)
    (p : τ → Point ℓ β) (start : σ) : Prop where
  reached : Reachable (atomic client object.fresh object.Performs)
    ((x.client, start), clients p)
  free : x.lock = none → x.object = start
  inside : ∀ t l b, p t = .inside l b → ∃ i, client.request l = some i ∧
    object.Runs (start, object.enter i) (x.object, b)

theorem Since.start (initial : (locked client object).init (x, p)) :
    Since client object x p object.fresh where
  reached := .init ⟨initial.2.2.1, rfl⟩
  free := fun _ => initial.2.1
  inside := by
    intro t l b here
    have outside : (p t).isInside = false := initial.2.2.2 t
    simp [here, Point.isInside] at outside

omit [DecidableEq τ] in
/-- While one thread is inside, or the mutex is free, no other thread is inside. -/
theorem not_inside (owned : Owned x.lock fun u => (p u).isInside)
    (alone : (p t).isInside = true ∨ x.lock = none) {u : τ} (other : u ≠ t) (l : ℓ) (b : β) :
    p u ≠ .inside l b := by
  intro there
  have yours : (p u).isInside = true := by rw [there]; rfl
  cases alone with
  | inl mine => exact other (owned.unique yours mine)
  | inr unlocked =>
      have locked := (owned u).mpr yours
      simp [unlocked] at locked

/-- The one thread that may be inside after a step is the one that made it. -/
theorem inside_update {P : ℓ → β → Prop} (owned : Owned x.lock fun u => (p u).isInside)
    (alone : (p t).isInside = true ∨ x.lock = none) (mine : ∀ l b, next = .inside l b → P l b)
    (u : τ) (l : ℓ) (b : β) (there : Function.update p t next u = .inside l b) : P l b := by
  rcases eq_or_ne u t with rfl | other
  · rw [Function.update_self] at there
    exact mine l b there
  · rw [Function.update_of_ne other] at there
    exact absurd there (not_inside owned alone other l b)

theorem Since.move {start : σ} {here : Point ℓ β} (place : p t = here)
    (owned : Owned x.lock fun u => (p u).isInside) (since : Since client object x p start)
    (move : LockedMove client object t x here x' next) :
    ∃ start', Since client object x' (Function.update p t next) start' := by
  obtain ⟨reached, free, inside⟩ := since
  cases move with
  | own own =>
      refine ⟨start, ?_, free, ?_⟩
      · rw [clients_update]
        exact reached.move (congrArg Point.client place) (.own own)
      · intro u l b there
        rcases eq_or_ne u t with rfl | other
        · simp at there
        · rw [Function.update_of_ne other] at there
          exact inside u l b there
  | @lock g s l i request =>
      refine ⟨start, ?_, by simp, inside_update owned (Or.inr rfl) ?_⟩
      · rw [clients_update_of_eq (by simp [place])]
        exact reached
      · intro l' b there
        obtain ⟨rfl, rfl⟩ : l = l' ∧ object.enter i = b := by simpa using there
        have same : s = start := free rfl
        exact ⟨i, request, same ▸ .refl⟩
  | @act g lock s s' l b b' act =>
      have mine : (p t).isInside = true := by rw [place]; rfl
      have holds : lock = some t := (owned t).mpr mine
      obtain ⟨i, request, runs⟩ := inside t l b place
      refine ⟨start, ?_, by simp [holds], inside_update owned (Or.inl mine) ?_⟩
      · rw [clients_update_of_eq (by simp [place])]
        exact reached
      · intro l' c there
        obtain ⟨rfl, rfl⟩ : l = l' ∧ b' = c := by simpa using there
        exact ⟨i, request, .tail runs act⟩
  | @unlock g lock s l b r finished =>
      have mine : (p t).isInside = true := by rw [place]; rfl
      obtain ⟨i, request, runs⟩ := inside t l b place
      refine ⟨s, ?_, fun _ => rfl, inside_update owned (Or.inl mine) ?_⟩
      · rw [clients_update]
        exact reached.move (congrArg Point.client place) (.call request ⟨b, runs, finished⟩)
      · intro l' c there
        cases there

/-- Every state of the program is one of the program with calls in one action, plus the
    actions of the one call that has not returned. -/
theorem since_of_reachable {s : Shared τ γ σ × (τ → Point ℓ β)}
    (reached : Reachable (locked client object) s) :
    ∃ start, Since client object s.1 s.2 start := by
  induction reached with
  | init initial => exact ⟨object.fresh, .start initial⟩
  | step before move ih =>
      obtain ⟨start, since⟩ := ih
      obtain ⟨t, x, next, move, rfl⟩ := move
      exact since.move rfl (owned_of_reachable before) move

/-! ## The same states -/

theorem step_of_move {here : Point ℓ β} (place : p t = here)
    (move : LockedMove client object t x here x' next) :
    (locked client object).step (x, p) (x', Function.update p t next) := by
  subst place
  exact ⟨t, x', next, move, rfl⟩

/-- A thread inside makes the actions of its body while the others stand still. -/
theorem path_run {s s' : σ × β} {g : γ} {lock : Option τ} {l : ℓ} (runs : object.Runs s s')
    (here : p t = .inside l s.2) :
    Relation.ReflTransGen (locked client object).step (⟨g, lock, s.1⟩, p)
      (⟨g, lock, s'.1⟩, Function.update p t (.inside l s'.2)) := by
  induction runs with
  | refl => rw [← here, Function.update_eq_self]
  | tail _ act ih =>
      have next := ih.tail (step_of_move (t := t) (Function.update_self ..) (.act act))
      rwa [Function.update_idem] at next

/-- From the place where it is, a thread inside makes the rest of its call. -/
theorem path_return {s s' : σ} {g : γ} {lock : Option τ} {l : ℓ} {b b' : β} {r : α}
    (here : p t = .inside l b) (runs : object.Runs (s, b) (s', b'))
    (finished : object.result b' = some r) :
    Relation.ReflTransGen (locked client object).step (⟨g, lock, s⟩, p)
      (⟨g, none, s'⟩, Function.update p t (.outside (client.resume l r))) := by
  have unlock : LockedMove client object t ⟨g, lock, s'⟩ (.inside l b') ⟨g, none, s'⟩
      (.outside (client.resume l r)) := .unlock finished
  have returned := (path_run runs here).tail (step_of_move (Function.update_self ..) unlock)
  rwa [Function.update_idem] at returned

/-- A thread makes a whole call while the others stand still. -/
theorem path_call {s s' : σ} {g : γ} {l : ℓ} {i : ι} {r : α} (here : p t = .outside l)
    (request : client.request l = some i) (performed : object.Performs s i s' r) :
    Relation.ReflTransGen (locked client object).step (⟨g, none, s⟩, p)
      (⟨g, none, s'⟩, Function.update p t (.outside (client.resume l r))) := by
  obtain ⟨b, runs, finished⟩ := performed
  have lock : LockedMove client object t ⟨g, none, s⟩ (.outside l) ⟨g, some t, s⟩
      (.inside l (object.enter i)) := .lock request
  have inside : Function.update p t (.inside l (object.enter i)) t =
      .inside l (object.enter i) := Function.update_self ..
  have rest : Relation.ReflTransGen (locked client object).step
      (⟨g, some t, s⟩, Function.update p t (.inside l (object.enter i)))
      (⟨g, none, s'⟩, Function.update (Function.update p t (.inside l (object.enter i))) t
        (.outside (client.resume l r))) := path_return inside runs finished
  rw [Function.update_idem] at rest
  exact .head (step_of_move here lock) rest

theorem path_of_atomicMove {y y' : γ × σ} {l l' : ℓ} (here : p t = .outside l)
    (move : AtomicMove client object.Performs t y l y' l') :
    Relation.ReflTransGen (locked client object).step (⟨y.1, none, y.2⟩, p)
      (⟨y'.1, none, y'.2⟩, Function.update p t (.outside l')) := by
  cases move with
  | own own => exact .single (step_of_move here (.own own))
  | call request performed => exact path_call here request performed

/-- The threads of the program with calls in one action, in no call. -/
def placed (f : τ → ℓ) (t : τ) : Point ℓ β := .outside (f t)

theorem placed_update (f : τ → ℓ) (l : ℓ) : (placed (Function.update f t l) : τ → Point ℓ β) =
    Function.update (placed f) t (.outside l) := by
  funext u
  exact Function.apply_update (fun _ => Point.outside) f t l u

/-- What the program with calls in one action does, the threads can do. -/
theorem path_of_atomic {s s' : (γ × σ) × (τ → ℓ)}
    (path : Relation.ReflTransGen (atomic client object.fresh object.Performs).step s s') :
    Relation.ReflTransGen (locked client object).step
      (⟨s.1.1, none, s.1.2⟩, placed s.2) (⟨s'.1.1, none, s'.1.2⟩, placed s'.2) := by
  induction path with
  | refl => exact .refl
  | tail _ move ih =>
      obtain ⟨t, y, l, move, rfl⟩ := move
      rw [placed_update]
      exact ih.trans (path_of_atomicMove rfl move)

omit [DecidableEq τ] in
theorem placed_clients (free : x.lock = none)
    (owned : Owned x.lock fun u => (p u).isInside) : placed (clients p) = p := by
  funext u
  unfold placed clients
  cases place : p u with
  | outside l => rfl
  | inside l b =>
      have inside : (p u).isInside = true := by rw [place]; rfl
      have locked := (owned u).mpr inside
      simp [free] at locked

/-- While the mutex is free, the states of the two programs are the same. -/
theorem reachable_iff {s : (γ × σ) × (τ → ℓ)} :
    Reachable (locked client object) (⟨s.1.1, none, s.1.2⟩, placed s.2) ↔
      Reachable (atomic client object.fresh object.Performs) s := by
  constructor
  · intro reached
    obtain ⟨start, since⟩ := since_of_reachable reached
    have same : s.1.2 = start := since.free rfl
    have before := since.reached
    rw [← same] at before
    exact before
  · intro reached
    induction reached with
    | init initial => exact .init ⟨rfl, initial.2, initial.1, fun _ => rfl⟩
    | step _ move ih => exact ih.later (path_of_atomic (.single move))

/-- If calls from the states between two calls are safe, a thread inside has not got stuck. -/
theorem safe_of_reachable
    (safe : ∀ s, Reachable (atomic client object.fresh object.Performs) s →
      ∀ i, object.Safe s.1.2 (object.enter i))
    {l : ℓ} {b : β} (reached : Reachable (locked client object) (x, p))
    (here : p t = .inside l b) : object.Safe x.object b := by
  obtain ⟨start, since⟩ := since_of_reachable reached
  obtain ⟨i, _, runs⟩ := since.inside t l b here
  exact (safe _ since.reached i).run runs

/-- A call that is safe returns, whatever the other threads are at. -/
theorem can_return {rank : β → Nat}
    (falls : ∀ s b s' b', object.act s b s' b' → rank b' < rank b) {l : ℓ} {b : β}
    (here : p t = .inside l b) (safe : object.Safe x.object b) :
    ∃ s r, Relation.ReflTransGen (locked client object).step (x, p)
      (⟨x.client, none, s⟩, Function.update p t (.outside (client.resume l r))) := by
  obtain ⟨s, r, b', rest, finished⟩ := safe.finishes falls
  exact ⟨s, r, path_return here rest finished⟩

/-- From every state the threads can go on to one with the mutex free, which the program with
    calls in one action reaches too. -/
theorem can_unlock {rank : β → Nat}
    (falls : ∀ s b s' b', object.act s b s' b' → rank b' < rank b)
    (safe : ∀ s, Reachable (atomic client object.fresh object.Performs) s →
      ∀ i, object.Safe s.1.2 (object.enter i))
    (reached : Reachable (locked client object) (x, p)) :
    ∃ s : (γ × σ) × (τ → ℓ), Reachable (atomic client object.fresh object.Performs) s ∧
      Relation.ReflTransGen (locked client object).step (x, p)
        (⟨s.1.1, none, s.1.2⟩, placed s.2) := by
  have settle : ∀ g s (q : τ → Point ℓ β),
      Relation.ReflTransGen (locked client object).step (x, p) (⟨g, none, s⟩, q) →
        ∃ s : (γ × σ) × (τ → ℓ), Reachable (atomic client object.fresh object.Performs) s ∧
          Relation.ReflTransGen (locked client object).step (x, p)
            (⟨s.1.1, none, s.1.2⟩, placed s.2) := by
    intro g s q path
    have later := reached.later path
    have still : placed (clients q) = q := placed_clients rfl (owned_of_reachable later)
    rw [← still] at path later
    exact ⟨((g, s), clients q), reachable_iff.mp later, path⟩
  obtain ⟨g, lock, s⟩ := x
  cases lock with
  | none => exact settle g s p .refl
  | some t =>
      have inside : (p t).isInside = true := (owned_of_reachable reached t).mp rfl
      cases here : p t with
      | outside l => simp [here, Point.isInside] at inside
      | inside l b =>
          obtain ⟨s', r, path⟩ := can_return falls here (safe_of_reachable safe reached here)
          exact settle g s' _ path

/-- A thread that is at a call can come to return from it: the one inside returns first. -/
theorem can_call {rank : β → Nat}
    (falls : ∀ s b s' b', object.act s b s' b' → rank b' < rank b)
    (safe : ∀ s, Reachable (atomic client object.fresh object.Performs) s →
      ∀ i, object.Safe s.1.2 (object.enter i))
    (reached : Reachable (locked client object) (x, p)) {l : ℓ} {i : ι}
    (here : p t = .outside l) (request : client.request l = some i) :
    ∃ s q r, Relation.ReflTransGen (locked client object).step (x, p) (⟨x.client, none, s⟩, q) ∧
      q t = .outside (client.resume l r) := by
  have free : ∀ s (q : τ → Point ℓ β), q t = .outside l →
      Relation.ReflTransGen (locked client object).step (x, p) (⟨x.client, none, s⟩, q) →
        ∃ s q r, Relation.ReflTransGen (locked client object).step (x, p)
          (⟨x.client, none, s⟩, q) ∧ q t = .outside (client.resume l r) := by
    intro s q still path
    have later := since_of_reachable (reached.later path)
    obtain ⟨start, since⟩ := later
    have same : s = start := since.free rfl
    obtain ⟨s', r, performed⟩ := (safe _ since.reached i).finishes falls
    rw [← same] at performed
    exact ⟨s', _, r, path.trans (path_call still request performed), Function.update_self ..⟩
  obtain ⟨g, lock, s⟩ := x
  cases lock with
  | none => exact free s p here .refl
  | some u =>
      have inside : (p u).isInside = true := (owned_of_reachable reached u).mp rfl
      cases there : p u with
      | outside l => simp [there, Point.isInside] at inside
      | inside l' b =>
          have other : t ≠ u := by
            intro same
            rw [same, there] at here
            cases here
          obtain ⟨s', r, path⟩ := can_return falls there (safe_of_reachable safe reached there)
          exact free s' _ ((Function.update_of_ne other ..).trans here) path

end Locked

end Monitor
