import Mathlib.Algebra.Order.BigOperators.Group.Finset
import Mathlib.Data.Fintype.Sum
import KMeans.Threadsafe.ListCallers

/-! # The test of `blocking::list<T>`

Threads push fives and then sevens, others pop a number of values each and try again
when the list is empty. The test expects that all values left over are sevens. It has
two threads of each kind, 50000 values of each kind and 99990 values to pop; here these
numbers are variables.
-/

namespace KMeans.ListTest

open Memory Transition Monitor

/-- The numbers of turns of the loops. -/
structure Plan where
  fives : Nat
  sevens : Nat
  pops : Nat

/-- How many values are pushed. -/
def Plan.allPushed (plan : Plan) (π : Type) [Fintype π] : Nat :=
  Fintype.card π * (plan.fives + plan.sevens)

/-- How many values are popped. -/
def Plan.allPopped (plan : Plan) (κ : Type) [Fintype κ] : Nat := Fintype.card κ * plan.pops

/-- A thread of the test, with the number of turns that its loops have left. -/
inductive Worker
  | PushBackOnly (fives sevens : Nat)
  | PopFrontOnly (pops : Nat)

namespace Worker

def request : Worker → Option (ListRequest Int)
  | PushBackOnly (_ + 1) _ => some (.push_back 5)
  | PushBackOnly 0 (_ + 1) => some (.push_back 7)
  | PushBackOnly 0 0 => none
  | PopFrontOnly (_ + 1) => some .pop_front
  | PopFrontOnly 0 => none

def resume : Worker → ListReply Int → Worker
  | PushBackOnly (fives + 1) sevens, _ => PushBackOnly fives sevens
  | PushBackOnly 0 (sevens + 1), _ => PushBackOnly 0 sevens
  | PopFrontOnly (pops + 1), .popped (some _) => PopFrontOnly pops
  -- `while(!_list.pop_front(tmp))`
  | worker, _ => worker

/-- The values that a thread has left to push. -/
def values : Worker → List Int
  | PushBackOnly fives sevens => List.replicate fives 5 ++ List.replicate sevens 7
  | PopFrontOnly _ => []

/-- How many values a thread has left to pop. -/
def toPop : Worker → Nat
  | PushBackOnly .. => 0
  | PopFrontOnly pops => pops

end Worker

open Worker

/-- The calls of the test, by threads `π` that push and threads `κ` that pop. -/
def client (π κ : Type) (plan : Plan) :
    Client (π ⊕ κ) Unit Worker (ListRequest Int) (ListReply Int) where
  init _ l := (∀ p, l (.inl p) = .PushBackOnly plan.fives plan.sevens) ∧
    ∀ c, l (.inr c) = .PopFrontOnly plan.pops
  own _ _ _ _ _ := False
  request := Worker.request
  resume := Worker.resume

/-- What `main` requires after the joins: the size, a seven at each turn of its loop, and that
    the list is empty then. The loop ends if `fuel` is large enough. -/
def checking {A : Type} [DecidableEq A] (size fuel : Nat) (list : CellList A)
    (memory : Heap A (ListCell A Int)) : Option Bool := do
  let (tmp, left, _) ← list.destroy fuel memory
  some (list.size == size && tmp.all (· == 7) && left.empty)

/-! ## What has been pushed -/

section Record

variable {π κ : Type} [DecidableEq π]

/-- What thread `p` has pushed, in order. -/
def byThread (p : π) (pushed : List (π × Int)) : List Int :=
  (pushed.filter fun entry => entry.1 = p).map Prod.snd

@[simp] theorem byThread_nil (p : π) : byThread p [] = [] := rfl

theorem byThread_append_self (p : π) (pushed : List (π × Int)) (v : Int) :
    byThread p (pushed ++ [(p, v)]) = byThread p pushed ++ [v] := by
  simp [byThread, List.filter_append]

theorem byThread_append_of_ne {p q : π} (other : q ≠ p) (pushed : List (π × Int)) (v : Int) :
    byThread p (pushed ++ [(q, v)]) = byThread p pushed := by
  simp [byThread, List.filter_append, other]

variable [Fintype π] [Fintype κ]

/-- How many values are left to push. -/
def toPushTotal (l : π ⊕ κ → Worker) : Int := ∑ t, ((l t).values.length : Int)

/-- How many values are left to pop. -/
def toPopTotal (l : π ⊕ κ → Worker) : Int := ∑ t, ((l t).toPop : Int)

/-- How the list came about: all values pushed, each with its thread, of which the first
    `popped` have been popped. -/
structure Recorded (plan : Plan) (whole : BlockingList Int) (l : π ⊕ κ → Worker)
    (pushed : List (π × Int)) (popped : Nat) : Prop where
  stored : (pushed.drop popped).map Prod.snd = whole.cells
  within : popped ≤ pushed.length
  pushes : ∀ p, byThread p pushed ++ (l (.inl p)).values =
    List.replicate plan.fives 5 ++ List.replicate plan.sevens 7
  pops : ∀ c, (l (.inr c)).values = []
  pushed_total : pushed.length + toPushTotal l = plan.allPushed π
  popped_total : popped + toPopTotal l = plan.allPopped κ

variable {plan : Plan} {whole : BlockingList Int} {l : π ⊕ κ → Worker}
  {pushed : List (π × Int)} {popped : Nat}

theorem recorded_start (start : (client π κ plan).init () l) :
    Recorded plan .make l [] 0 where
  stored := rfl
  within := Nat.le_refl 0
  pushes := by simp [start.1, values]
  pops := by simp [start.2, values]
  pushed_total := by simp [toPushTotal, Plan.allPushed, start.1, start.2, values]
  popped_total := by simp [toPopTotal, Plan.allPopped, start.1, start.2, toPop]

theorem Worker.values_of_push {worker : Worker} {v : Int}
    (calls : worker.request = some (.push_back v)) (reply : ListReply Int) :
    worker.values = v :: (worker.resume reply).values ∧
      (worker.resume reply).toPop = worker.toPop := by
  cases worker with
  | PushBackOnly fives sevens =>
      cases fives with
      | succ fives =>
          cases calls
          exact ⟨rfl, rfl⟩
      | zero =>
          cases sevens with
          | zero => cases calls
          | succ sevens =>
              cases calls
              exact ⟨rfl, rfl⟩
  | PopFrontOnly pops => cases pops <;> cases calls

theorem Worker.pops_of_pop {worker : Worker} (calls : worker.request = some .pop_front) :
    ∃ pops, worker = PopFrontOnly (pops + 1) := by
  cases worker with
  | PushBackOnly fives sevens => cases fives <;> cases sevens <;> cases calls
  | PopFrontOnly pops =>
      cases pops with
      | zero => cases calls
      | succ pops => exact ⟨pops, rfl⟩

variable [DecidableEq κ] {t : π ⊕ κ}

theorem toPushTotal_update (next : Worker) : toPushTotal (Function.update l t next) =
    toPushTotal l + (next.values.length - (l t).values.length) :=
  sum_update (fun worker : Worker => (worker.values.length : Int)) l t next

theorem toPopTotal_update (next : Worker) : toPopTotal (Function.update l t next) =
    toPopTotal l + (next.toPop - (l t).toPop) :=
  sum_update (fun worker : Worker => (worker.toPop : Int)) l t next

theorem Recorded.push (recorded : Recorded plan whole l pushed popped) {v : Int}
    (calls : (l t).request = some (.push_back v)) (reply : ListReply Int) : ∃ p,
    Recorded plan (whole.push_back v) (Function.update l t ((l t).resume reply))
      (pushed ++ [(p, v)]) popped := by
  obtain ⟨values, toPop⟩ := values_of_push calls reply
  cases t with
  | inr c => simp [recorded.pops c] at values
  | inl p =>
      refine ⟨p, ⟨?_, ?_, ?_, ?_, ?_, ?_⟩⟩
      · rw [List.drop_append_of_le_length recorded.within, List.map_append, recorded.stored]
        rfl
      · have within := recorded.within
        rw [List.length_append]
        omega
      · intro q
        rcases eq_or_ne p q with rfl | other
        · rw [byThread_append_self, Function.update_self, List.append_assoc, List.singleton_append,
            ← values]
          exact recorded.pushes p
        · rw [byThread_append_of_ne other, Function.update_of_ne (by simp [other.symm])]
          exact recorded.pushes q
      · intro c
        rw [Function.update_of_ne (by simp)]
        exact recorded.pops c
      · have total := recorded.pushed_total
        have length := congrArg List.length values
        rw [toPushTotal_update]
        simp only [List.length_cons, List.length_append, List.length_nil] at length ⊢
        omega
      · have total := recorded.popped_total
        rw [toPopTotal_update, toPop]
        omega

theorem Recorded.pop (recorded : Recorded plan whole l pushed popped)
    (calls : (l t).request = some .pop_front) {whole' : BlockingList Int} {reply : ListReply Int}
    (called : whole.Calls .pop_front whole' reply) : ∃ popped',
    Recorded plan whole' (Function.update l t ((l t).resume reply)) pushed popped' := by
  obtain ⟨pops, worker⟩ := pops_of_pop calls
  cases called
  cases stored : whole.cells with
  | nil =>
      have none := BlockingList.pop_front_eq_none.mpr stored
      refine ⟨popped, ?_⟩
      rw [none, worker]
      have same : Function.update l t (PopFrontOnly (pops + 1)) = l := by
        rw [← worker, Function.update_eq_self]
      simp only [Option.map_none, Option.getD_none, resume, same]
      exact recorded
  | cons v rest =>
      obtain ⟨left, run, left_cells⟩ := BlockingList.pop_front_of_cons stored
      refine ⟨popped + 1, ?_⟩
      rw [run, worker]
      simp only [Option.map_some, Option.getD_some, resume]
      have front := recorded.stored
      rw [stored] at front
      have more : popped < pushed.length := by
        by_contra none
        rw [List.drop_eq_nil_of_le (by omega)] at front
        cases front
      refine ⟨?_, more, ?_, ?_, ?_, ?_⟩
      · rw [List.drop_eq_getElem_cons more] at front
        rw [left_cells]
        exact (List.cons.inj front).2
      · intro p
        rw [← recorded.pushes p]
        congr 1
        rcases eq_or_ne (.inl p) t with rfl | other
        · rw [Function.update_self, worker]
          rfl
        · rw [Function.update_of_ne other]
      · intro c
        rcases eq_or_ne (.inr c) t with rfl | other
        · rw [Function.update_self]
          rfl
        · rw [Function.update_of_ne other]
          exact recorded.pops c
      · have total := recorded.pushed_total
        rw [toPushTotal_update, worker]
        simp only [values, List.length_nil]
        omega
      · have total := recorded.popped_total
        rw [toPopTotal_update, worker]
        simp only [toPop]
        push_cast
        omega

theorem Worker.push_or_pop {worker : Worker} {request : ListRequest Int}
    (calls : worker.request = some request) :
    (∃ v, request = .push_back v) ∨ request = .pop_front := by
  cases worker with
  | PushBackOnly fives sevens => cases fives <;> cases sevens <;> cases calls <;> simp
  | PopFrontOnly pops => cases pops <;> cases calls; simp

theorem Recorded.call (recorded : Recorded plan whole l pushed popped)
    {request : ListRequest Int} (calls : (l t).request = some request) {whole' : BlockingList Int}
    {reply : ListReply Int} (called : whole.Calls request whole' reply) : ∃ pushed' popped',
    Recorded plan whole' (Function.update l t ((l t).resume reply)) pushed' popped' := by
  cases push_or_pop calls with
  | inl push =>
      obtain ⟨v, rfl⟩ := push
      cases called
      obtain ⟨p, pushed⟩ := recorded.push calls .pushed
      exact ⟨_, popped, pushed⟩
  | inr pop =>
      subst pop
      obtain ⟨popped', left⟩ := recorded.pop calls called
      exact ⟨pushed, popped', left⟩

/-- The program of the test with every call in one action. -/
abbrev calls (plan : Plan) : System ((Unit × BlockingList Int) × (π ⊕ κ → Worker)) :=
  atomic (client π κ plan) BlockingList.make BlockingList.Calls

theorem Recorded.move (recorded : Recorded plan whole l pushed popped) {g : Unit} {worker : Worker}
    (here : l t = worker) {x : Unit × BlockingList Int} {next : Worker}
    (move : AtomicMove (client π κ plan) BlockingList.Calls t (g, whole) worker x next) :
    ∃ pushed' popped', Recorded plan x.2 (Function.update l t next) pushed' popped' := by
  subst here
  cases move with
  | own own => cases own
  | call calls called => exact recorded.call calls called

theorem recorded_of_reachable {s : (Unit × BlockingList Int) × (π ⊕ κ → Worker)}
    (reached : Reachable (calls plan) s) :
    ∃ pushed popped, Recorded plan s.1.2 s.2 pushed popped := by
  induction reached with
  | @init s initial =>
      obtain ⟨⟨_, whole⟩, l⟩ := s
      obtain ⟨start, fresh⟩ := initial
      cases fresh
      exact ⟨[], 0, recorded_start start⟩
  | step _ move ih =>
      obtain ⟨pushed, popped, recorded⟩ := ih
      obtain ⟨t, x, next, move, rfl⟩ := move
      exact recorded.move rfl move

/-! ## What is left over -/

/-- The threads have returned. -/
def finished (l : π ⊕ κ → Worker) : Prop := ∀ t, (l t).request = none

omit [DecidableEq π] [Fintype π] [Fintype κ] [DecidableEq κ] in
theorem Worker.values_of_finished {worker : Worker} (done : worker.request = none) :
    worker.values = [] ∧ worker.toPop = 0 := by
  cases worker with
  | PushBackOnly fives sevens => cases fives <;> cases sevens <;> simp_all [request, values, toPop]
  | PopFrontOnly pops => cases pops <;> simp_all [request, values, toPop]

omit [Fintype π] [Fintype κ] [DecidableEq κ] in
theorem byThread_drop_suffix (p : π) (popped : Nat) (pushed : List (π × Int)) :
    byThread p (pushed.drop popped) <:+ byThread p pushed :=
  ((List.drop_suffix popped pushed).filter _).map _

omit [Fintype π] [Fintype κ] [DecidableEq κ] in
theorem length_byThread_le (p : π) (pushed : List (π × Int)) :
    (byThread p pushed).length ≤ pushed.length := by
  unfold byThread
  rw [List.length_map]
  exact List.length_filter_le ..

omit [DecidableEq κ] in
/-- The values left over are sevens, if they are at most as many as each thread pushed: those
    of one thread are the last ones that it pushed. -/
theorem Recorded.sevens (recorded : Recorded plan whole l pushed popped)
    (done : ∀ p, (l (.inl p)).values = []) (few : whole.cells.length ≤ plan.sevens) :
    ∀ v ∈ whole.cells, v = 7 := by
  intro v member
  rw [← recorded.stored] at member few
  rw [List.length_map] at few
  obtain ⟨⟨p, w⟩, left, same⟩ := List.mem_map.mp member
  have mine : v ∈ byThread p (pushed.drop popped) := by
    apply List.mem_map.mpr
    exact ⟨(p, w), List.mem_filter.mpr ⟨left, by simp⟩, same⟩
  have whole_thread := recorded.pushes p
  rw [done p, List.append_nil] at whole_thread
  have last := byThread_drop_suffix p popped pushed
  rw [whole_thread] at last
  have short := length_byThread_le p (pushed.drop popped)
  have only : byThread p (pushed.drop popped) <:+ List.replicate plan.sevens 7 := by
    apply List.suffix_of_suffix_length_le last (List.suffix_append ..)
    rw [List.length_replicate]
    omega
  exact List.eq_of_mem_replicate (only.subset mine)

omit [DecidableEq κ] in
theorem Recorded.totals (recorded : Recorded plan whole l pushed popped) (done : finished l) :
    pushed.length = plan.allPushed π ∧ popped = plan.allPopped κ := by
  have noValues : ∀ t, (l t).values = [] := fun t => (values_of_finished (done t)).1
  have noPops : ∀ t, (l t).toPop = 0 := fun t => (values_of_finished (done t)).2
  have pushes : toPushTotal l = 0 := by simp [toPushTotal, noValues]
  have pops : toPopTotal l = 0 := by simp [toPopTotal, noPops]
  have pushed_total := recorded.pushed_total
  have popped_total := recorded.popped_total
  rw [pushes] at pushed_total
  rw [pops] at popped_total
  constructor <;> omega

omit [DecidableEq κ] in
/-- When all threads have returned, what is left over is as many sevens as pushed values were
    not popped. -/
theorem Recorded.leftover (recorded : Recorded plan whole l pushed popped) (done : finished l) :
    plan.allPopped κ ≤ plan.allPushed π ∧
    whole.cells.length = plan.allPushed π - plan.allPopped κ ∧
    (plan.allPushed π - plan.allPopped κ ≤ plan.sevens →
      whole.cells = List.replicate (plan.allPushed π - plan.allPopped κ) 7) := by
  obtain ⟨pushes, pops⟩ := recorded.totals done
  have within := recorded.within
  have length : whole.cells.length = plan.allPushed π - plan.allPopped κ := by
    rw [← recorded.stored, List.length_map, List.length_drop, pushes, pops]
  refine ⟨by omega, length, ?_⟩
  intro few
  apply List.eq_replicate_iff.mpr
  refine ⟨length, ?_⟩
  apply recorded.sevens _ (length ▸ few)
  intro p
  exact (values_of_finished (done (.inl p))).1

/-! ## What is left to do -/

/-- How many values are left to push and to pop. -/
def toDo (l : π ⊕ κ → Worker) : Nat := (toPushTotal l + toPopTotal l).toNat

omit [DecidableEq π] [Fintype π] [Fintype κ] [DecidableEq κ] in
theorem Worker.request_of_values {worker : Worker} (more : worker.values ≠ []) :
    ∃ v, worker.request = some (.push_back v) := by
  cases worker with
  | PushBackOnly fives sevens =>
      cases fives with
      | succ fives => exact ⟨5, rfl⟩
      | zero =>
          cases sevens with
          | zero => exact absurd rfl more
          | succ sevens => exact ⟨7, rfl⟩
  | PopFrontOnly pops => exact absurd rfl more

omit [DecidableEq π] [DecidableEq κ] in
theorem toPop_le_total : ((l t).toPop : Int) ≤ toPopTotal l :=
  Finset.single_le_sum (f := fun t => ((l t).toPop : Int)) (fun _ _ => by simp) (Finset.mem_univ t)

omit [DecidableEq π] [DecidableEq κ] in
theorem values_le_total : ((l t).values.length : Int) ≤ toPushTotal l :=
  Finset.single_le_sum (f := fun t => ((l t).values.length : Int)) (fun _ _ => by simp)
    (Finset.mem_univ t)

/-- While a thread has values to push, one can be pushed; then, if enough were pushed, one can
    be popped. -/
theorem Recorded.progress (recorded : Recorded plan whole l pushed popped)
    (enough : plan.allPopped κ ≤ plan.allPushed π) (more : ¬ finished l) :
    ∃ t request whole' reply, (l t).request = some request ∧
      whole.Calls request whole' reply ∧
      toDo (Function.update l t ((l t).resume reply)) < toDo l := by
  by_cases pushing : ∃ t, (l t).values ≠ []
  · obtain ⟨t, some_left⟩ := pushing
    obtain ⟨v, calls⟩ := request_of_values some_left
    obtain ⟨values, toPop⟩ := values_of_push calls .pushed
    refine ⟨t, _, _, _, calls, rfl, ?_⟩
    have one : (l t).values.length = ((l t).resume .pushed).values.length + 1 := by
      rw [values, List.length_cons]
    have within : ((l t).values.length : Int) ≤ toPushTotal l := values_le_total
    have pops : ((l t).toPop : Int) ≤ toPopTotal l := toPop_le_total
    unfold toDo
    rw [toPushTotal_update, toPopTotal_update, toPop]
    omega
  · have pushed_all : toPushTotal l = 0 := by
      simp only [ne_eq, not_exists, not_not] at pushing
      simp [toPushTotal, pushing]
    obtain ⟨t, waits⟩ := not_forall.mp more
    obtain ⟨request, calls⟩ := Option.ne_none_iff_exists'.mp waits
    have pop : request = ListRequest.pop_front := by
      cases push_or_pop calls with
      | inl push =>
          obtain ⟨v, rfl⟩ := push
          have values := (values_of_push calls .pushed).1
          exact absurd ⟨t, by simp [values]⟩ pushing
      | inr pop => exact pop
    subst pop
    obtain ⟨pops, worker⟩ := pops_of_pop calls
    have left : ((l t).toPop : Int) ≤ toPopTotal l := toPop_le_total
    rw [worker] at left
    simp only [toPop] at left
    have pushed_total := recorded.pushed_total
    have popped_total := recorded.popped_total
    have stored := congrArg List.length recorded.stored
    rw [List.length_map, List.length_drop] at stored
    cases cells : whole.cells with
    | nil =>
        rw [cells, List.length_nil] at stored
        omega
    | cons v rest =>
        obtain ⟨whole', run, _⟩ := BlockingList.pop_front_of_cons cells
        refine ⟨t, _, whole', .popped (some v), calls, ?_, ?_⟩
        · simp [BlockingList.Calls, BlockingList.call, run]
        · unfold toDo
          rw [toPushTotal_update, toPopTotal_update, worker]
          simp only [resume, values, toPop, List.length_nil]
          omega

theorem can_finish_calls {s : (Unit × BlockingList Int) × (π ⊕ κ → Worker)}
    (reached : Reachable (calls plan) s) (enough : plan.allPopped κ ≤ plan.allPushed π) :
    ∃ s', Relation.ReflTransGen (calls plan).step s s' ∧ finished s'.2 := by
  induction left : toDo s.2 using Nat.strong_induction_on generalizing s with
  | _ n ih =>
      by_cases done : finished s.2
      · exact ⟨s, .refl, done⟩
      · obtain ⟨⟨g, whole⟩, l⟩ := s
        obtain ⟨pushed, popped, recorded⟩ := recorded_of_reachable reached
        obtain ⟨t, request, whole', reply, calls, called, less⟩ := recorded.progress enough done
        have move : AtomicMove (client π κ plan) BlockingList.Calls t (g, whole) (l t)
          (g, whole') ((l t).resume reply) := .call calls called
        have step : (ListTest.calls plan).step ((g, whole), l)
          ((g, whole'), Function.update l t ((l t).resume reply)) := ⟨t, _, _, move, rfl⟩
        obtain ⟨s', path, done'⟩ := ih _ (left ▸ less) (reached.step step) rfl
        exact ⟨s', .head step path, done'⟩

end Record

/-! ## The test -/

section Program

variable {A π κ : Type} [DecidableEq A] [Infinite A] [DecidableEq π] [DecidableEq κ] {plan : Plan}

/-- The test as it runs: every action of every thread one after another. -/
abbrev program (A π κ : Type) [DecidableEq A] [DecidableEq π] [DecidableEq κ] (plan : Plan) :
    System (Shared (π ⊕ κ) Unit (CellList A × Heap A (ListCell A Int)) ×
      (π ⊕ κ → Point Worker (ListPoint A Int))) :=
  locked (client π κ plan) (blockingList A Int)

/-- All threads have been joined. -/
def joined (p : π ⊕ κ → Point Worker (ListPoint A Int)) : Prop :=
  ∀ t, ∃ worker, p t = .outside worker ∧ worker.request = none

omit [Infinite A] in
theorem checking_of_represents {list : CellList A} {memory : Heap A (ListCell A Int)}
    {whole : BlockingList Int} (same : Represents list memory whole) {left : Nat}
    (cells : whole.cells = List.replicate left 7) {fuel : Nat} (enough : left < fuel) :
    checking (left % 2 ^ 32) fuel list memory = some true := by
  obtain ⟨objects, holds, values⟩ := same
  have length : objects.length = left := by
    rw [← List.length_replicate (n := left) (a := (7 : Int)), ← cells, values, cellValues, List.length_map]
  obtain ⟨list', memory', run, empty, _⟩ := holds.destroy (length ▸ enough)
  have size : list.size = left % 2 ^ 32 := by
    unfold CellList.size
    rw [holds.counted, length]
    rfl
  have none : list'.empty = true := by
    simp [CellList.empty, empty.counted]
  simp [checking, run, size, none, ← values, cells]

variable [Fintype π] [Fintype κ]

theorem leftover_of_joined {x : Shared (π ⊕ κ) Unit (CellList A × Heap A (ListCell A Int))}
    {p : π ⊕ κ → Point Worker (ListPoint A Int)} (reached : Reachable (program A π κ plan) (x, p))
    (done : joined p) : ∃ whole : BlockingList Int, Represents x.object.1 x.object.2 whole ∧
      plan.allPopped κ ≤ plan.allPushed π ∧
      whole.cells.length = plan.allPushed π - plan.allPopped κ ∧
      (plan.allPushed π - plan.allPopped κ ≤ plan.sevens →
        whole.cells = List.replicate (plan.allPushed π - plan.allPopped κ) 7) := by
  obtain ⟨whole, same, represents⟩ := whole_of_reachable reached
  obtain ⟨pushed, popped, recorded⟩ := recorded_of_reachable same
  have returned : finished (clients p) := by
    intro t
    obtain ⟨worker, here, none⟩ := done t
    unfold clients
    rw [here]
    exact none
  have free : x.lock = none := by
    cases locked : x.lock with
    | none => rfl
    | some t =>
        have inside : (p t).isInside = true := (owned_of_reachable reached t).mp locked
        obtain ⟨worker, here, _⟩ := done t
        rw [here] at inside
        cases inside
  exact ⟨whole, represents free, recorded.leftover returned⟩

theorem can_join {x : Shared (π ⊕ κ) Unit (CellList A × Heap A (ListCell A Int))}
    {p : π ⊕ κ → Point Worker (ListPoint A Int)} (reached : Reachable (program A π κ plan) (x, p))
    (enough : plan.allPopped κ ≤ plan.allPushed π) :
    ∃ s, Relation.ReflTransGen (program A π κ plan).step (x, p) s ∧ joined s.2 := by
  obtain ⟨⟨⟨g, list, memory⟩, l⟩, between, path⟩ :=
    can_unlock rank_falls (fun _ => defined_of_reachable) reached
  obtain ⟨whole, same, represents⟩ := represents_of_reachable between
  obtain ⟨s, rest, done⟩ := can_finish_calls same enough
  obtain ⟨list', memory', _, rest'⟩ := performed_path represents rest
  refine ⟨_, path.trans rest', ?_⟩
  intro t
  exact ⟨s.2 t, rfl, done t⟩

omit [Infinite A] [Fintype π] [Fintype κ] in
theorem program_start : Reachable (program A π κ plan) (⟨(), none, (blockingList A Int).fresh⟩,
    placed (Sum.elim (fun _ => .PushBackOnly plan.fives plan.sevens)
      fun _ => .PopFrontOnly plan.pops)) :=
  .init ⟨rfl, rfl, ⟨fun _ => rfl, fun _ => rfl⟩, fun _ => rfl⟩

/-- However the threads interleave, once they have been joined `size` is what was pushed and not
    popped. If that is at most what one thread pushes of the sevens, the checks of the test hold. -/
theorem checks_hold {x : Shared (π ⊕ κ) Unit (CellList A × Heap A (ListCell A Int))}
    {p : π ⊕ κ → Point Worker (ListPoint A Int)} (reached : Reachable (program A π κ plan) (x, p))
    (done : joined p) : plan.allPopped κ ≤ plan.allPushed π ∧
      x.object.1.size = (plan.allPushed π - plan.allPopped κ) % 2 ^ 32 ∧
      (plan.allPushed π - plan.allPopped κ ≤ plan.sevens →
        ∀ fuel > plan.allPushed π - plan.allPopped κ,
          checking ((plan.allPushed π - plan.allPopped κ) % 2 ^ 32) fuel x.object.1 x.object.2 =
            some true) := by
  obtain ⟨whole, represents, within, length, cells⟩ := leftover_of_joined reached done
  refine ⟨within, ?_, ?_⟩
  · rw [represents.size, BlockingList.size, whole.counted, length]
    rfl
  · intro few fuel enough
    exact checking_of_represents represents (cells few) enough

/-- The test with its own numbers: 20 values are left over. -/
theorem checks_hold_twenty :
    ∃ s, Reachable (program Nat (Fin 2) (Fin 2) ⟨50000, 50000, 99990⟩) s ∧ joined s.2 ∧
      s.1.object.1.size = 20 ∧ checking 20 21 s.1.object.1 s.1.object.2 = some true := by
  have start : Reachable (program Nat (Fin 2) (Fin 2) ⟨50000, 50000, 99990⟩) _ := program_start
  obtain ⟨⟨x, p⟩, path, done⟩ := can_join start (by decide)
  have reached := start.later path
  obtain ⟨_, size, checks⟩ := checks_hold reached done
  exact ⟨(x, p), reached, done, size, checks (by decide) 21 (by decide)⟩

/-- From any state the threads can all come to return, exactly if no more values are to be
    popped than pushed. -/
theorem can_join_iff {x : Shared (π ⊕ κ) Unit (CellList A × Heap A (ListCell A Int))}
    {p : π ⊕ κ → Point Worker (ListPoint A Int)}
    (reached : Reachable (program A π κ plan) (x, p)) :
    (∃ s, Relation.ReflTransGen (program A π κ plan).step (x, p) s ∧ joined s.2) ↔
      plan.allPopped κ ≤ plan.allPushed π := by
  constructor
  · intro join
    obtain ⟨⟨y, q⟩, path, done⟩ := join
    obtain ⟨_, _, within, _, _⟩ := leftover_of_joined (reached.later path) done
    exact within
  · intro enough
    exact can_join reached enough

/-- With one value more to pop the test would not end. -/
theorem can_join_iff_hundred_thousand :
    ¬ ∃ s, Relation.ReflTransGen (program Nat (Fin 2) (Fin 2) ⟨50000, 50000, 100001⟩).step
      (⟨(), none, (blockingList Nat Int).fresh⟩,
        placed (Sum.elim (fun _ => .PushBackOnly 50000 50000) fun _ => .PopFrontOnly 100001)) s ∧
      joined s.2 := by
  rw [can_join_iff program_start]
  decide

end Program

end KMeans.ListTest
