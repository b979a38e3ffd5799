import Mathlib.Algebra.BigOperators.Group.Finset.Basic
import KMeans.General.Transition

/-! # Critical sections that write

Each thread enters sections one after another. In a section for a key it appends a text
to the log of the key, piece by piece, and no two threads are in sections for one key.
Then no text in a log is torn by another one, and each thread's texts are in its order.
-/

namespace Sections

open Transition

variable {τ ι W : Type*}

/-- A section: its key and what it appends. -/
structure Job (ι W : Type*) where
  key : ι
  text : List W

/-- A thread: the jobs it has not done, and in a section what it has left to append. -/
structure Scribe (ι W : Type*) where
  jobs : List (Job ι W)
  left : Option (List W)

/-- The key of the section that a thread is in. -/
def Scribe.inside : Scribe ι W → Option ι
  | ⟨job :: _, some _⟩ => some job.key
  | _ => none

@[simp] theorem inside_some (job : Job ι W) (rest : List (Job ι W)) (left : List W) :
    (⟨job :: rest, some left⟩ : Scribe ι W).inside = some job.key := rfl

@[simp] theorem inside_none (rest : List (Job ι W)) :
    (⟨rest, none⟩ : Scribe ι W).inside = none := by
  cases rest <;> rfl

/-- What a thread does to the logs. -/
inductive Write [DecidableEq ι] (log : ι → List W) :
    Scribe ι W → (ι → List W) → Scribe ι W → Prop
  | enter {job jobs} : Write log ⟨job :: jobs, none⟩ log ⟨job :: jobs, some job.text⟩
  | append {job jobs piece left} : Write log ⟨job :: jobs, some (piece :: left)⟩
      (Function.update log job.key (log job.key ++ [piece])) ⟨job :: jobs, some left⟩
  | leave {job jobs} : Write log ⟨job :: jobs, some []⟩ log ⟨jobs, none⟩

/-- How much a thread has left to do: to enter, to append each piece and to leave. -/
def Scribe.rank : Scribe ι W → Nat
  | ⟨jobs, none⟩ => (jobs.map fun job => job.text.length + 2).sum
  | ⟨_ :: jobs, some left⟩ => left.length + 1 + (jobs.map fun job => job.text.length + 2).sum
  | ⟨[], some _⟩ => 0

theorem Write.rank_eq [DecidableEq ι] {log log' : ι → List W} {w w' : Scribe ι W}
    (write : Write log w log' w') : w.rank = w'.rank + 1 := by
  cases write with
  | enter | append | leave =>
      simp only [Scribe.rank, List.map_cons, List.sum_cons, List.length_cons, List.length_nil]
      omega

/-- Any interleaving in which a section is entered only while no thread is in one for its key. -/
def system [DecidableEq τ] [DecidableEq ι] (jobs : τ → List (Job ι W)) :
    System ((ι → List W) × (τ → Scribe ι W)) where
  init s := (∀ key, s.1 key = []) ∧ ∀ t, s.2 t = ⟨jobs t, none⟩
  step s s' := ∃ t log next, Write s.1 (s.2 t) log next ∧
    ((s.2 t).inside = none → ∀ key, next.inside = some key → ∀ u, (s.2 u).inside ≠ some key) ∧
    s' = (log, Function.update s.2 t next)

/-- The texts of the jobs for one key. -/
def texts [DecidableEq ι] (key : ι) (jobs : List (Job ι W)) : List (List W) :=
  (jobs.filter fun job => job.key = key).map Job.text

/-- The texts of one thread. -/
def byThread [DecidableEq τ] (t : τ) (done : List (τ × List W)) : List (List W) :=
  (done.filter fun entry => entry.1 = t).map Prod.snd

/-- The texts one after another. -/
def whole (done : List (τ × List W)) : List W := (done.map Prod.snd).flatten

section Invariant

variable [DecidableEq τ] [DecidableEq ι]

/-- `done key` are the sections for a key that have been left, `part key` is what has been
    written in the one that has not. -/
structure Written (jobs : τ → List (Job ι W)) (log : ι → List W) (scribe : τ → Scribe ι W)
    (done : ι → List (τ × List W)) (part : ι → List W) : Prop where
  exclusive : ∀ t u key, (scribe t).inside = some key → (scribe u).inside = some key → t = u
  log_eq : ∀ key, log key = whole (done key) ++ part key
  inside : ∀ t job rest left, scribe t = ⟨job :: rest, some left⟩ →
    job.text = part job.key ++ left
  outside : ∀ key, (∀ t, (scribe t).inside ≠ some key) → part key = []
  order : ∀ t, ∃ before, jobs t = before ++ (scribe t).jobs ∧
    ∀ key, byThread t (done key) = texts key before

variable {jobs : τ → List (Job ι W)} {log log' : ι → List W} {scribe : τ → Scribe ι W}
  {done : ι → List (τ × List W)} {part : ι → List W} {t : τ} {next : Scribe ι W}

theorem written_start (empty : ∀ key, log key = []) (start : ∀ t, scribe t = ⟨jobs t, none⟩) :
    Written jobs log scribe (fun _ => []) fun _ => [] where
  exclusive := by simp [start, Scribe.inside]
  log_eq := by simp [empty, whole]
  inside := by simp [start]
  outside := fun _ _ => rfl
  order := fun t => ⟨[], by simp [start], by simp [byThread, texts]⟩

theorem Written.apart (written : Written jobs log scribe done part) {u : τ} {job job' : Job ι W}
    {rest rest' : List (Job ι W)} {left left' : List W} (other : u ≠ t)
    (here : scribe t = ⟨job :: rest, some left⟩)
    (there : scribe u = ⟨job' :: rest', some left'⟩) : job'.key ≠ job.key := by
  intro same
  apply other
  apply written.exclusive u t job.key
  · rw [there, inside_some, same]
  · rw [here, inside_some]

theorem Written.enter (written : Written jobs log scribe done part) {job : Job ι W}
    {rest : List (Job ι W)} (here : scribe t = ⟨job :: rest, none⟩)
    (alone : ∀ u, (scribe u).inside ≠ some job.key) :
    Written jobs log (Function.update scribe t ⟨job :: rest, some job.text⟩) done part where
  exclusive := by
    intro u v key first second
    have one := written.exclusive u v key
    have other := written.exclusive v u key
    simp only [Function.update_apply] at first second
    grind [inside_some]
  log_eq := written.log_eq
  inside := by
    intro u job' rest' left there
    rcases eq_or_ne u t with rfl | other
    · obtain ⟨⟨rfl, rfl⟩, rfl⟩ : (job = job' ∧ rest = rest') ∧ job.text = left := by
        simpa using there
      rw [written.outside job.key alone, List.nil_append]
    · rw [Function.update_of_ne other] at there
      exact written.inside u job' rest' left there
  outside := by
    intro key free
    apply written.outside
    intro u
    rcases eq_or_ne u t with rfl | other
    · simp [here]
    · have there := free u
      rwa [Function.update_of_ne other] at there
  order := by
    intro u
    rcases eq_or_ne u t with rfl | other
    · have before := written.order u
      rw [here] at before
      simpa using before
    · rw [Function.update_of_ne other]
      exact written.order u

theorem Written.append (written : Written jobs log scribe done part) {job : Job ι W}
    {rest : List (Job ι W)} {piece : W} {left : List W}
    (here : scribe t = ⟨job :: rest, some (piece :: left)⟩) :
    Written jobs (Function.update log job.key (log job.key ++ [piece]))
      (Function.update scribe t ⟨job :: rest, some left⟩) done
      (Function.update part job.key (part job.key ++ [piece])) where
  exclusive := by
    intro u v key first second
    apply written.exclusive u v key
    · rcases eq_or_ne u t with rfl | other
      · simpa [here] using first
      · rwa [Function.update_of_ne other] at first
    · rcases eq_or_ne v t with rfl | other
      · simpa [here] using second
      · rwa [Function.update_of_ne other] at second
  log_eq := by
    intro key
    rcases eq_or_ne key job.key with rfl | other
    · simp [written.log_eq]
    · rw [Function.update_of_ne other, Function.update_of_ne other, written.log_eq]
  inside := by
    intro u job' rest' left' there
    rcases eq_or_ne u t with rfl | other
    · obtain ⟨⟨rfl, rfl⟩, rfl⟩ : (job = job' ∧ rest = rest') ∧ left = left' := by
        simpa using there
      simp [written.inside u job rest (piece :: left) here]
    · rw [Function.update_of_ne other] at there
      rw [Function.update_of_ne (written.apart other here there)]
      exact written.inside u job' rest' left' there
  outside := by
    intro key free
    have apart : key ≠ job.key := by
      intro same
      have now := free t
      simp [same] at now
    rw [Function.update_of_ne apart]
    apply written.outside
    intro u
    rcases eq_or_ne u t with rfl | other
    · simp [here, apart.symm]
    · have there := free u
      rwa [Function.update_of_ne other] at there
  order := by
    intro u
    rcases eq_or_ne u t with rfl | other
    · have before := written.order u
      rw [here] at before
      simpa using before
    · rw [Function.update_of_ne other]
      exact written.order u

theorem Written.leave (written : Written jobs log scribe done part) {job : Job ι W}
    {rest : List (Job ι W)} (here : scribe t = ⟨job :: rest, some []⟩) :
    Written jobs log (Function.update scribe t ⟨rest, none⟩)
      (Function.update done job.key (done job.key ++ [(t, job.text)]))
      (Function.update part job.key []) where
  exclusive := by
    intro u v key first second
    apply written.exclusive u v key
    · rcases eq_or_ne u t with rfl | other
      · simp at first
      · rwa [Function.update_of_ne other] at first
    · rcases eq_or_ne v t with rfl | other
      · simp at second
      · rwa [Function.update_of_ne other] at second
  log_eq := by
    intro key
    rcases eq_or_ne key job.key with rfl | other
    · have text := written.inside t job rest [] here
      rw [List.append_nil] at text
      simp [whole, written.log_eq, text]
    · rw [Function.update_of_ne other, Function.update_of_ne other, written.log_eq]
  inside := by
    intro u job' rest' left there
    rcases eq_or_ne u t with rfl | other
    · simp at there
    · rw [Function.update_of_ne other] at there
      rw [Function.update_of_ne (written.apart other here there)]
      exact written.inside u job' rest' left there
  outside := by
    intro key free
    rcases eq_or_ne key job.key with rfl | apart
    · rw [Function.update_self]
    · rw [Function.update_of_ne apart]
      apply written.outside
      intro u
      rcases eq_or_ne u t with rfl | other
      · simp [here, apart.symm]
      · have there := free u
        rwa [Function.update_of_ne other] at there
  order := by
    intro u
    rcases eq_or_ne u t with rfl | other
    · obtain ⟨before, all, each⟩ := written.order u
      rw [here] at all
      refine ⟨before ++ [job], by simp [all], ?_⟩
      intro key
      have sofar := each key
      rcases eq_or_ne key job.key with rfl | apart
      · rw [Function.update_self]
        simp only [byThread, texts, List.filter_append, List.map_append] at sofar ⊢
        rw [sofar]
        simp
      · rw [Function.update_of_ne apart, sofar]
        simp [texts, List.filter_append, apart.symm]
    · rw [Function.update_of_ne other]
      obtain ⟨before, all, each⟩ := written.order u
      refine ⟨before, all, ?_⟩
      intro key
      rw [← each key]
      rcases eq_or_ne key job.key with rfl | apart
      · simp [byThread, List.filter_append, other.symm]
      · rw [Function.update_of_ne apart]

theorem written_of_reachable {s : (ι → List W) × (τ → Scribe ι W)}
    (reached : Reachable (system jobs) s) : ∃ done part, Written jobs s.1 s.2 done part := by
  induction reached with
  | init initial => exact ⟨_, _, written_start initial.1 initial.2⟩
  | @step s _ _ move ih =>
      obtain ⟨done, part, written⟩ := ih
      obtain ⟨t, log, next, write, alone, rfl⟩ := move
      generalize here : s.2 t = scribe at write alone
      cases write with
      | enter => exact ⟨done, part, written.enter here (alone (by simp) _ rfl)⟩
      | append => exact ⟨done, _, written.append here⟩
      | leave => exact ⟨_, _, written.leave here⟩

theorem write_reachable {s : (ι → List W) × (τ → Scribe ι W)} (reached : Reachable (system jobs) s)
    {here : Scribe ι W} (place : s.2 t = here) (write : Write s.1 here log next)
    (alone : here.inside = none → ∀ key, next.inside = some key → ∀ u, (s.2 u).inside ≠ some key) :
    Reachable (system jobs) (log, Function.update s.2 t next) := by
  subst place
  exact reached.step ⟨t, log, next, write, alone, rfl⟩

/-! ## When all jobs are done -/

/-- Each log is made of whole texts, those of each thread in its order. -/
theorem logs_of_done {s : (ι → List W) × (τ → Scribe ι W)} (reached : Reachable (system jobs) s)
    (finished : ∀ t, s.2 t = ⟨[], none⟩) : ∃ done : ι → List (τ × List W),
      (∀ key, s.1 key = whole (done key)) ∧
      ∀ t key, byThread t (done key) = texts key (jobs t) := by
  obtain ⟨done, part, written⟩ := written_of_reachable reached
  refine ⟨done, ?_, ?_⟩
  · intro key
    rw [written.log_eq, written.outside key (by simp [finished]), List.append_nil]
  · intro t key
    obtain ⟨before, all, each⟩ := written.order t
    rw [each, all, finished t, List.append_nil]

omit [DecidableEq ι] in
theorem byThread_cons (t u : τ) (text : List W) (done : List (τ × List W)) :
    byThread t ((u, text) :: done) =
      if u = t then text :: byThread t done else byThread t done := by
  unfold byThread
  split <;> simp [*]

omit [DecidableEq ι] in
/-- How often a text was written is how often the threads wrote it. -/
theorem count_eq_sum [Fintype τ] [DecidableEq W] (done : List (τ × List W)) (text : List W) :
    (done.map Prod.snd).count text = ∑ t, (byThread t done).count text := by
  induction done with
  | nil => simp [byThread]
  | cons entry done ih =>
      obtain ⟨u, written⟩ := entry
      have each : ∀ t, (byThread t ((u, written) :: done)).count text =
          (byThread t done).count text + if u = t then [written].count text else 0 := by
        intro t
        rw [byThread_cons]
        split
        · rw [← List.singleton_append, List.count_append, Nat.add_comm]
        · rfl
      simp only [each, Finset.sum_add_distrib, Finset.sum_ite_eq, Finset.mem_univ, if_true]
      rw [← ih, List.map_cons, ← List.singleton_append, List.count_append, Nat.add_comm]

end Invariant

end Sections
