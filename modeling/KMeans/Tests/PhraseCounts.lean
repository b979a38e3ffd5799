import Mathlib.Algebra.BigOperators.Fin
import Mathlib.Data.Fintype.Prod
import KMeans.Tests.Printing

/-! # What `test_index_locker` reports

After the joins the test splits each string of `result` at its semicolons and counts how
often each piece occurs. -/

namespace KMeans.Printing

open Transition Sections

/-! ## `split_str` -/

/-- `in.find(";", begin)`, `none` for `npos`. -/
def find (text : List Char) (start : Nat) : Option Nat :=
  ((text.drop start).findIdx? (· == ';')).map (start + ·)

/-- `in.substr(begin, count)`, `none` for the exception. -/
def substr (text : List Char) (start count : Nat) : Option (List Char) :=
  if start ≤ text.length then some ((text.drop start).take count) else none

/-- The loop of `split_str` and its last line; `none` at the end of the fuel. -/
def splitLoop (text : List Char) :
    Nat → Nat → Option Nat → List (List Char) → Option (List (List Char))
  | 0, _, _, _ => none
  | _ + 1, start, none, out => do
      let piece ← substr text start text.length
      some (out ++ [piece])
  | fuel + 1, start, some stop, out => do
      let piece ← substr text start (stop - start)
      splitLoop text fuel (stop + 1) (find text (stop + 1)) (out ++ [piece])

def split_str (fuel : Nat) (text : List Char) : Option (List (List Char)) :=
  splitLoop text fuel 0 (find text 0) []

theorem find_of_notMem {done rest : List Char} (absent : ';' ∉ rest) :
    find (done ++ rest) done.length = none := by
  unfold find
  rw [List.drop_left, Option.map_eq_none_iff, List.findIdx?_eq_none_iff]
  intro letter member
  exact beq_eq_false_iff_ne.mpr fun same => absent (same ▸ member)

theorem find_of_first {done piece rest : List Char} (absent : ';' ∉ piece) :
    find (done ++ (piece ++ ';' :: rest)) done.length = some (done.length + piece.length) := by
  have none : piece.findIdx? (· == ';') = none := by
    apply List.findIdx?_eq_none_iff.mpr
    intro letter member
    exact beq_eq_false_iff_ne.mpr fun same => absent (same ▸ member)
  unfold find
  rw [List.drop_left, List.findIdx?_append, none]
  simp [List.findIdx?_cons]

/-- The loop takes one turn for each semicolon that is left. -/
theorem splitLoop_append {fuel : Nat} {done rest : List Char} (enough : rest.length < fuel)
    (out : List (List Char)) :
    splitLoop (done ++ rest) fuel done.length (find (done ++ rest) done.length) out =
      some (out ++ rest.splitOn ';') := by
  induction fuel generalizing done rest out with
  | zero => exact absurd enough (Nat.not_lt_zero _)
  | succ fuel ih =>
      by_cases member : ';' ∈ rest
      · obtain ⟨piece, more, rfl, absent⟩ := List.eq_append_cons_of_mem member
        have left : more.length < fuel := by
          simp only [List.length_append, List.length_cons] at enough
          omega
        have step := @ih (done ++ (piece ++ [';'])) more left (out ++ [piece])
        have place : (done ++ (piece ++ [';'])).length = done.length + piece.length + 1 := by
          simp [Nat.add_assoc]
        have text : done ++ (piece ++ [';']) ++ more = done ++ (piece ++ ';' :: more) := by simp
        rw [place, text] at step
        rw [find_of_first absent, List.splitOn_append_cons_self_of_not_mem absent]
        simp only [splitLoop, substr, List.length_append, Nat.le_add_right, if_true,
          List.drop_left, Nat.add_sub_cancel_left, List.take_left, Option.bind_eq_bind,
          Option.bind_some]
        rw [step, List.append_assoc, List.singleton_append]
      · rw [find_of_notMem member, List.splitOn_eq_singleton member]
        simp [splitLoop, substr]

/-- `split_str` gives the pieces between the semicolons. -/
theorem split_str_eq {fuel : Nat} {text : List Char} (enough : text.length < fuel) :
    split_str fuel text = some (text.splitOn ';') := by
  have whole := @splitLoop_append fuel [] text enough []
  rwa [List.nil_append, List.nil_append] at whole

theorem notMem_of_mem_splitOn {text piece : List Char} (member : piece ∈ text.splitOn ';') :
    ';' ∉ piece := by
  induction length : text.length using Nat.strong_induction_on generalizing text with
  | _ n ih =>
      by_cases more : ';' ∈ text
      · obtain ⟨first, rest, rfl, absent⟩ := List.eq_append_cons_of_mem more
        rw [List.splitOn_append_cons_self_of_not_mem absent] at member
        cases List.mem_cons.mp member with
        | inl here => exact here ▸ absent
        | inr later =>
            apply ih rest.length _ later rfl
            simp only [List.length_append, List.length_cons] at length
            omega
      · rw [List.splitOn_eq_singleton more] at member
        exact List.mem_singleton.mp member ▸ more

/-- Splitting at the semicolons and joining with them undo each other. -/
theorem split_str_round_trip :
    (∀ text : List Char, ∃ pieces, split_str (text.length + 1) text = some pieces ∧
      [';'].intercalate pieces = text ∧ ∀ piece ∈ pieces, ';' ∉ piece) ∧
    ∀ pieces : List (List Char), pieces ≠ [] → (∀ piece ∈ pieces, ';' ∉ piece) →
      split_str (([';'].intercalate pieces).length + 1) ([';'].intercalate pieces) =
        some pieces := by
  constructor
  · intro text
    refine ⟨text.splitOn ';', split_str_eq (Nat.lt_succ_self _), List.intercalate_splitOn ';', ?_⟩
    intro piece member
    exact notMem_of_mem_splitOn member
  · intro pieces some free
    rw [split_str_eq (Nat.lt_succ_self _), List.splitOn_intercalate ';' free some]

/-! ## `res_strings` -/

/-- `res_strings`: what it maps a string to, if anything. -/
abbrev Counts := List Char → Option Int

/-- One turn of the loop over the pieces; `none` when an `int` overflows. -/
def count (res_strings : Counts) (piece : List Char) : Option Counts :=
  match res_strings piece with
  | some number =>
      if number < 2147483647 then
        some (Function.update res_strings piece (some (number + 1)))
      else none
  | none => some (Function.update res_strings piece (some 1))

/-- The loop over `result`. -/
def report (fuel : Nat) : List (List Char) → Counts → Option Counts
  | [], res_strings => some res_strings
  | text :: result, res_strings => do
      let split_strings ← split_str fuel text
      let res_strings ← split_strings.foldlM count res_strings
      report fuel result res_strings

/-- The map after some pieces have been counted. -/
def countsOf (pieces : List (List Char)) : Counts := fun piece =>
  if pieces.count piece = 0 then none else some (pieces.count piece : Int)

theorem count_countsOf {pieces : List (List Char)} {piece : List Char}
    (within : pieces.count piece < 2147483647) :
    count (countsOf pieces) piece = some (countsOf (pieces ++ [piece])) := by
  have next : Function.update (countsOf pieces) piece (some (pieces.count piece + 1 : Int)) =
      countsOf (pieces ++ [piece]) := by
    funext other
    unfold countsOf
    by_cases same : other = piece
    · subst same
      simp [List.count_append]
    · simp [List.count_append, same, Ne.symm same]
  unfold count
  by_cases none : pieces.count piece = 0
  · simp only [countsOf, none, if_true] at next ⊢
    exact congrArg some next
  · have less : (pieces.count piece : Int) < 2147483647 := by omega
    have here : countsOf pieces piece = some (pieces.count piece : Int) := if_neg none
    simp only [here]
    rw [if_pos less, next]

theorem foldlM_count {before pieces : List (List Char)}
    (within : ∀ piece, (before ++ pieces).count piece ≤ 2147483647) :
    pieces.foldlM count (countsOf before) = some (countsOf (before ++ pieces)) := by
  induction pieces generalizing before with
  | nil =>
      rw [List.append_nil]
      rfl
  | cons piece pieces ih =>
      have less : before.count piece < 2147483647 := by
        have enough := within piece
        simp only [List.count_append, List.count_cons_self] at enough
        omega
      have shift : before ++ piece :: pieces = before ++ [piece] ++ pieces := by simp
      rw [shift] at within ⊢
      rw [List.foldlM_cons, count_countsOf less, Option.bind_eq_bind, Option.bind_some, ih within]

theorem report_eq {fuel : Nat} {result : List (List Char)}
    (enough : ∀ text ∈ result, text.length < fuel) {before : List (List Char)}
    (within : ∀ piece, (before ++ (result.map fun text => text.splitOn ';').flatten).count piece ≤
      2147483647) :
    report fuel result (countsOf before) =
      some (countsOf (before ++ (result.map fun text => text.splitOn ';').flatten)) := by
  induction result generalizing before with
  | nil => simp [report]
  | cons text result ih =>
      have split := split_str_eq (enough text List.mem_cons_self)
      rw [List.map_cons, List.flatten_cons, ← List.append_assoc] at within ⊢
      have first : ∀ piece, (before ++ text.splitOn ';').count piece ≤ 2147483647 := by
        intro piece
        have bound := within piece
        rw [List.count_append] at bound
        omega
      simp only [report, split, Option.bind_eq_bind, Option.bind_some, foldlM_count first]
      apply ih _ within
      intro text member
      exact enough text (List.mem_cons_of_mem _ member)

/-! ## What the threads have printed -/

section Prints

variable {τ ι : Type} [DecidableEq ι]

/-- The calls of a thread, each with an index and a phrase. -/
def jobsOf (prints : List (ι × List Char)) : List (Print ι) :=
  prints.map fun print => printing print.1 print.2

omit [DecidableEq ι] in
theorem intercalate_phrases (first : List Char) (phrases : List (List Char)) :
    [';'].intercalate (first :: phrases) =
      first ++ (phrases.map fun phrase => ';' :: phrase).flatten := by
  induction phrases generalizing first with
  | nil => simp [List.intercalate_singleton]
  | cons phrase phrases ih =>
      rw [List.intercalate_cons_cons, ih]
      simp

theorem mem_texts {key : ι} {prints : List (ι × List Char)} {text : List Char}
    (member : text ∈ texts key (jobsOf prints)) : ∃ print ∈ prints, text = ';' :: print.2 := by
  unfold texts jobsOf at member
  simp only [List.mem_map, List.mem_filter] at member
  obtain ⟨_, ⟨⟨print, there, rfl⟩, _⟩, rfl⟩ := member
  exact ⟨print, there, rfl⟩

theorem texts_cons (key : ι) (print : ι × List Char) (prints : List (ι × List Char)) :
    texts key (jobsOf (print :: prints)) =
      if print.1 = key then (';' :: print.2) :: texts key (jobsOf prints)
      else texts key (jobsOf prints) := by
  unfold texts jobsOf
  split <;> simp [printing, *]

/-- How often a thread prints a phrase, over all indexes. -/
theorem sum_count_texts [Fintype ι] (prints : List (ι × List Char)) (phrase : List Char) :
    ∑ key, (texts key (jobsOf prints)).count (';' :: phrase) =
      prints.countP fun print => print.2 = phrase := by
  induction prints with
  | nil => simp [texts, jobsOf]
  | cons print prints ih =>
      have each : ∀ key, (texts key (jobsOf (print :: prints))).count (';' :: phrase) =
          (texts key (jobsOf prints)).count (';' :: phrase) +
            if print.1 = key then (if print.2 = phrase then 1 else 0) else 0 := by
        intro key
        rw [texts_cons]
        split <;> simp [List.count_cons]
      simp only [each, Finset.sum_add_distrib, Finset.sum_ite_eq, Finset.mem_univ, if_true]
      rw [ih, List.countP_cons]
      simp

variable [DecidableEq τ]

/-- The texts in a string of `result` are phrases after a semicolon. -/
theorem phrases_of_done {prints : τ → List (ι × List Char)}
    (free : ∀ t, ∀ print ∈ prints t, ';' ∉ print.2) {key : ι} {done : List (τ × List Char)}
    (each : ∀ t, byThread t done = texts key (jobsOf (prints t))) :
    ∃ phrases : List (List Char), (∀ phrase ∈ phrases, ';' ∉ phrase) ∧
      done.map Prod.snd = phrases.map fun phrase => ';' :: phrase := by
  have all : ∀ text ∈ done.map Prod.snd, ∃ phrase, ';' ∉ phrase ∧ text = ';' :: phrase := by
    intro text member
    obtain ⟨⟨t, w⟩, there, same⟩ := List.mem_map.mp member
    have mine : text ∈ byThread t done := by
      apply List.mem_map.mpr
      exact ⟨(t, w), List.mem_filter.mpr ⟨there, by simp⟩, same⟩
    rw [each t] at mine
    obtain ⟨print, printed, same⟩ := mem_texts mine
    exact ⟨print.2, free t print printed, same⟩
  generalize done.map Prod.snd = written at all
  induction written with
  | nil => exact ⟨[], by simp, rfl⟩
  | cons text written ih =>
      obtain ⟨phrase, absent, rfl⟩ := all text List.mem_cons_self
      obtain ⟨phrases, others, rfl⟩ := ih fun text member => all text (List.mem_cons_of_mem _ member)
      exact ⟨phrase :: phrases, by simp [absent]; exact others, rfl⟩

/-- How often a piece is among those of one string: `split_str` puts an empty one before the
    first semicolon. -/
theorem count_splitOn_whole [Fintype τ] {prints : τ → List (ι × List Char)}
    (free : ∀ t, ∀ print ∈ prints t, ';' ∉ print.2) {key : ι} {done : List (τ × List Char)}
    (each : ∀ t, byThread t done = texts key (jobsOf (prints t))) (piece : List Char) :
    ((whole done).splitOn ';').count piece = (if piece = [] then 1 else 0) +
      ∑ t, (texts key (jobsOf (prints t))).count (';' :: piece) := by
  obtain ⟨phrases, absent, written⟩ := phrases_of_done free each
  have pieces : (whole done).splitOn ';' = [] :: phrases := by
    have joined := intercalate_phrases [] phrases
    rw [List.nil_append, ← written] at joined
    unfold whole
    rw [← joined]
    apply List.splitOn_intercalate ';' _ (by simp)
    simpa using absent
  have counted := count_eq_sum done (';' :: piece)
  rw [written] at counted
  simp only [each] at counted
  have same : (phrases.map fun phrase => ';' :: phrase).count (';' :: piece) =
      phrases.count piece := List.count_map_of_injective phrases _ (List.cons_injective) piece
  rw [← counted, same, pieces, List.count_cons, Nat.add_comm]
  congr 1
  cases piece <;> rfl

end Prints

/-! ## The report -/

section Report

variable {τ A : Type} {n : Nat} [DecidableEq τ] [Fintype τ] [DecidableEq A]
  {prints : τ → List (Fin n × List Char)} {result : Fin n → List Char}

/-- What a run of the threads has left in `result`, with either lock, when all have returned. -/
def Printed (A : Type) [DecidableEq A] (prints : τ → List (Fin n × List Char))
    (result : Fin n → List Char) : Prop :=
  (∃ s, Reachable (withMutex fun t => jobsOf (prints t)) s ∧ (∀ t, s.2 t = ⟨[], none⟩) ∧
    s.1.2 = result) ∨
  ∃ s, Reachable (@withLocker τ (Fin n) A _ _ _ fun t => jobsOf (prints t)) s ∧
    (∀ t, (s.2 t).2 = ⟨[], none⟩) ∧ s.1.2 = result

theorem Printed.logs (printed : Printed A prints result) :
    ∃ done : Fin n → List (τ × List Char), (∀ key, result key = whole (done key)) ∧
      ∀ t key, byThread t (done key) = texts key (jobsOf (prints t)) := by
  cases printed with
  | inl mutex =>
      obtain ⟨s, reached, returned, rfl⟩ := mutex
      exact logs_of_done (sections_of_mutex reached) returned
  | inr locker =>
      obtain ⟨s, reached, returned, rfl⟩ := locker
      exact logs_of_done (sections_of_locker reached) returned

/-- How often a piece is among those of all strings of `result`. -/
theorem Printed.count (printed : Printed A prints result)
    (free : ∀ t, ∀ print ∈ prints t, ';' ∉ print.2) (piece : List Char) :
    (((List.finRange n).map result).map fun text => text.splitOn ';').flatten.count piece =
      (if piece = [] then n else 0) +
        ∑ t, (prints t).countP fun print => print.2 = piece := by
  obtain ⟨done, logs, each⟩ := printed.logs
  have counts : ∀ key, ((result key).splitOn ';').count piece = (if piece = [] then 1 else 0) +
      ∑ t, (texts key (jobsOf (prints t))).count (';' :: piece) := fun key => by
    rw [logs key]
    exact count_splitOn_whole free (fun t => each t key) piece
  rw [List.count_flatten, List.map_map, List.map_map, ← Fin.sum_univ_def]
  simp only [Function.comp_apply, counts]
  rw [Finset.sum_add_distrib, Finset.sum_comm]
  simp only [sum_count_texts]
  congr 1
  split <;> simp

/-- However the threads interleave, the report is the same: each phrase as often as it was
    printed, and an empty string for each string of `result`. -/
theorem Printed.report (printed : Printed A prints result)
    (free : ∀ t, ∀ print ∈ prints t, ';' ∉ print.2) {fuel : Nat}
    (enough : ∀ i, (result i).length < fuel)
    (within : ∀ piece, (if piece = [] then n else 0) +
      (∑ t, (prints t).countP fun print => print.2 = piece) ≤ 2147483647) :
    ∃ res_strings, Printing.report fuel ((List.finRange n).map result) (fun _ => none) =
        some res_strings ∧
      ∀ piece, res_strings piece =
        let number := (if piece = [] then n else 0) +
          ∑ t, (prints t).countP fun print => print.2 = piece
        if number = 0 then none else some (number : Int) := by
  have start : (fun _ => none : Counts) = countsOf [] := by
    funext piece
    simp [countsOf]
  refine ⟨countsOf ([] ++
    (((List.finRange n).map result).map fun text => text.splitOn ';').flatten), ?_, ?_⟩
  · rw [start]
    apply report_eq (by simpa using enough)
    intro piece
    rw [List.nil_append, printed.count free piece]
    exact within piece
  · intro piece
    rw [List.nil_append]
    unfold countsOf
    rw [printed.count free piece]

end Report

/-! ## The threads of the test -/

/-- The functions that the test starts threads with, and `print_` functions they call. -/
inductive Kind
  | hello
  | goodbye
  | fuck
  | fine
  deriving DecidableEq

instance : Fintype Kind where
  elems := {.hello, .goodbye, .fuck, .fine}
  complete kind := by cases kind <;> decide

def indexes : Vector (Fin 20) 20 :=
  #v[1, 5, 2, 9, 3, 8, 4, 7, 6, 0, 1, 5, 2, 9, 3, 8, 4, 7, 6, 0]

/-- `phrase1`, …, `phrase4`. -/
def Kind.phrase : Kind → List Char
  | hello => "Hello, How are you?".toList
  | goodbye => "Good bye, nice to meet me!".toList
  | fuck => "Fuck you, Spilberg!".toList
  | fine => "I'm fine, thank you.".toList

/-- The values of `i` in the loop of a thread. -/
def Kind.turns (n : Nat) : Kind → List Nat
  | hello | fuck => List.range n
  | goodbye | fine => (List.range n).reverse

/-- The calls of a thread. -/
def Kind.prints (n : Nat) (kind : Kind) : List (Fin 20 × List Char) :=
  (kind.turns n).map fun i => (indexes.get (Fin.ofNat 20 i), kind.phrase)

namespace Kind

theorem phrase_free (kind : Kind) : ';' ∉ kind.phrase := by
  cases kind <;> decide

theorem phrase_ne_nil (kind : Kind) : kind.phrase ≠ [] := by
  cases kind <;> decide

theorem phrase_inj {kind other : Kind} (same : kind.phrase = other.phrase) : kind = other := by
  revert same
  cases kind <;> cases other <;> decide

theorem countP_prints (n : Nat) (kind : Kind) (piece : List Char) :
    ((kind.prints n).countP fun print => print.2 = piece) = if kind.phrase = piece then n else 0 := by
  have length : (kind.turns n).length = n := by cases kind <;> simp [turns]
  unfold prints
  rw [List.countP_map]
  split
  case isTrue same => simp [Function.comp_def, same, length]
  case isFalse other => simp [Function.comp_def, other]

end Kind

section Test

variable {A : Type} [DecidableEq A] {thr_num n_rep : Nat} {result : Fin 20 → List Char}

/-- What the threads of the test print, for `thr_num` of each kind. -/
def testPrints (thr_num n_rep : Nat) (t : Fin thr_num × Kind) : List (Fin 20 × List Char) :=
  t.2.prints n_rep

theorem free_testPrints (t : Fin thr_num × Kind) :
    ∀ print ∈ testPrints thr_num n_rep t, ';' ∉ print.2 := by
  intro print member
  obtain ⟨i, _, rfl⟩ := List.mem_map.mp member
  exact t.2.phrase_free

theorem sum_testPrints (piece : List Char) :
    (∑ t : Fin thr_num × Kind, (testPrints thr_num n_rep t).countP fun print => print.2 = piece) =
      thr_num * ∑ kind : Kind, if kind.phrase = piece then n_rep else 0 := by
  rw [Fintype.sum_prod_type]
  simp [testPrints, Kind.countP_prints]

/-- A piece is printed by at most one of the four functions. -/
theorem sum_phrases_le (piece : List Char) :
    (∑ kind : Kind, if kind.phrase = piece then n_rep else 0) ≤ n_rep := by
  by_cases some : ∃ kind : Kind, kind.phrase = piece
  · obtain ⟨kind, rfl⟩ := some
    have same : ∀ other : Kind, other.phrase = kind.phrase ↔ other = kind :=
      fun other => ⟨Kind.phrase_inj, fun same => same ▸ rfl⟩
    simp [same]
  · have none : ∀ kind : Kind, kind.phrase ≠ piece := fun kind same => some ⟨kind, same⟩
    simp [none]

/-- The report of the test with either lock: the four phrases `thr_num * n_rep` times each,
    and nothing else but the 20 empty strings before the first semicolons. -/
theorem test_reports (printed : Printed A (testPrints thr_num n_rep) result) {fuel : Nat}
    (enough : ∀ i, (result i).length < fuel) (within : thr_num * n_rep ≤ 2147483647) :
    ∃ res_strings, report fuel ((List.finRange 20).map result) (fun _ => none) =
        some res_strings ∧
      res_strings [] = some 20 ∧
      (∀ kind : Kind, res_strings kind.phrase =
        if thr_num * n_rep = 0 then none else some ((thr_num * n_rep : Nat) : Int)) ∧
      ∀ piece, piece ≠ [] → (∀ kind : Kind, piece ≠ kind.phrase) → res_strings piece = none := by
  have bound : ∀ piece, (if piece = [] then 20 else 0) +
      (∑ t, (testPrints thr_num n_rep t).countP fun print => print.2 = piece) ≤ 2147483647 := by
    intro piece
    rw [sum_testPrints]
    split
    case isTrue nil =>
      simp [nil, Kind.phrase_ne_nil]
    case isFalse =>
      have most := Nat.mul_le_mul_left thr_num (@sum_phrases_le n_rep piece)
      omega
  obtain ⟨res_strings, run, numbers⟩ := printed.report free_testPrints enough bound
  simp only [sum_testPrints] at numbers
  refine ⟨res_strings, run, ?_, ?_, ?_⟩
  · rw [numbers]
    simp [Kind.phrase_ne_nil]
  · intro kind
    have only : (∑ other : Kind, if other.phrase = kind.phrase then n_rep else 0) = n_rep := by
      have same : ∀ other : Kind, other.phrase = kind.phrase ↔ other = kind :=
        fun other => ⟨Kind.phrase_inj, fun same => same ▸ rfl⟩
      simp [same]
    rw [numbers, only, if_neg kind.phrase_ne_nil, Nat.zero_add]
  · intro piece some other
    rw [numbers]
    have none : ∀ kind : Kind, kind.phrase ≠ piece := fun kind => (other kind).symm
    simp [some, none]

/-- The threads can come to their end. -/
theorem exists_printed : ∃ result, Printed A (testPrints thr_num n_rep) result := by
  let jobs := fun t => jobsOf (testPrints thr_num n_rep t)
  have start : Reachable (withMutex jobs) ((none, fun _ => []), fun t => ⟨jobs t, none⟩) :=
    .init ⟨rfl, fun _ => rfl, fun _ => rfl⟩
  have falls : ∀ s s', (withMutex jobs).step s s' →
      ∑ t, (s'.2 t).rank < ∑ t, (s.2 t).rank :=
    threads_falls fun _ _ _ _ _ move => move.rank_lt
  obtain ⟨s, path, done⟩ := exists_done (fun s s' _ => falls s s') (fun _ => mutex_acts) start
  exact ⟨s.1.2, Or.inl ⟨s, start.later path, done, rfl⟩⟩

/-- The report with the numbers of the test. -/
theorem test_reports_three : ∃ (result : Fin 20 → List Char) (fuel : Nat) (res_strings : Counts),
    Printed Nat (testPrints 3 100000) result ∧
    report fuel ((List.finRange 20).map result) (fun _ => none) = some res_strings ∧
    res_strings [] = some 20 ∧ ∀ kind : Kind, res_strings kind.phrase = some 300000 := by
  obtain ⟨result, printed⟩ := @exists_printed Nat _ 3 100000
  have enough : ∀ i, (result i).length < (Finset.univ.sup fun i => (result i).length) + 1 :=
    fun i => Nat.lt_succ_of_le (Finset.le_sup (f := fun i => (result i).length) (Finset.mem_univ i))
  obtain ⟨res_strings, run, empty, phrases, _⟩ := test_reports printed enough (by decide)
  exact ⟨result, _, res_strings, printed, run, empty, fun kind => by rw [phrases kind]; decide⟩

end Test

end KMeans.Printing
