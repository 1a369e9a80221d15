import HornLogic.Proofs.Bindings.Chains
import HornLogic.Unification

/-!
# Answers of the occurs check

Without a bound on its depth, the occurs check is a recursion through walks and
arguments, which asks the arguments in turn until one contains the variable.  Under
cyclic bindings it comes to an answer if it finds the variable before it opens a
value inside itself, and goes on for ever otherwise.  No value that leads to an
answer is opened inside itself, so the bounded check has an answer whenever there is
one, and then gives the same.
-/

namespace HornLogic

@[simp] theorem anyName?_singleton (test : String → Option Bool) (name : String) :
    anyName? test [name] = test name := by
  cases answered : test name with
  | none => simp [anyName?, answered]
  | some answer => cases answer <;> simp [anyName?, answered]

theorem anyName?_append (test : String → Option Bool) (names others : List String) :
    anyName? test (names ++ others) =
      match anyName? test names with
      | some false => anyName? test others
      | answer => answer := by
  induction names with
  | nil => rfl
  | cons name names induction =>
      cases answered : test name with
      | none => simp [anyName?, answered]
      | some found => cases found <;> simp [anyName?, answered, induction]

theorem anyName?_of_agree {test later : String → Option Bool} {names : List String}
    (agree : ∀ name ∈ names, ∀ answer, test name = some answer → later name = some answer)
    {answer : Bool} (answered : anyName? test names = some answer) :
    anyName? later names = some answer := by
  induction names with
  | nil => exact answered
  | cons name names induction =>
      have others := fun other member => agree other (List.mem_cons_of_mem name member)
      cases first : test name with
      | none => simp [anyName?, first] at answered
      | some found =>
          have laterFirst := agree name List.mem_cons_self found first
          cases found with
          | true => simpa [anyName?, first, laterFirst] using answered
          | false =>
              simp only [anyName?, first] at answered
              simpa only [anyName?, laterFirst] using induction others answered

namespace Bindings

mutual

/-- The occurs check of a term, without a bound on its depth, comes to an answer: it
looks at the end of the walk, and asks the arguments that it finds there. -/
inductive CheckAnswers (bindings : Bindings) (name : String) : Term → Bool → Prop where
  | var {term : Term} {last : String} (ended : bindings.walk term = .var last) :
      CheckAnswers bindings name term (last == name)
  | atom {term : Term} {constant : String} (ended : bindings.walk term = .atom constant) :
      CheckAnswers bindings name term false
  | app {term : Term} {functor : String} {args : List Term} {answer : Bool}
      (ended : bindings.walk term = .app functor args)
      (asked : AnyCheckAnswers bindings name args answer) :
      CheckAnswers bindings name term answer

/-- List counterpart of `CheckAnswers`: the terms are asked in turn until the
variable is found. -/
inductive AnyCheckAnswers (bindings : Bindings) (name : String) : List Term → Bool → Prop where
  | nil : AnyCheckAnswers bindings name [] false
  | found {term : Term} {terms : List Term} (first : CheckAnswers bindings name term true) :
      AnyCheckAnswers bindings name (term :: terms) true
  | next {term : Term} {terms : List Term} {answer : Bool}
      (first : CheckAnswers bindings name term false)
      (others : AnyCheckAnswers bindings name terms answer) :
      AnyCheckAnswers bindings name (term :: terms) answer

end

variable {bindings : Bindings} {name : String}

theorem CheckAnswers.of_walk {term other : Term} {answer : Bool}
    (answers : bindings.CheckAnswers name other answer)
    (same : bindings.walk term = bindings.walk other) :
    bindings.CheckAnswers name term answer := by
  cases answers with
  | var ended => exact .var (same.trans ended)
  | atom ended => exact .atom (same.trans ended)
  | app ended asked => exact .app (same.trans ended) asked

theorem occursAt_of_le {room more : Nat} (enough : room ≤ more) {other : String}
    {answer : Bool} (answered : bindings.occursAt name room other = some answer) :
    bindings.occursAt name more other = some answer := by
  induction room generalizing more other answer with
  | zero => simp [occursAt] at answered
  | succ room induction =>
      obtain ⟨less, rfl⟩ : ∃ less, more = less + 1 := ⟨more - 1, by omega⟩
      cases walked : bindings.walk (.var other) with
      | var last => simpa only [occursAt, walked] using answered
      | atom constant =>
          simpa only [occursAt, walked, Term.occurrences_atom, anyName?] using answered
      | app functor args =>
          simp only [occursAt, walked] at answered ⊢
          exact anyName?_of_agree (fun _ _ _ => induction (by omega)) answered

/-- There is room to answer about one variable that is not enough for another. -/
def NeedsMore (bindings : Bindings) (name first second : String) : Prop :=
  ∃ room, bindings.occursAt name room first = none ∧
    bindings.occursAt name room second ≠ none

theorem NeedsMore.trans {first second third : String}
    (firstNeeds : bindings.NeedsMore name first second)
    (secondNeeds : bindings.NeedsMore name second third) :
    bindings.NeedsMore name first third := by
  obtain ⟨room, firstOpen, secondAnswered⟩ := firstNeeds
  obtain ⟨less, secondOpen, thirdAnswered⟩ := secondNeeds
  obtain ⟨answer, answered⟩ := Option.ne_none_iff_exists'.mp secondAnswered
  obtain ⟨third, thirdAnswer⟩ := Option.ne_none_iff_exists'.mp thirdAnswered
  have smaller : less ≤ room := by
    by_contra larger
    rw [occursAt_of_le (by omega) answered] at secondOpen
    cases secondOpen
  exact ⟨room, firstOpen, by simp [occursAt_of_le smaller thirdAnswer]⟩

/-- Variables are ranked by the room that they need. -/
theorem exists_ranks_needsMore (bindings : Bindings) (name : String) :
    ∃ rank, Ranks (bindings.NeedsMore name) bindings.names rank := by
  apply HornLogic.exists_ranks
  · rintro first second ⟨room, firstOpen, secondAnswered⟩
    by_contra unbound
    cases room with
    | zero => simp [occursAt] at secondAnswered
    | succ room => simp [occursAt, walk_of_unbound (get?_eq_none_iff.mpr unbound)] at firstOpen
  · intro first cycle
    have transitive : IsTrans String (bindings.NeedsMore name) := ⟨fun _ _ _ => NeedsMore.trans⟩
    rw [Relation.transGen_eq_self] at cycle
    obtain ⟨room, unanswered, answered⟩ := cycle
    exact answered unanswered

/-- Room above the rank of a variable is enough for an answer about it, if there is
one. -/
theorem occursAt_of_rank {rank : String → Nat}
    (ranks : Ranks (bindings.NeedsMore name) bindings.names rank) {room more : Nat}
    {other : String} {answer : Bool}
    (answered : bindings.occursAt name room other = some answer) (enough : rank other < more) :
    bindings.occursAt name more other = some answer := by
  induction room generalizing more other answer with
  | zero => simp [occursAt] at answered
  | succ room induction =>
      cases before : bindings.occursAt name room other with
      | some earlier =>
          rw [occursAt_of_le (Nat.le_succ room) before] at answered
          exact induction (before.trans answered) enough
      | none =>
          obtain ⟨less, rfl⟩ : ∃ less, more = less + 1 := ⟨more - 1, by omega⟩
          cases walked : bindings.walk (.var other) with
          | var last => simpa only [occursAt, walked] using answered
          | atom constant =>
              simpa only [occursAt, walked, Term.occurrences_atom, anyName?] using answered
          | app functor args =>
              simp only [occursAt, walked] at answered ⊢
              refine anyName?_of_agree (fun inner _ found innerAnswered => ?_) answered
              have smaller : rank inner < rank other :=
                ranks.falls ⟨room, before, by simp [innerAnswered]⟩
              exact induction innerAnswered (by omega)

/-- The room of the bounded check is enough for an answer, if there is one. -/
theorem occursAt_size_succ {room : Nat} {other : String} {answer : Bool}
    (answered : bindings.occursAt name room other = some answer) :
    bindings.occursAt name (bindings.size + 1) other = some answer := by
  obtain ⟨rank, ranks⟩ := bindings.exists_ranks_needsMore name
  have fits : rank other ≤ bindings.size := by simpa using ranks.bounded other
  exact occursAt_of_rank ranks answered (Nat.lt_succ_of_le fits)

theorem occursIn_of_walk_var {term : Term} {last : String}
    (ended : bindings.walk term = .var last) :
    bindings.occursIn name term = some (last == name) := by
  cases term with
  | var other => simp [occursIn, occursAt, ended]
  | atom constant => simp at ended
  | app functor args => simp at ended

theorem occursIn_of_walk_atom {term : Term} {constant : String}
    (ended : bindings.walk term = .atom constant) :
    bindings.occursIn name term = some false := by
  cases term with
  | var other => simp [occursIn, occursAt, ended, anyName?]
  | atom constant => rfl
  | app functor args => simp at ended

theorem occursIn_of_walk_app {term : Term} {functor : String} {args : List Term}
    (ended : bindings.walk term = .app functor args) {answer : Bool}
    (answered : bindings.occursIn name (.app functor args) = some answer) :
    bindings.occursIn name term = some answer := by
  cases term with
  | var other =>
      have roomier : bindings.occursAt name (bindings.size + 1 + 1) other = some answer := by
        simpa only [occursAt, ended, occursIn] using answered
      rw [occursIn, Term.occurrences_var, anyName?_singleton]
      exact occursAt_size_succ roomier
  | atom constant => simp at ended
  | app functor args =>
      rw [walk_app] at ended
      rwa [ended]

mutual

theorem CheckAnswers.occursIn_eq {term : Term} {answer : Bool}
    (answers : bindings.CheckAnswers name term answer) :
    bindings.occursIn name term = some answer := by
  match answers with
  | .var ended => exact occursIn_of_walk_var ended
  | .atom ended => exact occursIn_of_walk_atom ended
  | .app ended asked =>
      apply occursIn_of_walk_app ended
      rw [occursIn, Term.occurrences_app]
      exact AnyCheckAnswers.anyName?_eq asked

theorem AnyCheckAnswers.anyName?_eq {terms : List Term} {answer : Bool}
    (answers : bindings.AnyCheckAnswers name terms answer) :
    anyName? (bindings.occursAt name (bindings.size + 1)) (terms.flatMap Term.occurrences) =
      some answer := by
  match answers with
  | .nil => rfl
  | .found first =>
      have firstFound := CheckAnswers.occursIn_eq first
      rw [occursIn] at firstFound
      rw [List.flatMap_cons, anyName?_append, firstFound]
  | .next first others =>
      have firstAbsent := CheckAnswers.occursIn_eq first
      rw [occursIn] at firstAbsent
      rw [List.flatMap_cons, anyName?_append, firstAbsent]
      exact AnyCheckAnswers.anyName?_eq others

end

theorem anyCheckAnswers_of_anyName? {test : String → Option Bool} {terms : List Term}
    (each : ∀ term ∈ terms, ∀ answer, anyName? test term.occurrences = some answer →
      bindings.CheckAnswers name term answer) {answer : Bool}
    (answered : anyName? test (terms.flatMap Term.occurrences) = some answer) :
    bindings.AnyCheckAnswers name terms answer := by
  induction terms with
  | nil =>
      obtain rfl : false = answer := by simpa [anyName?] using answered
      exact .nil
  | cons term terms induction =>
      obtain ⟨ofFirst, ofOthers⟩ := List.forall_mem_cons.mp each
      rw [List.flatMap_cons, anyName?_append] at answered
      cases first : anyName? test term.occurrences with
      | none => simp [first] at answered
      | some found =>
          have answers := ofFirst found first
          cases found with
          | true =>
              obtain rfl : true = answer := by simpa [first] using answered
              exact .found answers
          | false => exact .next answers (induction ofOthers (by simpa [first] using answered))

/-- Asking about the variables of a term is asking about the term. -/
theorem checkAnswers_of_anyName? {test : String → Option Bool}
    (ofVariables : ∀ other answer, test other = some answer →
      bindings.CheckAnswers name (.var other) answer) {term : Term} {answer : Bool}
    (answered : anyName? test term.occurrences = some answer) :
    bindings.CheckAnswers name term answer := by
  induction term generalizing answer with
  | atom constant =>
      obtain rfl : false = answer := by simpa [anyName?] using answered
      exact .atom rfl
  | var other =>
      rw [Term.occurrences_var, anyName?_singleton] at answered
      exact ofVariables other answer answered
  | app functor args induction =>
      rw [Term.occurrences_app] at answered
      exact .app rfl (anyCheckAnswers_of_anyName? (fun arg member _ => induction arg member)
        answered)

theorem anyCheckAnswers_any {test : Term → Bool} {terms : List Term}
    (each : ∀ term ∈ terms, bindings.CheckAnswers name term (test term)) :
    bindings.AnyCheckAnswers name terms (terms.any test) := by
  induction terms with
  | nil => exact .nil
  | cons term terms induction =>
      obtain ⟨first, others⟩ := List.forall_mem_cons.mp each
      cases answer : test term with
      | true =>
          rw [answer] at first
          simpa [answer] using AnyCheckAnswers.found first
      | false =>
          rw [answer] at first
          simpa [answer] using AnyCheckAnswers.next first (induction others)

/-- What the bounded check answers about a variable is an answer of the check. -/
theorem checkAnswers_of_occursAt {room : Nat} {other : String} {answer : Bool}
    (answered : bindings.occursAt name room other = some answer) :
    bindings.CheckAnswers name (.var other) answer := by
  induction room generalizing other answer with
  | zero => simp [occursAt] at answered
  | succ room induction =>
      cases walked : bindings.walk (.var other) with
      | var last =>
          obtain rfl : (last == name) = answer := by simpa [occursAt, walked] using answered
          exact .var walked
      | atom constant =>
          obtain rfl : false = answer := by simpa [occursAt, walked, anyName?] using answered
          exact .atom walked
      | app functor args =>
          simp only [occursAt, walked] at answered
          have opened : bindings.CheckAnswers name (.app functor args) answer :=
            checkAnswers_of_anyName? (fun _ _ => induction) answered
          exact opened.of_walk walked

/-- The bounded check has the answers of the check without a bound, under all
bindings. -/
theorem occursIn_eq_some_iff (bindings : Bindings) (name : String) (term : Term)
    (answer : Bool) :
    bindings.occursIn name term = some answer ↔ bindings.CheckAnswers name term answer := by
  constructor
  · exact checkAnswers_of_anyName? fun _ _ => checkAnswers_of_occursAt
  · exact CheckAnswers.occursIn_eq

end Bindings

end HornLogic
