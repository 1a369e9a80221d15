import HornLogic.Proofs.Bindings.Renaming
import HornLogic.Proofs.Unification.CheckAnswers
import HornLogic.Proofs.Unification.Step

/-!
# Unification of renamed terms

An injective renaming of the terms and of the bindings renames what comes of
their unification, for every effort.  So unification of the renamed terms ends
exactly if that of the terms does, under all bindings.
-/

namespace HornLogic

def Attempt.rename (change : String ↪ String) : Attempt → Attempt
  | .unified bindings => .unified (bindings.rename change)
  | .clash => .clash
  | .unfinished => .unfinished

/-- Renaming the names is asking about renamed names. -/
theorem anyName?_map {test renamed : String → Option Bool} {change : String → String}
    {names : List String} (same : ∀ name, renamed (change name) = test name) :
    anyName? renamed (names.map change) = anyName? test names := by
  induction names with
  | nil => rfl
  | cons name names induction =>
      simp only [List.map_cons, anyName?, same, induction]

variable (change : String ↪ String)

namespace Bindings

variable (bindings : Bindings)

theorem occursAt_rename (name : String) (room : Nat) (other : String) :
    (bindings.rename change).occursAt (change name) room (change other) =
      bindings.occursAt name room other := by
  induction room generalizing other with
  | zero => rfl
  | succ room induction =>
      have walked := bindings.walk_rename change (.var other)
      rw [Term.rename_var] at walked
      simp only [occursAt, walked]
      cases bindings.walk (.var other) with
      | atom constant => rfl
      | var last =>
          rw [Term.rename_var]
          exact congrArg some (decide_eq_decide.mpr change.injective.eq_iff)
      | app functor args =>
          have asked := @anyName?_map _ _ change (Term.app functor args).occurrences induction
          rwa [← Term.occurrences_rename] at asked

theorem occursIn_rename (name : String) (term : Term) :
    (bindings.rename change).occursIn (change name) (term.rename change) =
      bindings.occursIn name term := by
  rw [occursIn, occursIn, size_rename, Term.occurrences_rename]
  exact anyName?_map (bindings.occursAt_rename change name (bindings.size + 1))

/-- The check without a bound on its depth comes to the same answers. -/
theorem checkAnswers_rename_iff {name : String} {term : Term} {answer : Bool} :
    (bindings.rename change).CheckAnswers (change name) (term.rename change) answer ↔
      bindings.CheckAnswers name term answer := by
  rw [← occursIn_eq_some_iff, ← occursIn_eq_some_iff, occursIn_rename]

theorem bindChecked_rename (occursCheck : Bool) (name : String) (term : Term) :
    (bindings.rename change).bindChecked occursCheck (change name) (term.rename change) =
      (bindings.bindChecked occursCheck name term).rename change := by
  rw [bindChecked, bindChecked, occursIn_rename, ← bind_rename]
  cases occursCheck with
  | false => rfl
  | true =>
      cases bindings.occursIn name term with
      | none => rfl
      | some occurs => cases occurs <;> rfl

end Bindings

theorem unifyPairs_rename {unifyPair : Term → Term → Bindings → Attempt}
    (renamed : ∀ left right bindings,
      unifyPair (left.rename change) (right.rename change) (bindings.rename change) =
        (unifyPair left right bindings).rename change)
    (lefts rights : List Term) (bindings : Bindings) :
    unifyPairs unifyPair (lefts.map (Term.rename change)) (rights.map (Term.rename change))
        (bindings.rename change) =
      (unifyPairs unifyPair lefts rights bindings).rename change := by
  induction lefts generalizing rights bindings with
  | nil => rfl
  | cons left lefts induction =>
      cases rights with
      | nil => rfl
      | cons right rights =>
          simp only [List.map_cons, unifyPairs, renamed]
          cases unifyPair left right bindings with
          | clash => rfl
          | unfinished => rfl
          | unified extended => exact induction rights extended

theorem unify_rename (occursCheck : Bool) (effort : Nat) (left right : Term)
    (bindings : Bindings) :
    unify occursCheck effort (left.rename change) (right.rename change)
        (bindings.rename change) =
      (unify occursCheck effort left right bindings).rename change := by
  induction effort generalizing left right bindings with
  | zero => rfl
  | succ effort induction =>
      simp only [unify, Bindings.walk_rename, Term.rename_inj change.injective]
      by_cases equal : bindings.walk left = bindings.walk right
      · simp only [equal, if_true]
        rfl
      · simp only [equal, if_false]
        have bound := bindings.bindChecked_rename change occursCheck
        cases leftEnd : bindings.walk left with
        | var name => exact bound name _
        | atom leftName =>
            cases rightEnd : bindings.walk right with
            | var name => exact bound name (.atom leftName)
            | atom rightName => rfl
            | app rightName rights => rfl
        | app leftName lefts =>
            cases rightEnd : bindings.walk right with
            | var name => exact bound name (.app leftName lefts)
            | atom rightName => rfl
            | app rightName rights =>
                simp only [Term.rename_app, List.length_map]
                split
                · exact unifyPairs_rename change induction lefts rights bindings
                · rfl

/-- Unification of renamed terms ends with the renamed answer. -/
theorem unifyEnds_rename_iff {occursCheck : Bool} {left right : Term} {bindings : Bindings}
    {answer : Attempt} :
    UnifyEnds occursCheck (left.rename change) (right.rename change) (bindings.rename change)
        answer ↔
      ∃ original, UnifyEnds occursCheck left right bindings original ∧
        answer = original.rename change := by
  simp only [unifyEnds_iff, unify_rename]
  constructor
  · rintro ⟨finished, effort, rfl⟩
    refine ⟨_, ⟨?_, effort, rfl⟩, rfl⟩
    intro unfinished
    rw [unfinished] at finished
    exact finished rfl
  · rintro ⟨original, ⟨finished, effort, answered⟩, rfl⟩
    refine ⟨?_, effort, by rw [answered]⟩
    cases original with
    | unified extended => simp [Attempt.rename]
    | clash => simp [Attempt.rename]
    | unfinished => exact absurd rfl finished

/-- Injective renaming goes through walks, resolution, the occurs check and unification,
whatever the bindings: the check and unification of what was renamed end exactly if
they do without renaming, and with the renamed answer.  Renamed bindings list the renamed
variables and values in the same order. -/
theorem unification_respects_renaming (bindings : Bindings) :
    (bindings.rename change).toList =
        bindings.toList.map (fun entry => (change entry.1, entry.2.rename change)) ∧
      (∀ term, (bindings.rename change).walk (term.rename change) =
        (bindings.walk term).rename change) ∧
      (∀ term : Term, (term.rename change).substitute (bindings.rename change) =
        (term.substitute bindings).rename change) ∧
      (∀ name term,
        (bindings.rename change).occursIn (change name) (term.rename change) =
            bindings.occursIn name term ∧
          ∀ answer,
            (bindings.rename change).CheckAnswers (change name) (term.rename change) answer ↔
              bindings.CheckAnswers name term answer) ∧
      ∀ occursCheck left right answer,
        UnifyEnds occursCheck (left.rename change) (right.rename change)
            (bindings.rename change) answer ↔
          ∃ original, UnifyEnds occursCheck left right bindings original ∧
            answer = original.rename change := by
  refine ⟨bindings.toList_rename change, bindings.walk_rename change,
    bindings.substitute_rename change, ?_, ?_⟩
  · intro name term
    exact ⟨bindings.occursIn_rename change name term,
      fun _ => bindings.checkAnswers_rename_iff change⟩
  · intro occursCheck left right answer
    exact unifyEnds_rename_iff change

end HornLogic
