import HornLogic.Proofs.Term.Substitution
import HornLogic.Search.Basic

/-!
# Derivable goals

What a search is to prove is defined without any search: a conjunction is
derivable when both of its goals are, a test when its terms have no common
instance, and any other goal when it is an instance of the head of a clause
whose body is derivable under the same substitution.  Clauses that were
renamed have the same instances.
-/

namespace HornLogic

namespace Term

theorem goalForm_both (left right : Term) :
    (Term.both left right).goalForm = .both left right := by
  simp [both, goalForm]

theorem goalForm_notUnifiable (left right : Term) :
    (Term.notUnifiable left right).goalForm = .notUnifiable left right := by
  simp [notUnifiable, goalForm, notUnifiableName, conjunctionName]

theorem both_inj {left right otherLeft otherRight : Term} :
    Term.both left right = .both otherLeft otherRight ↔
      left = otherLeft ∧ right = otherRight := by
  simp [both]

theorem goalForm_cases (term : Term) :
    (∃ name, term = .var name ∧ term.goalForm = .notCallable) ∨
    (∃ left right, term = .both left right ∧ term.goalForm = .both left right) ∨
    (∃ left right, term = .notUnifiable left right ∧
      term.goalForm = .notUnifiable left right) ∨
    ∃ signature, term.signature? = some signature ∧
      term.goalForm = .call signature := by
  cases term with
  | var name => exact .inl ⟨name, rfl, rfl⟩
  | atom name => exact .inr (.inr (.inr ⟨_, rfl, rfl⟩))
  | app functor args =>
      right
      rcases args with _ | ⟨left, _ | ⟨right, _ | ⟨third, others⟩⟩⟩
      · exact .inr (.inr ⟨_, rfl, rfl⟩)
      · exact .inr (.inr ⟨_, rfl, rfl⟩)
      · by_cases conjunction : functor = conjunctionName
        · subst conjunction
          exact .inl ⟨left, right, rfl, goalForm_both left right⟩
        · right
          by_cases test : functor = notUnifiableName
          · subst test
            exact .inl ⟨left, right, rfl, goalForm_notUnifiable left right⟩
          · exact .inr ⟨_, rfl, by simp [goalForm, conjunction, test]⟩
      · exact .inr (.inr ⟨_, rfl, rfl⟩)

theorem eq_both_of_goalForm {term left right : Term}
    (form : term.goalForm = .both left right) : term = .both left right := by
  rcases term.goalForm_cases with ⟨_, _, other⟩ | ⟨_, _, same, other⟩ |
    ⟨_, _, _, other⟩ | ⟨_, _, other⟩ <;> rw [other] at form <;> cases form
  exact same

theorem eq_notUnifiable_of_goalForm {term left right : Term}
    (form : term.goalForm = .notUnifiable left right) :
    term = .notUnifiable left right := by
  rcases term.goalForm_cases with ⟨_, _, other⟩ | ⟨_, _, _, other⟩ |
    ⟨_, _, same, other⟩ | ⟨_, _, other⟩ <;> rw [other] at form <;> cases form
  exact same

theorem signature?_of_goalForm {term : Term} {signature : Signature}
    (form : term.goalForm = .call signature) : term.signature? = some signature := by
  rcases term.goalForm_cases with ⟨_, _, other⟩ | ⟨_, _, _, other⟩ |
    ⟨_, _, _, other⟩ | ⟨_, named, other⟩ <;> rw [other] at form <;> cases form
  exact named

theorem signature?_subst {term : Term} {signature : Signature}
    (named : term.signature? = some signature) (assign : String → Term) :
    (term.subst assign).signature? = some signature := by
  cases term with
  | var name => cases named
  | atom name => exact named
  | app functor args => simpa [signature?] using named

theorem goalForm_subst {term : Term} {signature : Signature}
    (form : term.goalForm = .call signature) (assign : String → Term) :
    (term.subst assign).goalForm = .call signature := by
  cases term with
  | var name => cases form
  | atom name => exact form
  | app functor args =>
      rcases args with _ | ⟨left, _ | ⟨right, _ | ⟨third, others⟩⟩⟩
      · simpa [goalForm] using form
      · simpa [goalForm] using form
      · by_cases conjunction : functor = conjunctionName
        · simp [goalForm, conjunction] at form
        · by_cases test : functor = notUnifiableName
          · simp [goalForm, test, notUnifiableName, conjunctionName] at form
          · simpa [goalForm, conjunction, test] using form
      · simpa [goalForm] using form

@[simp] theorem subst_both (left right : Term) (assign : String → Term) :
    (Term.both left right).subst assign =
      .both (left.subst assign) (right.subst assign) := by
  simp [both]

@[simp] theorem subst_notUnifiable (left right : Term) (assign : String → Term) :
    (Term.notUnifiable left right).subst assign =
      .notUnifiable (left.subst assign) (right.subst assign) := by
  simp [notUnifiable]

end Term

/-- Goals that can be derived from clauses. -/
inductive Derivable (clauses : List Clause) : Term → Prop where
  | both {left right : Term} :
      Derivable clauses left → Derivable clauses right →
      Derivable clauses (.both left right)
  | notUnifiable {left right : Term} :
      (∀ assign, left.subst assign ≠ right.subst assign) →
      Derivable clauses (.notUnifiable left right)
  | clause {goal : Term} {signature : Signature} {clause : Clause}
      {assign : String → Term} :
      goal.goalForm = .call signature → clause ∈ clauses →
      goal = clause.head.subst assign →
      (∀ condition ∈ clause.body, Derivable clauses (condition.subst assign)) →
      Derivable clauses goal

/-- Goals that can be derived from clauses without tests: conjunctions by both
of their goals, and all other goals by a clause. -/
inductive ClauseDerivable (clauses : List Clause) : Term → Prop where
  | both {left right : Term} :
      ClauseDerivable clauses left → ClauseDerivable clauses right →
      ClauseDerivable clauses (.both left right)
  | clause {goal : Term} {clause : Clause} {assign : String → Term} :
      (∀ left right, goal ≠ .both left right) → clause ∈ clauses →
      goal = clause.head.subst assign →
      (∀ condition ∈ clause.body,
        ClauseDerivable clauses (condition.subst assign)) →
      ClauseDerivable clauses goal

theorem ClauseDerivable.of_both {clauses : List Clause} {left right : Term}
    (derivable : ClauseDerivable clauses (.both left right)) :
    ClauseDerivable clauses left ∧ ClauseDerivable clauses right := by
  generalize same : Term.both left right = goal at derivable
  cases derivable with
  | both leftDerivable rightDerivable =>
      obtain ⟨rfl, rfl⟩ := Term.both_inj.mp same
      exact ⟨leftDerivable, rightDerivable⟩
  | clause other _ _ _ => exact absurd same.symm (other left right)

/-- A goal that calls a predicate is derived by a clause of this predicate. -/
theorem ClauseDerivable.of_call {clauses : List Clause} {goal : Term}
    {signature : Signature} (derivable : ClauseDerivable clauses goal)
    (form : goal.goalForm = .call signature)
    (callable : ∀ clause ∈ clauses, clause.signature?.isSome) :
    ∃ clause ∈ clauses, clause.signature? = some signature ∧ ∃ assign,
      goal = clause.head.subst assign ∧
        ∀ condition ∈ clause.body,
          ClauseDerivable clauses (condition.subst assign) := by
  cases derivable with
  | both leftDerivable rightDerivable =>
      rw [Term.goalForm_both] at form
      cases form
  | @clause _ clause assign _ member same body =>
      refine ⟨clause, member, ?_, assign, same, body⟩
      obtain ⟨headSignature, headNamed⟩ := Option.isSome_iff_exists.mp
        (callable clause member)
      have goalNamed := Term.signature?_of_goalForm form
      rw [same, Term.signature?_subst headNamed assign] at goalNamed
      exact headNamed.trans goalNamed

end HornLogic
