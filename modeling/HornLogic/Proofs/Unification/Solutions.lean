import HornLogic.Proofs.Unification.Extension
import HornLogic.Proofs.Unification.OccursCheck

/-!
# Solutions of unified bindings

With the occurs check, unification under acyclic bindings turns the equation
of the terms into bindings that are acyclic again and have exactly the
solutions of the old bindings that make the terms equal.  A clash means that
there are no such solutions.
-/

namespace HornLogic

/-- An attempt settles a condition on solutions of bindings: its new bindings
are acyclic and have exactly the solutions that meet the condition, or a clash
says that no solution does. -/
def Attempt.Settles (bindings : Bindings) (condition : (String → Term) → Prop) :
    Attempt → Prop
  | .unified extended =>
      extended.Acyclic ∧ extended.Extends bindings ∧
        ∀ assign, extended.SolvedBy assign ↔
          bindings.SolvedBy assign ∧ condition assign
  | .clash => ∀ assign, bindings.SolvedBy assign → ¬ condition assign
  | .unfinished => True

/-- A variable at the end of a walk does not occur in another walked term
unless it is a proper part of it. -/
theorem Bindings.Acyclic.no_solution_of_occurs {bindings : Bindings}
    (acyclic : bindings.Acyclic) {name : String} {term : Term}
    (different : term ≠ .var name) (walked : bindings.walk term = term)
    (occurs : name ∈ (term.substitute bindings).occurrences)
    {assign : String → Term} (solved : bindings.SolvedBy assign) :
    assign name ≠ term.subst assign := by
  have properPart : term.substitute bindings ≠ .var name := by
    cases term with
    | atom constant => simp [Term.substitute]
    | app functor args => simp [Term.substitute]
    | var other =>
        have unbound := acyclic.chainsEnd.get?_eq_none_of_walk walked
        simpa [Term.substitute, resolve_of_unbound unbound] using different
  rw [← solved.subst_substitute term]
  exact Term.assign_ne_subst occurs properPart

theorem Bindings.ChainsEnd.walk_walk {bindings : Bindings}
    (chains : bindings.ChainsEnd) (term : Term) :
    bindings.walk (bindings.walk term) = bindings.walk term := by
  cases walked : bindings.walk term with
  | atom name => rfl
  | app functor args => rfl
  | var name => exact walk_of_unbound (chains.get?_eq_none_of_walk walked)

/-- Binding a variable at the end of a walk settles its equation with another
walked term. -/
theorem bindChecked_settles {bindings : Bindings} (acyclic : bindings.Acyclic)
    {name : String} {term : Term} (unbound : bindings.get? name = none)
    (different : term ≠ .var name) (walked : bindings.walk term = term) :
    (bindings.bindChecked true name term).Settles bindings
      fun assign => assign name = term.subst assign := by
  rw [acyclic.bindChecked_eq]
  by_cases occurs : name ∈ (term.substitute bindings).occurrences
  · rw [if_pos occurs]
    intro assign solved
    exact acyclic.no_solution_of_occurs different walked occurs solved
  · rw [if_neg occurs]
    exact ⟨(acyclic.bind_iff unbound).mpr occurs, .bind unbound term,
      fun assign => Bindings.solvedBy_bind_iff unbound⟩

theorem unifyPairs_settles {unifyPair : Term → Term → Bindings → Attempt}
    (settles : ∀ left right bindings, bindings.Acyclic →
      (unifyPair left right bindings).Settles bindings
        fun assign => left.subst assign = right.subst assign)
    {lefts rights : List Term} (sameLength : lefts.length = rights.length)
    {bindings : Bindings} (acyclic : bindings.Acyclic) :
    (unifyPairs unifyPair lefts rights bindings).Settles bindings
      fun assign =>
        lefts.map (Term.subst assign) = rights.map (Term.subst assign) := by
  induction lefts generalizing rights bindings with
  | nil =>
      obtain rfl : rights = [] := by simpa [eq_comm] using sameLength
      exact ⟨acyclic, .refl _, fun assign => by simp⟩
  | cons left lefts induction =>
      cases rights with
      | nil => simp at sameLength
      | cons right rights =>
          have othersLength : lefts.length = rights.length := by
            simpa using sameLength
          have first := settles left right bindings acyclic
          cases answer : unifyPair left right bindings with
          | unfinished => simp [unifyPairs, answer, Attempt.Settles]
          | clash =>
              rw [answer] at first
              simp only [unifyPairs, answer]
              intro assign solved equal
              exact first assign solved (by simpa using (List.cons.inj equal).1)
          | unified middle =>
              rw [answer] at first
              obtain ⟨middleAcyclic, middleExtends, middleSolved⟩ := first
              rw [unifyPairs_cons answer]
              have others := induction othersLength middleAcyclic
              cases rest : unifyPairs unifyPair lefts rights middle with
              | unfinished => trivial
              | clash =>
                  rw [rest] at others
                  intro assign solved equal
                  obtain ⟨firstEqual, othersEqual⟩ := List.cons.inj equal
                  exact others assign
                    ((middleSolved assign).mpr ⟨solved, firstEqual⟩) othersEqual
              | unified extended =>
                  rw [rest] at others
                  obtain ⟨extendedAcyclic, extends_, extendedSolved⟩ := others
                  refine ⟨extendedAcyclic, extends_.trans middleExtends, fun assign => ?_⟩
                  calc
                    extended.SolvedBy assign ↔ (bindings.SolvedBy assign ∧
                          left.subst assign = right.subst assign) ∧
                        lefts.map (Term.subst assign) =
                          rights.map (Term.subst assign) := by
                      rw [extendedSolved, middleSolved]
                    _ ↔ _ := by simp [and_assoc]

/-- With the occurs check, unification under acyclic bindings settles the
equation of the terms. -/
theorem unify_settles (effort : Nat) (left right : Term) {bindings : Bindings}
    (acyclic : bindings.Acyclic) :
    (unify true effort left right bindings).Settles bindings
      fun assign => left.subst assign = right.subst assign := by
  induction effort generalizing left right bindings with
  | zero => trivial
  | succ effort induction =>
      have chains := acyclic.chainsEnd
      have step := unify_step true effort left right bindings
      generalize unify true (effort + 1) left right bindings = answer at step
      -- Solutions do not see the walks, so the equation is that of their ends.
      suffices atEnds : answer.Settles bindings fun assign =>
          (bindings.walk left).subst assign = (bindings.walk right).subst assign by
        cases answer with
        | unfinished => trivial
        | clash =>
            intro assign solved equal
            apply atEnds assign solved
            rw [solved.subst_walk, solved.subst_walk, equal]
        | unified extended =>
            obtain ⟨extendedAcyclic, extends_, extendedSolved⟩ := atEnds
            refine ⟨extendedAcyclic, extends_, fun assign => ?_⟩
            rw [extendedSolved]
            refine and_congr_right fun solved => ?_
            simp only [solved.subst_walk]
      cases step with
      | same equal =>
          refine ⟨acyclic, .refl _, fun assign => ?_⟩
          simp [equal]
      | bind name term different ends =>
          have walked : bindings.walk term = term := by
            rcases ends with ⟨_, atTerm⟩ | ⟨atTerm, _⟩
            · rw [← atTerm, chains.walk_walk]
            · rw [← atTerm, chains.walk_walk]
          have unbound : bindings.get? name = none := chains.get?_eq_none_of_ends ends
          have settled := bindChecked_settles acyclic unbound different walked
          rcases ends with ⟨atName, atTerm⟩ | ⟨atTerm, atName⟩
          · simpa only [atName, atTerm, Term.subst_var] using settled
          · simpa only [atName, atTerm, Term.subst_var, eq_comm] using settled
      | args functor lefts rights leftEnd rightEnd sameLength =>
          have settled := unifyPairs_settles
            (fun _ _ _ acyclic => induction _ _ acyclic) sameLength acyclic
          simpa [leftEnd, rightEnd] using settled
      | apart clash =>
          intro assign _
          exact clash assign

/-- Unified bindings have exactly the solutions that make the terms equal. -/
theorem unified_solutions {effort : Nat} {left right : Term}
    {bindings extended : Bindings} (acyclic : bindings.Acyclic)
    (unifies : unify true effort left right bindings = .unified extended) :
    extended.Acyclic ∧ extended.Extends bindings ∧
      ∀ assign, extended.SolvedBy assign ↔
        bindings.SolvedBy assign ∧ left.subst assign = right.subst assign := by
  have settled := unify_settles effort left right acyclic
  rwa [unifies] at settled

theorem no_solution_of_clash {effort : Nat} {left right : Term}
    {bindings : Bindings} (acyclic : bindings.Acyclic)
    (clashes : unify true effort left right bindings = .clash)
    {assign : String → Term} (solved : bindings.SolvedBy assign) :
    left.subst assign ≠ right.subst assign := by
  have settled := unify_settles effort left right acyclic
  rw [clashes] at settled
  exact settled assign solved

theorem UnifyEnds.solutions {left right : Term} {bindings extended : Bindings}
    (ends : UnifyEnds true left right bindings (.unified extended))
    (acyclic : bindings.Acyclic) :
    extended.Acyclic ∧ extended.Extends bindings ∧
      ∀ assign, extended.SolvedBy assign ↔
        bindings.SolvedBy assign ∧ left.subst assign = right.subst assign := by
  obtain ⟨_, effort, answered⟩ := unifyEnds_iff.mp ends
  exact unified_solutions acyclic answered

theorem UnifyEnds.no_solution {left right : Term} {bindings : Bindings}
    (ends : UnifyEnds true left right bindings .clash) (acyclic : bindings.Acyclic)
    {assign : String → Term} (solved : bindings.SolvedBy assign) :
    left.subst assign ≠ right.subst assign := by
  obtain ⟨_, effort, answered⟩ := unifyEnds_iff.mp ends
  exact no_solution_of_clash acyclic answered solved

end HornLogic
