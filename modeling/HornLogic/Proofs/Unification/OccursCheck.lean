import HornLogic.Proofs.Bindings.Resolution
import HornLogic.Proofs.Unification.CheckAnswers

/-!
# The occurs check

Under acyclic bindings the recursion of the occurs check comes to an end, since the
arguments that it opens resolve to smaller terms than the term does.  So the check
always answers, and the answer is whether the variable occurs in the resolved term.
-/

namespace HornLogic

namespace Bindings

variable {bindings : Bindings}

/-- The occurs check of a term goes on with the arguments at the end of its
walk. -/
def Opens (bindings : Bindings) (arg term : Term) : Prop :=
  ∃ functor args, bindings.walk term = .app functor args ∧ arg ∈ args

theorem Acyclic.size_lt_of_opens (acyclic : bindings.Acyclic) {arg term : Term}
    (opens : bindings.Opens arg term) :
    (arg.substitute bindings).size < (term.substitute bindings).size := by
  obtain ⟨functor, args, ended, member⟩ := opens
  rw [← acyclic.substitute_walk term, ended]
  exact Term.size_subst_arg_lt member

/-- Under acyclic bindings the recursion of the occurs check comes to an end. -/
theorem Acyclic.wellFounded_opens (acyclic : bindings.Acyclic) :
    WellFounded bindings.Opens :=
  Subrelation.wf acyclic.size_lt_of_opens
    (measure fun term : Term => (term.substitute bindings).size).wf

/-- The occurs check under acyclic bindings, without a bound on its depth. -/
def Acyclic.occurs (acyclic : bindings.Acyclic) (name : String) (term : Term) : Bool :=
  match ended : bindings.walk term with
  | .var last => last == name
  | .atom _ => false
  | .app functor args =>
      args.attach.any fun arg =>
        have := acyclic.size_lt_of_opens ⟨functor, args, ended, arg.2⟩
        acyclic.occurs name arg.1
termination_by (term.substitute bindings).size

theorem Acyclic.occurs_iff (acyclic : bindings.Acyclic) (name : String) (term : Term) :
    acyclic.occurs name term = true ↔ name ∈ (term.substitute bindings).occurrences := by
  induction term using acyclic.wellFounded_opens.induction with
  | _ term induction =>
      rw [occurs]
      split
      next last ended =>
        have unbound := acyclic.chainsEnd.get?_eq_none_of_walk ended
        rw [← acyclic.substitute_walk term, ended, Term.substitute, Term.subst_var,
          resolve_of_unbound unbound, beq_iff_eq, Term.occurrences_var, List.mem_singleton]
        exact eq_comm
      next constant ended =>
        rw [← acyclic.substitute_walk term, ended]
        simp [Term.substitute]
      next functor args ended =>
        have ofArg : ∀ arg ∈ args, acyclic.occurs name arg = true ↔
            name ∈ (arg.substitute bindings).occurrences :=
          fun arg member => induction arg ⟨functor, args, ended, member⟩
        have resolved : (term.substitute bindings).occurrences =
            args.flatMap fun arg => (arg.substitute bindings).occurrences := by
          rw [← acyclic.substitute_walk term, ended]
          simp [Term.substitute, List.flatMap_map]
        rw [resolved, List.mem_flatMap]
        simp only [List.any_eq_true, List.mem_attach, true_and, Subtype.exists, exists_prop]
        exact exists_congr fun arg => and_congr_right (ofArg arg)

theorem Acyclic.checkAnswers_occurs (acyclic : bindings.Acyclic) (name : String)
    (term : Term) : bindings.CheckAnswers name term (acyclic.occurs name term) := by
  induction term using acyclic.wellFounded_opens.induction with
  | _ term induction =>
      rw [occurs]
      split
      next last ended => exact .var ended
      next constant ended => exact .atom ended
      next functor args ended =>
        have asked : bindings.AnyCheckAnswers name args (args.any (acyclic.occurs name)) :=
          anyCheckAnswers_any fun arg member => induction arg ⟨functor, args, ended, member⟩
        exact .app ended (by simpa using asked)

theorem Acyclic.occursIn_eq_occurs (acyclic : bindings.Acyclic) (name : String) (term : Term) :
    bindings.occursIn name term = some (acyclic.occurs name term) :=
  (acyclic.checkAnswers_occurs name term).occursIn_eq

/-- Under acyclic bindings the occurs check answers whether the variable occurs
in the resolved term. -/
theorem Acyclic.occursIn_eq (acyclic : bindings.Acyclic) (name : String)
    (term : Term) :
    bindings.occursIn name term =
      some (decide (name ∈ (term.substitute bindings).occurrences)) := by
  rw [acyclic.occursIn_eq_occurs, Option.some_inj, Bool.eq_iff_iff, decide_eq_true_iff]
  exact acyclic.occurs_iff name term

theorem Acyclic.bindChecked_eq (acyclic : bindings.Acyclic) (name : String)
    (term : Term) :
    bindings.bindChecked true name term =
      if name ∈ (term.substitute bindings).occurrences then .clash
      else .unified (bindings.bind name term) := by
  rw [bindChecked, acyclic.occursIn_eq]
  by_cases occurs : name ∈ (term.substitute bindings).occurrences
  · simp [occurs]
  · simp [occurs]

/-- Under acyclic bindings the check answers whether the variable occurs in the resolved
term, and these are the answers that it comes to without a bound on its depth. -/
theorem Acyclic.check_tells_occurrence (acyclic : bindings.Acyclic) (name : String)
    (term : Term) :
    (bindings.occursIn name term = some true ↔
        name ∈ (term.substitute bindings).occurrences) ∧
      (bindings.occursIn name term = some false ↔
        name ∉ (term.substitute bindings).occurrences) ∧
      ∀ answer, bindings.CheckAnswers name term answer ↔
        bindings.occursIn name term = some answer := by
  refine ⟨?_, ?_, fun answer => (bindings.occursIn_eq_some_iff name term answer).symm⟩
  · rw [acyclic.occursIn_eq, Option.some_inj, decide_eq_true_iff]
  · rw [acyclic.occursIn_eq, Option.some_inj, decide_eq_false_iff_not]

/-- Under the bindings of `Y` to `g(W)` and of `X` to `f(Y, Z)` the check finds `W` in
`p(V, X)`, and does not find `Y`, which is not left there. -/
theorem Acyclic.check_tells_occurrence_below_bindings :
    ∃ bindings : Bindings,
      bindings.toList = [("Y", .app "g" [.var "W"]), ("X", .app "f" [.var "Y", .var "Z"])] ∧
      bindings.Acyclic ∧
      bindings.occursIn "W" (.app "p" [.var "V", .var "X"]) = some true ∧
      "W" ∈ ((Term.app "p" [.var "V", .var "X"]).substitute bindings).occurrences ∧
      bindings.occursIn "Y" (.app "p" [.var "V", .var "X"]) = some false ∧
      "Y" ∉ ((Term.app "p" [.var "V", .var "X"]).substitute bindings).occurrences := by
  have first : (empty.bind "Y" (.app "g" [.var "W"])).Acyclic :=
    (acyclic_empty.bind_iff rfl).mpr (by decide)
  have acyclic : ((empty.bind "Y" (.app "g" [.var "W"])).bind "X"
      (.app "f" [.var "Y", .var "Z"])).Acyclic :=
    (first.bind_iff (by decide)).mpr (by decide)
  obtain ⟨found, _⟩ := acyclic.check_tells_occurrence "W" (.app "p" [.var "V", .var "X"])
  obtain ⟨_, absent, _⟩ := acyclic.check_tells_occurrence "Y" (.app "p" [.var "V", .var "X"])
  exact ⟨_, by decide, acyclic, by decide, found.mp (by decide), by decide,
    absent.mp (by decide)⟩

end Bindings

end HornLogic
