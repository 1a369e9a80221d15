import HornLogic.Proofs.Unification.Termination

/-!
# Most general unifiers

Under acyclic bindings, unification with the occurs check decides whether the
bindings have a solution that makes two terms equal.  If they have one, the
bindings that it answers with are solved by exactly those solutions.
-/

namespace HornLogic

/-- Unification with the occurs check computes a most general unifier relative
to acyclic bindings, or finds out that there is no unifier. -/
theorem unify_mostGeneral (left right : Term) {bindings : Bindings}
    (acyclic : bindings.Acyclic) :
    ∃ answer, answer ≠ .unfinished ∧
      (∃ enough, ∀ effort, enough ≤ effort →
        unify true effort left right bindings = answer) ∧
      (∀ effort, unify true effort left right bindings = .unfinished ∨
        unify true effort left right bindings = answer) ∧
      ((∃ extended, answer = .unified extended) ↔
        ∃ assign, bindings.SolvedBy assign ∧
          left.subst assign = right.subst assign) ∧
      ∀ extended, answer = .unified extended →
        extended.Acyclic ∧ extended.Extends bindings ∧
          left.substitute extended = right.substitute extended ∧
          ∀ assign, bindings.SolvedBy assign →
            left.subst assign = right.subst assign →
              extended.SolvedBy assign := by
  obtain ⟨enough, finished⟩ := unify_finishes left right acyclic
  refine ⟨unify true enough left right bindings, finished,
    ⟨enough, fun effort => unify_eq_of_finished finished⟩, ?_, ?_, ?_⟩
  · intro effort
    rcases Nat.le_total effort enough with less | more
    · by_cases answered : unify true effort left right bindings = .unfinished
      · exact .inl answered
      · exact .inr (unify_eq_of_finished answered less).symm
    · exact .inr (unify_eq_of_finished finished more)
  · constructor
    · intro ⟨extended, answer⟩
      obtain ⟨extendedAcyclic, _, solutions⟩ := unified_solutions acyclic answer
      exact ⟨extended.resolve,
        (solutions extended.resolve).mp extendedAcyclic.solvedBy_resolve⟩
    · intro ⟨assign, solved, equal⟩
      cases answer : unify true enough left right bindings with
      | unified extended => exact ⟨extended, rfl⟩
      | unfinished => exact absurd answer finished
      | clash => exact absurd equal (no_solution_of_clash acyclic answer solved)
  · intro extended answer
    obtain ⟨extendedAcyclic, extension, solutions⟩ := unified_solutions acyclic answer
    refine ⟨extendedAcyclic, extension, ?_, ?_⟩
    · exact ((solutions extended.resolve).mp extendedAcyclic.solvedBy_resolve).2
    · intro assign solvedBefore equal
      exact (solutions assign).mpr ⟨solvedBefore, equal⟩

/-- Under a binding of `X` to `f(Y)`, the terms `p(X, Z)` and `p(f(a), g(Y))`
have a most general unifier: it binds `Y` and `Z` as well. -/
theorem unify_mostGeneral_under_binding :
    (Bindings.empty.bind "X" (.app "f" [.var "Y"])).Acyclic ∧
      ∃ extended : Bindings, extended.Acyclic ∧
        extended.toList = [("X", .app "f" [.var "Y"]), ("Y", .atom "a"),
          ("Z", .app "g" [.var "Y"])] ∧
        ∀ assign, (Bindings.empty.bind "X" (.app "f" [.var "Y"])).SolvedBy assign →
          (Term.app "p" [.var "X", .var "Z"]).subst assign =
            (Term.app "p" [.app "f" [.atom "a"], .app "g" [.var "Y"]]).subst assign →
            extended.SolvedBy assign := by
  have acyclic : (Bindings.empty.bind "X" (.app "f" [.var "Y"])).Acyclic :=
    (unify_settles 1 (.var "X") (.app "f" [.var "Y"]) Bindings.acyclic_empty).1
  have computed : unify true 3 (.app "p" [.var "X", .var "Z"])
      (.app "p" [.app "f" [.atom "a"], .app "g" [.var "Y"]])
      (Bindings.empty.bind "X" (.app "f" [.var "Y"])) =
        .unified (Bindings.ofList [("X", .app "f" [.var "Y"]), ("Y", .atom "a"),
          ("Z", .app "g" [.var "Y"])]) := by
    decide
  obtain ⟨answer, _, ⟨enough, settled⟩, _, _, general⟩ :=
    unify_mostGeneral (.app "p" [.var "X", .var "Z"])
      (.app "p" [.app "f" [.atom "a"], .app "g" [.var "Y"]]) acyclic
  have answered := settled (max 3 enough) (Nat.le_max_right _ _)
  rw [unify_eq_of_finished (by simp [computed]) (Nat.le_max_left 3 enough),
    computed] at answered
  obtain ⟨extendedAcyclic, _, _, mostGeneral⟩ := general _ answered.symm
  exact ⟨acyclic, _, extendedAcyclic, by decide, mostGeneral⟩

end HornLogic
