import HornLogic.Proofs.Search.Branches
import HornLogic.Proofs.Search.Calls
import HornLogic.Proofs.Search.Reporting
import HornLogic.Proofs.Unification.MostGeneral

/-!
# Answers are derivable

A search keeps a partial derivation of its query in every branch: whenever a
solution of the bindings makes all goals that are left derivable, it makes the
query derivable.  Each step either works on the goals in a way that a
derivation can follow or leaves the branch for another one, so the bindings of
a proved branch give a derivable instance of the query.
-/

namespace HornLogic

section

variable {clauses : List Clause} {query : Term}

/-- A derivation of the goals completes one of the query, under every solution
of the bindings. -/
structure Completes (clauses : List Clause) (query : Term) (goals : List Goal)
    (bindings : Bindings) : Prop where
  acyclic : bindings.Acyclic
  derives : ∀ assign, bindings.SolvedBy assign →
    (∀ goal ∈ goals, Derivable clauses (goal.term.subst assign)) →
      Derivable clauses (query.subst assign)

theorem completes_start (depth : Nat) :
    Completes clauses query [⟨query, depth⟩] .empty := by
  constructor
  · exact Bindings.acyclic_empty
  · intro assign _ derivable
    exact derivable _ (List.mem_singleton_self _)

/-- A first goal may be replaced by goals that are enough for it. -/
theorem Completes.replace (goals : List Goal) {goal : Goal} {rest : List Goal}
    {bindings : Bindings}
    (completes : Completes clauses query (goal :: rest) bindings)
    (enough : ∀ assign, bindings.SolvedBy assign →
      (∀ condition ∈ goals, Derivable clauses (condition.term.subst assign)) →
        Derivable clauses (goal.term.subst assign)) :
    Completes clauses query (goals ++ rest) bindings := by
  constructor
  · exact completes.acyclic
  · intro assign solved derivable
    apply completes.derives assign solved
    refine List.forall_mem_cons.mpr ⟨?_, ?_⟩
    · apply enough assign solved
      intro condition member
      exact derivable condition (List.mem_append_left rest member)
    · intro other member
      exact derivable other (List.mem_append_right goals member)

theorem completes_branchLaw {prover : Prover}
    (checked : prover.config.occursCheck = true) :
    BranchLaw prover clauses fun _ => Completes clauses query where
  later completes := completes
  walked {_ goal _ bindings} completes := by
    apply completes.replace [⟨bindings.walk goal.term, goal.depth⟩]
    intro assign solved derivable
    have walked := derivable _ (List.mem_singleton_self _)
    rwa [solved.subst_walk] at walked
  both {_ depth left right _ _} completes := by
    apply completes.replace [⟨left, depth⟩, ⟨right, depth⟩]
    intro assign solved derivable
    rw [Term.subst_both]
    apply Derivable.both
    · exact derivable ⟨left, depth⟩ (by simp)
    · exact derivable ⟨right, depth⟩ (by simp)
  passed {_ _ _ left right _ bindings} completes clashes := by
    rw [checked] at clashes
    apply completes.replace []
    intro assign solved _
    rw [Term.subst_notUnifiable]
    apply Derivable.notUnifiable
    -- A common instance of the instances would be one of the resolved terms.
    intro further equality
    apply no_solution_of_clash Bindings.acyclic_empty clashes
      (Bindings.solvedBy_empty fun name => (assign name).subst further)
    rw [← Term.subst_subst, ← Term.subst_subst, solved.subst_substitute,
      solved.subst_substitute]
    exact equality
  entered {_ fresh goal rest bindings extended _ clause} completes form member
      unifies := by
    rw [checked] at unifies
    obtain ⟨acyclic, extension, solutions⟩ := unified_solutions completes.acyclic unifies
    have before : Completes clauses query (goal :: rest) extended := by
      constructor
      · exact acyclic
      · intro assign solved derivable
        exact completes.derives assign (solved.of_extends extension) derivable
    apply before.replace ((clause.freshen fresh).body.map (⟨·, goal.depth + 1⟩))
    intro assign solved derivable
    obtain ⟨_, equality⟩ := (solutions assign).mp solved
    apply Derivable.clause (Term.goalForm_subst form assign) member
    · rw [equality]
      exact Term.subst_rename _ _ _
    · intro condition inBody
      rw [← Term.subst_rename]
      apply derivable ⟨condition.rename (freshName fresh), goal.depth + 1⟩
      exact List.mem_map.mpr ⟨_, List.mem_map_of_mem inBody, rfl⟩

end

theorem KnowledgeBase.mem_of_mem_clausesOf {kb : KnowledgeBase} {signature : Signature}
    {clause : Clause} (member : clause ∈ kb.clausesOf signature) :
    clause ∈ kb.clauses.toList := by
  obtain ⟨position, _, found⟩ := List.mem_filterMap.mp member
  exact Array.mem_toList_iff.mpr (Array.mem_of_getElem? found)

/-- The bindings of a proved branch make the query derivable. -/
theorem derivable_of_reaches {kb : KnowledgeBase} {config : Config} {nextNumber : Nat → Nat}
    (checked : config.occursCheck = true) {query : Term} {search : Search}
    (started : Search.start query = .ok search) {fresh later : Nat}
    {reported : List String} {stack : List Choice} {bindings : Bindings}
    (reached : (kb.prover config nextNumber).Reaches fresh search later
      ⟨reported, .proving [] bindings, stack⟩) :
    Derivable kb.clauses.toList (query.substitute bindings) := by
  have branches := (completes_branchLaw checked).reaches
    (fun _ _ => KnowledgeBase.mem_of_mem_clausesOf) (completes_start 0) started reached
  have completes := branches.present _ _ rfl
  apply completes.derives _ completes.acyclic.solvedBy_resolve
  intro goal member
  cases member

/-- Every solution that a search yields comes from a branch whose bindings make
the query derivable, and it gives to the reported variables their values under
these bindings. -/
theorem solution_derivable {kb : KnowledgeBase} {config : Config} {nextNumber : Nat → Nat}
    (checked : config.occursCheck = true) {query : Term} {search : Search}
    (started : Search.start query = .ok search) {effort calls fresh next : Nat}
    {solution : Solution} {later : Search}
    (answered : (kb.prover config nextNumber).nthNext effort calls fresh search =
      .item (.ok solution) next later) :
    ∃ bindings,
      (kb.prover config nextNumber).Reaches fresh search next
        { later with phase := .proving [] bindings } ∧
      Derivable kb.clauses.toList (query.substitute bindings) ∧
      ∀ name, solution.get? name =
        if name ∈ Search.reportedVariables query ∧
            (Term.var name).substitute bindings ≠ .var name then
          some ((Term.var name).substitute bindings)
        else none := by
  obtain ⟨bindings, reached, found⟩ := Prover.branch_of_nthNext_solution answered
  refine ⟨bindings, reached, derivable_of_reaches checked started reached, ?_⟩
  intro name
  rw [found, eq_of_start started]
  exact Search.get?_solutionUnder

/-- The answer `a` to the query `p(X), X \= b` over the clause `p(a)`. -/
theorem solution_derivable_with_test :
    ∃ search, Search.start
        (.both (.app "p" [.var "X"]) (.notUnifiable (.var "X") (.atom "b"))) = .ok search ∧
      ∃ solution later,
        ((KnowledgeBase.empty.addAll [⟨.app "p" [.atom "a"], []⟩]).1.prover).nthNext
          20 0 7 search = .item (.ok solution) 8 later ∧
        solution.get? "X" = some (.atom "a") ∧
        ∃ bindings, Derivable [⟨.app "p" [.atom "a"], []⟩]
          ((Term.both (.app "p" [.var "X"])
            (.notUnifiable (.var "X") (.atom "b"))).substitute bindings) := by
  refine ⟨_, rfl, _, _, rfl, rfl, ?_⟩
  obtain ⟨bindings, _, derivable, _⟩ := @solution_derivable
    (KnowledgeBase.empty.addAll [⟨.app "p" [.atom "a"], []⟩]).1 {} (· + 1) rfl
    (.both (.app "p" [.var "X"]) (.notUnifiable (.var "X") (.atom "b"))) _ rfl
    20 0 7 8 _ _ rfl
  exact ⟨bindings, derivable⟩

end HornLogic
