import HornLogic.Proofs.Bindings.SolvedForm
import HornLogic.Proofs.FirstOccurrences
import HornLogic.Proofs.Search.Stack

/-!
# Solutions in solved form

A solution lists the bound variables that its query asks for, in the order in which the
query first mentions them.  Acyclic bindings never resolve a bound variable to itself, so
none of these is left out; and they leave no bound variable in what they resolve, so the
values of a solution mention none of the variables that it lists.
-/

namespace HornLogic

/-- A solution is the solved form of bindings, for the variables of a query. -/
structure Solution.InSolvedForm (query : Term) (bindings : Bindings) (solution : Solution) :
    Prop where
  success : solution.success = true
  /-- It lists the bound variables of the query that do not start with an underscore. -/
  lists : ∀ name, name ∈ solution.bindings.toList.map Prod.fst ↔
    name ∈ query.occurrences ∧ name.toList.head? ≠ some '_' ∧ bindings.get? name ≠ none
  /-- It lists them by their first occurrences in the query, each of them once. -/
  ordered : (solution.bindings.toList.map Prod.fst).Pairwise
    (query.occurrences.idxOf · < query.occurrences.idxOf ·)
  value : ∀ entry ∈ solution.bindings.toList,
    entry.2 = (Term.var entry.1).substitute bindings
  /-- No bound variable is left in a value. -/
  resolved : ∀ entry ∈ solution.bindings.toList, ∀ name ∈ entry.2.occurrences,
    bindings.get? name = none
  /-- No listed variable is left in a value. -/
  apart : ∀ entry ∈ solution.bindings.toList, ∀ name ∈ entry.2.occurrences,
    name ∉ solution.bindings.toList.map Prod.fst

theorem Bindings.Acyclic.inSolvedForm {bindings : Bindings} (acyclic : bindings.Acyclic)
    {query : Term} {solution : Solution}
    (found : solution =
      Search.solutionUnder (Search.reportedVariables query) bindings) :
    solution.InSolvedForm query bindings := by
  have listed : solution.bindings.toList =
      (Search.reportedVariables query).filterMap (Search.reportedValue? bindings) := by
    rw [found]
    exact Search.toList_solutionUnder ((nodup_eraseDups _).filter _)
  have names : solution.bindings.toList.map Prod.fst =
      (Search.reportedVariables query).filter fun name =>
        (Term.var name).substitute bindings ≠ .var name := by
    rw [listed, Search.map_fst_reportedValues]
  have lists : ∀ name, name ∈ solution.bindings.toList.map Prod.fst ↔
      name ∈ query.occurrences ∧ name.toList.head? ≠ some '_' ∧
        bindings.get? name ≠ none := by
    intro name
    rw [names, List.mem_filter, decide_eq_true_iff, Ne, acyclic.substitute_eq_self_iff,
      Search.reportedVariables, List.mem_filter, bne_iff_ne, Term.variableNames,
      List.mem_eraseDups, and_assoc]
  have value : ∀ entry ∈ solution.bindings.toList,
      entry.2 = (Term.var entry.1).substitute bindings := by
    intro entry member
    rw [listed] at member
    exact (Search.mem_reportedValues_iff.mp member).2.1
  have resolved : ∀ entry ∈ solution.bindings.toList, ∀ name ∈ entry.2.occurrences,
      bindings.get? name = none := by
    intro entry member name left
    rw [value entry member] at left
    exact acyclic.get?_eq_none_of_mem_substitute left
  constructor
  · rw [found]
    rfl
  · exact lists
  · rw [names]
    exact ((pairwise_idxOf_eraseDups _).filter _).filter _
  · exact value
  · exact resolved
  · intro entry member name left inside
    obtain ⟨_, _, isBound⟩ := (lists name).mp inside
    exact isBound (resolved entry member name left)

/-- Every solution that a search with the occurs check yields is the solved form of the
bindings of a proved branch. -/
theorem solution_inSolvedForm {kb : KnowledgeBase} {config : Config} {nextNumber : Nat → Nat}
    (checked : config.occursCheck = true) {query : Term} {search : Search}
    (started : Search.start query = .ok search) {effort calls fresh next : Nat}
    {solution : Solution} {later : Search}
    (answered : (kb.prover config nextNumber).nthNext effort calls fresh search =
      .item (.ok solution) next later) :
    ∃ bindings,
      (kb.prover config nextNumber).Reaches fresh search next
        { later with phase := .proving [] bindings } ∧
      solution.InSolvedForm query bindings := by
  obtain ⟨bindings, reached, found⟩ := Prover.branch_of_nthNext_solution answered
  have branches := (descendingBranch_branchLaw checked kb.clauses.toList).reaches
    (fun _ _ => KnowledgeBase.mem_of_mem_clausesOf) (descendingBranch_start query) started
    reached
  have acyclic : bindings.Acyclic := (branches.present _ _ rfl).acyclic
  rw [eq_of_start started] at found
  exact ⟨bindings, reached, acyclic.inSolvedForm found⟩

/-- The query `p(Y, X), p(X, _Z)` over `p(f(A), A)` asks for `Y` first, and the value of
`Y` mentions neither `X` nor the names of `A` that are bound. -/
theorem solution_inSolvedForm_in_order :
    ∃ search, Search.start
        (.both (.app "p" [.var "Y", .var "X"]) (.app "p" [.var "X", .var "_Z"])) =
          .ok search ∧
      ∃ solution later,
        ((KnowledgeBase.empty.addAll
            [⟨.app "p" [.app "f" [.var "A"], .var "A"], []⟩]).1.prover).nthNext
          20 0 7 search = .item (.ok solution) 9 later ∧
        solution.bindings.toList =
          [("Y", .app "f" [.app "f" [.var (freshName 8 "A")]]),
            ("X", .app "f" [.var (freshName 8 "A")])] ∧
        ∃ bindings, solution.InSolvedForm
          (.both (.app "p" [.var "Y", .var "X"]) (.app "p" [.var "X", .var "_Z"])) bindings := by
  refine ⟨_, rfl, _, _, rfl, rfl, ?_⟩
  obtain ⟨bindings, _, solved⟩ := @solution_inSolvedForm
    (KnowledgeBase.empty.addAll [⟨.app "p" [.app "f" [.var "A"], .var "A"], []⟩]).1 {} (· + 1) rfl
    (.both (.app "p" [.var "Y", .var "X"]) (.app "p" [.var "X", .var "_Z"])) _ rfl
    20 0 7 9 _ _ rfl
  exact ⟨bindings, solved⟩

end HornLogic
