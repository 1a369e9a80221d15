import HornLogic.Config
import HornLogic.KnowledgeBase
import HornLogic.Solution
import HornLogic.Unification

/-!
# The state of a search

A search proves a list of goals from left to right.  Where several clauses may prove a goal it
leaves a choice behind, with all that is needed to go on from there: the goal, the goals after it,
the bindings at that moment and the clauses that have not been tried.  The choices form a stack,
and the newest one is resumed first.
-/

namespace HornLogic

/-- How a term acts as a goal. -/
inductive GoalForm where
  /-- Both of two goals are to be proved. -/
  | both (left right : Term)
  /-- The test that two terms do not unify. -/
  | notUnifiable (left right : Term)
  /-- A predicate is called. -/
  | call (signature : Signature)
  /-- A variable is no goal. -/
  | notCallable
  deriving DecidableEq, Inhabited

/-- How a term acts as a goal, itself not looked at through bindings. -/
def Term.goalForm : Term → GoalForm
  | .var _ => .notCallable
  | .atom name => .call ⟨name, 0⟩
  | .app functor [left, right] =>
      if functor = conjunctionName then .both left right
      else if functor = notUnifiableName then .notUnifiable left right
      else .call ⟨functor, 2⟩
  | .app functor args => .call ⟨functor, args.length⟩

/-- A goal with the number of clauses that it was reached through. -/
structure Goal where
  term : Term
  depth : Nat
  deriving DecidableEq, Inhabited

/-- A goal with the clauses that have not been tried for it. -/
structure Choice where
  goal : Term
  depth : Nat
  rest : List Goal
  bindings : Bindings
  candidates : List Clause
  deriving DecidableEq, Inhabited

/-- What a search does next. -/
inductive Phase where
  /-- Prove these goals under these bindings. -/
  | proving (goals : List Goal) (bindings : Bindings)
  /-- Resume the newest choice. -/
  | retrying
  /-- Nothing is left to do. -/
  | finished
  deriving DecidableEq, Inhabited

/-- A search that can be continued: the variables it reports, what it does next, and its choices,
newest first. -/
structure Search where
  reported : List String
  phase : Phase
  stack : List Choice := []
  deriving DecidableEq, Inhabited

/-- What a search yields: solutions, and at most one fault, which ends it. -/
abbrev Item := Except Fault Solution

/-- What a search does that an observer may want to know. -/
inductive Note where
  /-- A search for this goal begins. -/
  | solving (goal : Term)
  /-- A goal calls a predicate without clauses. -/
  | noClauses (signature : Signature)
  /-- A goal is tried against a clause that was renamed apart. -/
  | trying (goal : Term) (clause : Clause)
  /-- A solution is found. -/
  | found (solution : Solution)
  deriving DecidableEq, Inhabited

def Note.message : Note → String
  | .solving goal => "solving " ++ goal.text
  | .noClauses signature => "no clauses for " ++ signature.text
  | .trying goal clause => "trying " ++ goal.text ++ " against " ++ clause.text
  | .found solution => "solution: " ++ solution.text

/-- Whether a note tells of a single trial or answer, of which a search may have very many. -/
def Note.isFine : Note → Bool
  | .solving _ => false
  | .noClauses _ => false
  | .trying _ _ => true
  | .found _ => true

namespace Search

/-- The variables that a query asks for: those whose name does not start with an underscore. -/
def reportedVariables (query : Term) : List String :=
  query.variableNames.filter fun name => name.toList.head? != some '_'

/-- The value of a variable, if it is not the variable itself. -/
def reportedValue? (bindings : Bindings) (name : String) : Option (String × Term) :=
  let value := (Term.var name).substitute bindings
  if value = .var name then none else some (name, value)

/-- The solution that bindings give for the reported variables. -/
def solutionUnder (reported : List String) (bindings : Bindings) : Solution where
  success := true
  bindings := .ofList (reported.filterMap (reportedValue? bindings))

/-- The search for a query.  A variable is no query. -/
def start (query : Term) : Except Fault Search :=
  if query.isVar then .error (.notCallable query)
  else
    .ok
      { reported := reportedVariables query
        phase := .proving [⟨query, 0⟩] .empty }

end Search

end HornLogic
