import HornLogic.Search.Basic

/-!
# One step of a search

A step looks at one goal or tries one clause.  It does not recurse, apart from unification, so all
that can go on for ever is a sequence of steps, or a unification under cyclic bindings.  The
numbers for renaming clauses are handed through from step to step: every clause that is tried takes
the next one, also when its head does not match.
-/

namespace HornLogic

/-- What a search works with: the clauses that it tries for each predicate, in order, its
settings, and what the counter for renaming clauses makes of a number when it is taken. -/
structure Prover where
  candidates : Signature → List Clause
  config : Config := {}
  nextNumber : Nat → Nat := (· + 1)
  deriving Inhabited

/-- The number after a number on a counter of 64 bits, which starts over at zero. -/
def wrappingNext (number : Nat) : Nat :=
  (number + 1) % UInt64.size

/-- Searches over a knowledge base try the clauses of the predicate that a goal calls. -/
def KnowledgeBase.prover (kb : KnowledgeBase) (config : Config := {})
    (nextNumber : Nat → Nat := (· + 1)) : Prover where
  candidates := kb.clausesOf
  config
  nextNumber

/-- What one step leads to: the search after it, the next free number, and perhaps an item that the
search yields and a note of what was done. -/
structure Turn where
  search : Search
  fresh : Nat
  item : Option Item := none
  note : Option Note := none
  deriving DecidableEq, Inhabited

namespace Turn

def goOn (search : Search) (fresh : Nat) (phase : Phase) : Turn where
  search := { search with phase }
  fresh

def stop (search : Search) (fresh : Nat) (fault : Fault) : Turn where
  search := { search with phase := .finished, stack := [] }
  fresh
  item := some (.error fault)

end Turn

namespace Prover

/-- Calls a predicate: the clauses of the predicate become the candidates of a new choice. -/
def call (prover : Prover) (fresh : Nat) (search : Search) (goal : Goal) (rest : List Goal)
    (bindings : Bindings) (signature : Signature) : Turn :=
  match prover.candidates signature with
  | [] =>
      { search := { search with phase := .retrying }
        fresh
        note := some (.noClauses signature) }
  | candidates =>
      { search :=
          { search with
            phase := .retrying
            stack := ⟨goal.term, goal.depth, rest, bindings, candidates⟩ :: search.stack }
        fresh }

/-- Looks at the first goal, which is not a variable with a value.  A conjunction is replaced by its
two goals, a test passes or fails, and any other goal calls a predicate.  There is no answer if a
unification does not finish. -/
def select (prover : Prover) (effort fresh : Nat) (search : Search) (goal : Goal)
    (rest : List Goal) (bindings : Bindings) : Option Turn :=
  match goal.term.goalForm with
  | .both left right =>
      some (.goOn search fresh
        (.proving (⟨left, goal.depth⟩ :: ⟨right, goal.depth⟩ :: rest) bindings))
  | .notUnifiable left right =>
      match unify prover.config.occursCheck effort (left.substitute bindings)
          (right.substitute bindings) .empty with
      | .unified _ => some (.goOn search fresh .retrying)
      | .clash => some (.goOn search fresh (.proving rest bindings))
      | .unfinished => none
  | .call signature => some (prover.call fresh search goal rest bindings signature)
  | .notCallable => some (.stop search fresh (.notCallable (goal.term.substitute bindings)))

/-- Tries the next candidate of the newest choice, or drops the choice if there is none. -/
def retry (prover : Prover) (effort fresh : Nat) (search : Search) : Option Turn :=
  match search.stack with
  | [] => some (.goOn search fresh .finished)
  | choice :: below =>
      match choice.candidates with
      | [] => some (.goOn { search with stack := below } fresh .retrying)
      | candidate :: candidates =>
          let clause := candidate.freshen fresh
          let stack := { choice with candidates } :: below
          let note := some (.trying choice.goal clause)
          match unify prover.config.occursCheck effort choice.goal clause.head choice.bindings with
          | .unified bindings =>
              let goals := clause.body.map fun goal => ⟨goal, choice.depth + 1⟩
              some
                { search :=
                    { search with phase := .proving (goals ++ choice.rest) bindings, stack }
                  fresh := prover.nextNumber fresh
                  note }
          | .clash =>
              some
                { search := { search with phase := .retrying, stack }
                  fresh := prover.nextNumber fresh
                  note }
          | .unfinished => none

/-- One step of a search.  There is no answer if a unification does not finish with this effort. -/
def step (prover : Prover) (effort fresh : Nat) (search : Search) : Option Turn :=
  match search.phase with
  | .finished => some { search, fresh }
  | .retrying => prover.retry effort fresh search
  | .proving [] bindings =>
      let solution := Search.solutionUnder search.reported bindings
      some
        { search := { search with phase := .retrying }
          fresh
          item := some (.ok solution)
          note := some (.found solution) }
  | .proving (goal :: rest) bindings =>
      match prover.config.exceededAt goal.depth with
      | some limit => some (.stop search fresh (.depthLimit limit))
      | none =>
          prover.select effort fresh search { goal with term := bindings.walk goal.term } rest
            bindings

end Prover

end HornLogic
