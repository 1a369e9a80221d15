import HornLogic.Fault

/-!
# Knowledge bases

A knowledge base is a sequence of clauses with an index: for every predicate the positions of its
clauses, so that the clauses of one predicate are found without looking at the others.  Clauses
keep the order in which they were added, and predicates the order in which they first got one.
-/

namespace HornLogic

/-- Clauses in order of addition, indexed by predicate. -/
structure KnowledgeBase where
  clauses : Array Clause := #[]
  index : List (Signature × List Nat) := []
  deriving DecidableEq, Inhabited

namespace KnowledgeBase

def empty : KnowledgeBase := {}

def size (kb : KnowledgeBase) : Nat :=
  kb.clauses.size

/-- The predicates that have clauses, in the order in which they first got one. -/
def signatures (kb : KnowledgeBase) : List Signature :=
  kb.index.map Prod.fst

/-- The positions of the clauses of a predicate, in order. -/
def positions (kb : KnowledgeBase) (signature : Signature) : List Nat :=
  (kb.index.lookup signature).getD []

/-- The clauses of a predicate, in order. -/
def clausesOf (kb : KnowledgeBase) (signature : Signature) : List Clause :=
  (kb.positions signature).filterMap fun position => kb.clauses[position]?

/-- The clauses of the predicate that a goal calls, in order. -/
def matching (kb : KnowledgeBase) (goal : Term) : Except Fault (List Clause) :=
  match goal.signature? with
  | some signature => .ok (kb.clausesOf signature)
  | none => .error (.notCallable goal)

/-- Notes the position of one more clause of a predicate. -/
def insertPosition (signature : Signature) (position : Nat) :
    List (Signature × List Nat) → List (Signature × List Nat)
  | [] => [(signature, [position])]
  | (known, positions) :: rest =>
      if known = signature then (known, positions ++ [position]) :: rest
      else (known, positions) :: insertPosition signature position rest

/-- Adds a clause after all others.  Its head must not be a variable. -/
def add (kb : KnowledgeBase) (clause : Clause) : Except Fault KnowledgeBase :=
  match clause.signature? with
  | some signature =>
      .ok
        { clauses := kb.clauses.push clause
          index := insertPosition signature kb.size kb.index }
  | none => .error (.notCallable clause.head)

/-- Adds clauses in order up to the first one that cannot be added.  The clauses before it stay. -/
def addAll (kb : KnowledgeBase) : List Clause → KnowledgeBase × Option Fault
  | [] => (kb, none)
  | clause :: rest =>
      match kb.add clause with
      | .ok extended => extended.addAll rest
      | .error fault => (kb, some fault)

end KnowledgeBase

end HornLogic
