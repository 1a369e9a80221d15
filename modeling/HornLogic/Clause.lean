import HornLogic.Term.Renaming

/-!
# Clauses and signatures

A clause says that its head holds whenever all goals of its body hold.  Clauses belong to the
predicate that their head names: a functor with its number of arguments.  A variable names none.
-/

namespace HornLogic

/-- A predicate: a name and the number of its arguments. -/
structure Signature where
  name : String
  arity : Nat
  deriving DecidableEq, Inhabited

/-- Signatures are ordered by name, character by character, and then by arity. -/
instance : Ord Signature where
  compare left right :=
    (compare left.name right.name).then (compare left.arity right.arity)

/-- The predicate that a goal calls.  A variable calls none. -/
def Term.signature? : Term → Option Signature
  | .atom name => some ⟨name, 0⟩
  | .var _ => none
  | .app functor args => some ⟨functor, args.length⟩

/-- A head that holds whenever the goals of the body hold. -/
structure Clause where
  head : Term
  body : List Term := []
  deriving DecidableEq, Inhabited

namespace Clause

def isFact (clause : Clause) : Bool :=
  clause.body.isEmpty

def signature? (clause : Clause) : Option Signature :=
  clause.head.signature?

def rename (change : String → String) (clause : Clause) : Clause where
  head := clause.head.rename change
  body := clause.body.map (Term.rename change)

/-- Renames every variable of head and body with the same number. -/
def freshen (suffix : Nat) (clause : Clause) : Clause :=
  clause.rename (freshName suffix)

end Clause

end HornLogic
