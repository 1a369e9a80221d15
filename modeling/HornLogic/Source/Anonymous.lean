import HornLogic.Clause

/-!
# Anonymous variables

Every variable written as a lone underscore is a variable of its own.  It gets the name `_` with
a number, counted from one in the order of writing, through the head of a clause and then its
body.
-/

namespace HornLogic

namespace Term

mutual

/-- Numbers the anonymous variables of a term onwards from the last number used. -/
def numberAnonymous (used : Nat) : Term → Term × Nat
  | .atom name => (.atom name, used)
  | .var name =>
      if name = "_" then (.var (freshName (used + 1) name), used + 1) else (.var name, used)
  | .app functor args =>
      let (args, used) := numberAnonymousArgs used args
      (.app functor args, used)

def numberAnonymousArgs (used : Nat) : List Term → List Term × Nat
  | [] => ([], used)
  | term :: terms =>
      let (term, used) := numberAnonymous used term
      let (terms, used) := numberAnonymousArgs used terms
      (term :: terms, used)

end

/-- Gives each anonymous variable of a term a name of its own. -/
def nameAnonymous (term : Term) : Term :=
  (term.numberAnonymous 0).1

end Term

/-- Gives each anonymous variable of a clause a name of its own. -/
def Clause.nameAnonymous (clause : Clause) : Clause :=
  let (head, used) := clause.head.numberAnonymous 0
  { head, body := (Term.numberAnonymousArgs used clause.body).1 }

end HornLogic
