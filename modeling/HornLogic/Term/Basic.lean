/-!
# First-order terms

A term is an atom, a variable or a functor applied to a list of arguments.  Two functors of two
arguments are operators: `,` joins two goals into one, and `\=` is the goal that two terms have no
common instance.

Every function on terms is one structural recursion through a term and the list of its arguments.
Substitution `Term.subst` replaces variables by a function on names; renaming and the resolution
of bindings are instances of it.
-/

namespace HornLogic

/-- A first-order term.  The arity of an application is the number of its arguments, so an
application without arguments is not the atom of the same name. -/
inductive Term where
  | atom (name : String)
  | var (name : String)
  | app (functor : String) (args : List Term)
  deriving Inhabited

namespace Term

mutual

/-- Equality of terms is decided by comparing names and, in order, arguments. -/
protected def decEq : (left right : Term) → Decidable (left = right)
  | .atom left, .atom right =>
      if same : left = right then isTrue (by rw [same]) else isFalse (by simpa using same)
  | .var left, .var right =>
      if same : left = right then isTrue (by rw [same]) else isFalse (by simpa using same)
  | .app left leftArgs, .app right rightArgs =>
      if same : left = right then
        match Term.decEqArgs leftArgs rightArgs with
        | isTrue sameArgs => isTrue (by rw [same, sameArgs])
        | isFalse differ => isFalse (by simp [differ])
      else isFalse (by simp [same])
  | .atom _, .var _ => isFalse (by simp)
  | .atom _, .app _ _ => isFalse (by simp)
  | .var _, .atom _ => isFalse (by simp)
  | .var _, .app _ _ => isFalse (by simp)
  | .app _ _, .atom _ => isFalse (by simp)
  | .app _ _, .var _ => isFalse (by simp)

protected def decEqArgs : (left right : List Term) → Decidable (left = right)
  | [], [] => isTrue rfl
  | [], _ :: _ => isFalse (by simp)
  | _ :: _, [] => isFalse (by simp)
  | left :: lefts, right :: rights =>
      match Term.decEq left right with
      | isTrue same =>
          match Term.decEqArgs lefts rights with
          | isTrue sameArgs => isTrue (by rw [same, sameArgs])
          | isFalse differ => isFalse (by simp [differ])
      | isFalse differ => isFalse (by simp [differ])

end

instance : DecidableEq Term :=
  Term.decEq

def conjunctionName : String := ","

def notUnifiableName : String := "\\="

def both (left right : Term) : Term :=
  .app conjunctionName [left, right]

def notUnifiable (left right : Term) : Term :=
  .app notUnifiableName [left, right]

/-- Joins a first goal and the goals after it into one goal, nested to the right. -/
def joinGoals (first : Term) : List Term → Term
  | [] => first
  | second :: rest => both first (joinGoals second rest)

/-- Joins goals into one goal, nested to the right.  There is none for no goals. -/
def conjunction : List Term → Option Term
  | [] => none
  | first :: rest => some (joinGoals first rest)

/-- The arguments of an application of this functor to this number of arguments. -/
def argumentsOf? (functor : String) (arity : Nat) : Term → Option (List Term)
  | .app name args => if name = functor ∧ args.length = arity then some args else none
  | _ => none

/-- The goals of a conjunction that nests to the right; the left side of a conjunction is not
taken apart. -/
def conjuncts : Term → List Term
  | .app functor [left, right] =>
      if functor = conjunctionName then left :: conjuncts right else [.app functor [left, right]]
  | term => [term]

def isVar : Term → Bool
  | .var _ => true
  | _ => false

mutual

/-- The names of variables in the order they are written, with repetitions. -/
def occurrences : Term → List String
  | .atom _ => []
  | .var name => [name]
  | .app _ args => occurrencesArgs args

def occurrencesArgs : List Term → List String
  | [] => []
  | term :: terms => term.occurrences ++ occurrencesArgs terms

end

/-- The names of variables in order of first occurrence, each once. -/
def variableNames (term : Term) : List String :=
  term.occurrences.eraseDups

mutual

/-- Replaces every variable by the term that `assign` gives for its name. -/
def subst (assign : String → Term) : Term → Term
  | .atom name => .atom name
  | .var name => assign name
  | .app functor args => .app functor (substArgs assign args)

def substArgs (assign : String → Term) : List Term → List Term
  | [] => []
  | term :: terms => term.subst assign :: substArgs assign terms

end

@[simp] theorem substArgs_eq_map (assign : String → Term) (terms : List Term) :
    substArgs assign terms = terms.map (subst assign) := by
  induction terms with
  | nil => rfl
  | cons term terms induction => simp [substArgs, induction]

@[simp] theorem occurrencesArgs_eq_flatMap (terms : List Term) :
    occurrencesArgs terms = terms.flatMap occurrences := by
  induction terms with
  | nil => rfl
  | cons term terms induction => simp [occurrencesArgs, induction]

end Term

end HornLogic
