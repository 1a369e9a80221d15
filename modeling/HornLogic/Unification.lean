import HornLogic.Bindings.Substitution

/-!
# Unification

Two terms are unified under bindings by extending the bindings until both resolve to one term.
The terms are walked through together, from left to right, and looked at through the bindings that
are there when they are reached.

The optional occurs check refuses to bind a variable to a term that contains it.  Without it
bindings may become cyclic, and a later unification under them may go on for ever.  Every attempt
therefore takes an effort, a bound on how deep it may go; `Attempt.unfinished` says that this was
not enough, and all other answers are the same for every larger effort.
-/

namespace HornLogic

/-- What comes of the attempt to unify two terms. -/
inductive Attempt where
  /-- The terms are equal under these bindings. -/
  | unified (bindings : Bindings)
  /-- The terms have no common instance under the bindings, or only one that the occurs check
  refuses. -/
  | clash
  /-- The effort was used up. -/
  | unfinished
  deriving DecidableEq, Inhabited

def Attempt.bindings? : Attempt → Option Bindings
  | .unified bindings => some bindings
  | _ => none

/-- Asks about names in turn until the answer is yes or missing. -/
def anyName? (test : String → Option Bool) : List String → Option Bool
  | [] => some false
  | name :: names =>
      match test name with
      | some false => anyName? test names
      | answer => answer

namespace Bindings

/-- Whether `name` occurs in what `other` stands for.  Values are opened at most `room` deep;
there is no answer if that is not deep enough. -/
def occursAt (bindings : Bindings) (name : String) : (room : Nat) → (other : String) → Option Bool
  | 0, _ => none
  | room + 1, other =>
      match bindings.walk (.var other) with
      | .var last => some (last == name)
      | value => anyName? (bindings.occursAt name room) value.occurrences

/-- Whether `name` occurs in what a term stands for.  There is no answer if the search through
cyclic bindings would go on for ever: values opened more often than there are bindings are opened
a second time inside themselves. -/
def occursIn (bindings : Bindings) (name : String) (term : Term) : Option Bool :=
  anyName? (bindings.occursAt name (bindings.size + 1)) term.occurrences

/-- Binds a variable to a term, if the occurs check is off or finds nothing. -/
def bindChecked (occursCheck : Bool) (bindings : Bindings) (name : String) (term : Term) :
    Attempt :=
  if occursCheck then
    match bindings.occursIn name term with
    | some true => .clash
    | some false => .unified (bindings.bind name term)
    | none => .unfinished
  else .unified (bindings.bind name term)

end Bindings

/-- Unifies the members of two lists pair by pair, each under the bindings that the pairs before it
lead to. -/
def unifyPairs (unifyPair : Term → Term → Bindings → Attempt) :
    List Term → List Term → Bindings → Attempt
  | left :: lefts, right :: rights, bindings =>
      match unifyPair left right bindings with
      | .unified extended => unifyPairs unifyPair lefts rights extended
      | answer => answer
  | _, _, bindings => .unified bindings

/-- Unifies two terms under bindings.  A variable on the left is bound before one on the right. -/
def unify (occursCheck : Bool) : (effort : Nat) → (left right : Term) → Bindings → Attempt
  | 0, _, _, _ => .unfinished
  | effort + 1, left, right, bindings =>
      if bindings.walk left = bindings.walk right then .unified bindings
      else
        match bindings.walk left, bindings.walk right with
        | .var name, other => bindings.bindChecked occursCheck name other
        | other, .var name => bindings.bindChecked occursCheck name other
        | .app leftName lefts, .app rightName rights =>
            if leftName = rightName ∧ lefts.length = rights.length then
              unifyPairs (unify occursCheck effort) lefts rights bindings
            else .clash
        | _, _ => .clash

end HornLogic
