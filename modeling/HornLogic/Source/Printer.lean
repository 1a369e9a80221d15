import HornLogic.Clause
import HornLogic.Source.Name

/-!
# Written terms and clauses

The operators `,` and `\=` are written between their two arguments, everything else as a name with
its arguments in parentheses.  An operator stands in parentheses where the text could otherwise be
read differently: a conjunction on the left of a comma, either operator inside an argument list or
beside `\=`.
-/

namespace HornLogic

open Source

namespace Term

def isConjunction : Term → Bool
  | .app functor [_, _] => functor == conjunctionName
  | _ => false

def isOperation : Term → Bool
  | .app functor [_, _] => functor == conjunctionName || functor == notUnifiableName
  | _ => false

/-- Puts a written term into parentheses if asked to. -/
def parenthesize (asked : Bool) (written : List Char) : List Char :=
  if asked then '(' :: written ++ [')'] else written

mutual

def write : Term → List Char
  | .atom name => writeName name
  | .var name => name.toList
  | .app functor [left, right] =>
      if functor = conjunctionName then
        parenthesize left.isConjunction left.write ++ [',', ' '] ++ right.write
      else if functor = notUnifiableName then
        parenthesize left.isOperation left.write ++ [' ', '\\', '=', ' '] ++
          parenthesize right.isOperation right.write
      else
        writeName functor ++ '(' :: writeArgs [left, right] ++ [')']
  | .app functor args => writeName functor ++ '(' :: writeArgs args ++ [')']

/-- The written form of arguments, separated by commas. -/
def writeArgs : List Term → List Char
  | [] => []
  | [term] => parenthesize term.isOperation term.write
  | term :: terms =>
      parenthesize term.isOperation term.write ++ [',', ' '] ++ writeArgs terms

end

/-- The written form of a goal in a list of goals separated by commas. -/
def writeGoal (goal : Term) : List Char :=
  parenthesize goal.isConjunction goal.write

def text (term : Term) : String :=
  String.ofList term.write

end Term

def Signature.text (signature : Signature) : String :=
  String.ofList (writeName signature.name) ++ "/" ++ signature.arity.repr

namespace Clause

/-- The written form of the goals after the first one of a body. -/
def writeFurtherGoals (goals : List Term) : List Char :=
  goals.flatMap fun goal => [',', ' '] ++ goal.writeGoal

/-- The written form of a body, with the arrow before it. -/
def writeBody : List Term → List Char
  | [] => []
  | first :: rest => [' ', ':', '-', ' '] ++ first.writeGoal ++ writeFurtherGoals rest

def write (clause : Clause) : List Char :=
  clause.head.writeGoal ++ writeBody clause.body ++ ['.']

def text (clause : Clause) : String :=
  String.ofList clause.write

end Clause

end HornLogic
