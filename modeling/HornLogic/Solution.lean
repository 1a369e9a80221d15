import HornLogic.Bindings.Basic
import HornLogic.Source.Printer

/-!
# Solutions

A solution gives values to those variables of a query that it binds.  A record that nothing was
proven is possible too, so that a stored solution speaks for itself.
-/

namespace HornLogic

structure Solution where
  success : Bool
  bindings : Bindings
  deriving DecidableEq, Inhabited

namespace Solution

def get? (solution : Solution) (name : String) : Option Term :=
  solution.bindings.get? name

def entryText (entry : String × Term) : String :=
  entry.1 ++ " = " ++ entry.2.text

/-- The text of a solution: its values, or whether anything was proven. -/
def text (solution : Solution) : String :=
  if !solution.success then "false"
  else if solution.bindings.isEmpty then "true"
  else String.intercalate ", " (solution.bindings.toList.map entryText)

end Solution

end HornLogic
