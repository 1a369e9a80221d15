import HornLogic.Source.Printer

/-!
# Faults

What can go wrong apart from a goal that has no solution: a variable stands where a goal or a
clause head is needed, a search goes deeper than it may, or a text cannot be read.  Each fault
keeps its cause; the wording is in `Fault.message`.
-/

namespace HornLogic

/-- Why a text cannot be read. -/
inductive ReadingFault where
  /-- The text ends where more is needed. -/
  | endOfInput
  /-- Another character is needed. -/
  | unexpectedCharacter
  /-- Something follows a complete text. -/
  | trailingText
  deriving DecidableEq, Inhabited

def ReadingFault.message : ReadingFault → String
  | .endOfInput => "unexpected end of input"
  | .unexpectedCharacter => "unexpected input (Char)"
  | .trailingText => "unexpected input (End of file)"

/-- A reason for stopping that is not the failure of a goal. -/
inductive Fault where
  /-- A variable stands for a goal or for the head of a clause. -/
  | notCallable (term : Term)
  /-- A goal lies deeper than the limit. -/
  | depthLimit (limit : Nat)
  /-- A text cannot be read; `rest` begins where reading stopped. -/
  | unreadable (cause : ReadingFault) (rest : String)
  deriving DecidableEq, Inhabited

instance decidableEqExcept {ε α : Type} [DecidableEq ε] [DecidableEq α] :
    DecidableEq (Except ε α)
  | .error left, .error right => decidable_of_iff (left = right) (by simp)
  | .ok left, .ok right => decidable_of_iff (left = right) (by simp)
  | .error _, .ok _ => isFalse (by simp)
  | .ok _, .error _ => isFalse (by simp)

def Fault.message : Fault → String
  | .notCallable term =>
      "`" ++ term.text ++
        "` is not callable: goals and clause heads must be atoms or compound terms"
  | .depthLimit limit => "resolution depth limit of " ++ limit.repr ++ " exceeded"
  | .unreadable cause rest => "syntax error: " ++ cause.message ++ " (at `" ++ rest ++ "`)"

end HornLogic
