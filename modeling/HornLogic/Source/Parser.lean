import HornLogic.Fault
import HornLogic.Source.Anonymous
import HornLogic.Source.Reader
import HornLogic.Text.Blank

/-!
# Parsing whole texts

A text is a term, a query, a clause or a program if it can be read as one with nothing but layout
left over.  A fault shows the beginning of the text at the place where reading could not go on.
-/

namespace HornLogic

namespace Source

/-- The length of the part of a text that a fault shows. -/
def shownLength : Nat := 32

/-- The fault that reading could not go on before `rest`. -/
def faultAt (cause : ReadingFault) (rest : List Char) : Fault :=
  .unreadable (if rest.all Text.isBlank then .endOfInput else cause)
    (String.ofList (rest.take shownLength))

/-- Reads a whole text.  Layout may be left over. -/
def parseAll {α : Type} (read : (bound : Nat) → Reader α) (text : String) : Except Fault α :=
  match read (text.toList.length + 1) text.toList with
  | .error place => .error (faultAt .unexpectedCharacter place)
  | .ok (value, rest) =>
      if (skipLayout rest).isEmpty then .ok value
      else .error (faultAt .trailingText (skipLayout rest))

end Source

open Source

/-- Parses one term, which may be two terms with `\=` between them. -/
def Term.parse (text : String) : Except Fault Term :=
  (parseAll (fun bound => readGoal (readTerm bound)) text).map Term.nameAnonymous

/-- Parses a query.  Several goals become one conjunction. -/
def Term.parseQuery (text : String) : Except Fault Term :=
  (parseAll readQuery text).map Term.nameAnonymous

def Clause.parse (text : String) : Except Fault Clause :=
  (parseAll readClause text).map Clause.nameAnonymous

def Clause.parseProgram (text : String) : Except Fault (List Clause) :=
  (parseAll (fun bound text => .ok (readClauses bound bound text)) text).map
    (List.map Clause.nameAnonymous)

end HornLogic
