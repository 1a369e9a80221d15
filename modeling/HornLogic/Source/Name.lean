/-!
# Written names

How names of atoms and functors are written and read.  A plain name, lower-case letter first or
digits only, stands as it is; any other text stands between quotes, with a backslash before each
quote and backslash.  Letters and digits are those of ASCII.
-/

namespace HornLogic.Source

/-- The characters that may follow the first one of an identifier. -/
def isIdentifierRest (c : Char) : Bool :=
  c.isAlphanum || c == '_'

/-- Whether a name is written without quotes. -/
def isPlain : List Char → Bool
  | [] => false
  | first :: rest =>
      if first.isLower then rest.all isIdentifierRest
      else first.isDigit && rest.all Char.isDigit

/-- Puts a backslash before every quote and backslash. -/
def escapeQuoted : List Char → List Char
  | [] => []
  | c :: rest =>
      if c = '\'' ∨ c = '\\' then '\\' :: c :: escapeQuoted rest else c :: escapeQuoted rest

def quote (name : List Char) : List Char :=
  '\'' :: escapeQuoted name ++ ['\'']

def writeName (name : String) : List Char :=
  if isPlain name.toList then name.toList else quote name.toList

/-- Reads something from the front of a text: gives it with the rest of the text, or else the
place where a needed character is missing. -/
abbrev Reader (α : Type) := List Char → Except (List Char) (α × List Char)

/-- The character that a backslash and this character stand for between quotes. -/
def unescape? (c : Char) : Option Char :=
  if c = '\\' ∨ c = '\'' then some c
  else if c = 'n' then some '\n'
  else if c = 't' then some '\t'
  else none

/-- Reads a quoted name up to its closing quote.  A missing quote is missing at the end of the text,
but after a wrong escape it is already missing at the start of the name. -/
def readQuoted (start : List Char) : Reader (List Char)
  | [] => .error []
  | '\'' :: rest => .ok ([], rest)
  | ['\\'] => .error start
  | '\\' :: c :: rest =>
      match unescape? c, readQuoted start rest with
      | some meant, .ok (name, rest) => .ok (meant :: name, rest)
      | none, _ => .error start
      | some _, .error place => .error place
  | c :: rest =>
      match readQuoted start rest with
      | .ok (name, rest) => .ok (c :: name, rest)
      | .error place => .error place

/-- Reads the name of an atom or functor: letters, digits and underscores after a lower-case letter,
a run of digits, or a quoted name. -/
def readName : Reader (List Char)
  | [] => .error []
  | c :: rest =>
      if c.isLower then .ok (c :: rest.takeWhile isIdentifierRest, rest.dropWhile isIdentifierRest)
      else if c.isDigit then .ok (c :: rest.takeWhile Char.isDigit, rest.dropWhile Char.isDigit)
      else if c = '\'' then readQuoted rest rest
      else .error (c :: rest)

/-- Whether a character begins a variable. -/
def isVariableStart (c : Char) : Bool :=
  c.isUpper || c == '_'

end HornLogic.Source
