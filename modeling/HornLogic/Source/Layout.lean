/-!
# Layout

What may stand between the parts of a source text: blanks, line ends and comments.  A comment runs
from `%` to the end of its line.
-/

namespace HornLogic.Source

/-- The blanks and line ends of source texts. -/
def isLayout (c : Char) : Bool :=
  c == ' ' || c == '\t' || c == '\n' || c == '\r'

def isLineEnd (c : Char) : Bool :=
  c == '\n' || c == '\r'

/-- Drops layout from the front of a text that begins inside a comment or outside of one. -/
def dropLayout : (inComment : Bool) → List Char → List Char
  | _, [] => []
  | true, c :: rest => dropLayout (!isLineEnd c) rest
  | false, c :: rest =>
      if isLayout c then dropLayout false rest
      else if c = '%' then dropLayout true rest
      else c :: rest

/-- Drops blanks, line ends and comments from the front of a text. -/
def skipLayout (text : List Char) : List Char :=
  dropLayout false text

/-- The text after a token, which layout may precede. -/
def token? (token text : List Char) : Option (List Char) :=
  token.isPrefixOf? (skipLayout text)

end HornLogic.Source
