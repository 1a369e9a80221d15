/-!
# Blanks, words and lines

The characters that Unicode gives the property `White_Space`, trimming and splitting at them, and
splitting at line ends.
-/

namespace HornLogic.Text

def isBlank (c : Char) : Bool :=
  c.val ∈ [0x20, 0x85, 0xA0, 0x1680, 0x2028, 0x2029, 0x202F, 0x205F, 0x3000] ||
    (0x09 ≤ c.val && c.val ≤ 0x0D) || (0x2000 ≤ c.val && c.val ≤ 0x200A)

def trimStart (text : List Char) : List Char :=
  text.dropWhile isBlank

def trimEnd (text : List Char) : List Char :=
  (text.reverse.dropWhile isBlank).reverse

def trim (text : List Char) : List Char :=
  trimEnd (trimStart text)

/-- Splits a text at blanks into words; `word` is the part of the first word read so far, last
character first. -/
def wordsAfter (word : List Char) : List Char → List (List Char)
  | [] => if word.isEmpty then [] else [word.reverse]
  | c :: rest =>
      if isBlank c then
        if word.isEmpty then wordsAfter [] rest else word.reverse :: wordsAfter [] rest
      else wordsAfter (c :: word) rest

/-- The words of a text: its longest parts without blanks, in order. -/
def words (text : List Char) : List (List Char) :=
  wordsAfter [] text

/-- Splits a text after every line end; `line` is the part of the first line read so far, last
character first. -/
def linesAfter (line : List Char) : List Char → List (List Char)
  | [] => if line.isEmpty then [] else [line.reverse]
  | c :: rest =>
      if c = '\n' then (c :: line).reverse :: linesAfter [] rest else linesAfter (c :: line) rest

/-- The lines of a text, each with its line end; the last one may lack it. -/
def lines (text : List Char) : List (List Char) :=
  linesAfter [] text

end HornLogic.Text
