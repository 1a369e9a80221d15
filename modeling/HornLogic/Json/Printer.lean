import HornLogic.Json.Value

/-!
# Written JSON

JSON is written without blanks.  In strings only quotes, backslashes and control characters are
escaped.
-/

namespace HornLogic.Json

/-- A digit of a number to base sixteen, in lower case. -/
def hexDigit (digit : Nat) : Char :=
  Nat.digitChar digit

/-- The written form of a character in a string. -/
def writeChar (c : Char) : List Char :=
  if c = '"' ∨ c = '\\' then ['\\', c]
  else if c = '\n' then ['\\', 'n']
  else if c = '\t' then ['\\', 't']
  else if c = '\r' then ['\\', 'r']
  else if c = '\x08' then ['\\', 'b']
  else if c = '\x0c' then ['\\', 'f']
  else if c.toNat < 0x20 then
    ['\\', 'u', '0', '0', hexDigit (c.toNat / 16), hexDigit (c.toNat % 16)]
  else [c]

def writeString (text : String) : List Char :=
  '"' :: text.toList.flatMap writeChar ++ ['"']

namespace Value

mutual

/-- The written form of a value.  `Value.other` has none of its own. -/
def write : Value → List Char
  | .null => ['n', 'u', 'l', 'l']
  | .bool true => ['t', 'r', 'u', 'e']
  | .bool false => ['f', 'a', 'l', 's', 'e']
  | .natural value => Nat.toDigits 10 value
  | .string text => writeString text
  | .array items => '[' :: writeItems items ++ [']']
  | .object members => '{' :: writeMembers members ++ ['}']
  | .other => []

def writeItems : List Value → List Char
  | [] => []
  | [item] => item.write
  | item :: items => item.write ++ ',' :: writeItems items

def writeMembers : List (String × Value) → List Char
  | [] => []
  | [(name, value)] => writeString name ++ ':' :: value.write
  | (name, value) :: members =>
      writeString name ++ ':' :: value.write ++ ',' :: writeMembers members

end

def text (value : Value) : String :=
  String.ofList value.write

end Value

end HornLogic.Json
