import HornLogic.Json.Value

/-!
# Reading JSON

A strict reader: one value with nothing but blanks around it.  Every reader takes text from the
front and gives what it read with the rest, or nothing if the text is not JSON.
-/

namespace HornLogic.Json

/-- Reads something from the front of a text, if it is there. -/
abbrev Reader (α : Type) := List Char → Option (α × List Char)

/-- The characters that may stand between the parts of a JSON text. -/
def isBlank (c : Char) : Bool :=
  c == ' ' || c == '\n' || c == '\t' || c == '\r'

def skipBlanks (text : List Char) : List Char :=
  text.dropWhile isBlank

/-- The value of a digit to base sixteen, in either case. -/
def hexValue? (c : Char) : Option Nat :=
  if '0' ≤ c ∧ c ≤ '9' then some (c.toNat - '0'.toNat)
  else if 'a' ≤ c ∧ c ≤ 'f' then some (c.toNat - 'a'.toNat + 10)
  else if 'A' ≤ c ∧ c ≤ 'F' then some (c.toNat - 'A'.toNat + 10)
  else none

/-- The number that four digits to base sixteen stand for. -/
def hexNumber? (first second third fourth : Char) : Option Nat :=
  match hexValue? first, hexValue? second, hexValue? third, hexValue? fourth with
  | some first, some second, some third, some fourth =>
      some (((first * 16 + second) * 16 + third) * 16 + fourth)
  | _, _, _, _ => none

/-- Whether a code unit is the first half of a surrogate pair. -/
def isHighSurrogate (unit : Nat) : Bool :=
  0xD800 ≤ unit && unit < 0xDC00

/-- Whether a code unit is the second half of a surrogate pair. -/
def isLowSurrogate (unit : Nat) : Bool :=
  0xDC00 ≤ unit && unit < 0xE000

/-- The character that a surrogate pair stands for. -/
def pairedCharacter (high low : Nat) : Char :=
  Char.ofNat (0x10000 + (high - 0xD800) * 0x400 + (low - 0xDC00))

/-- The character that a backslash and this character stand for. -/
def unescape? (c : Char) : Option Char :=
  if c = '"' ∨ c = '\\' ∨ c = '/' then some c
  else if c = 'b' then some '\x08'
  else if c = 'f' then some '\x0c'
  else if c = 'n' then some '\n'
  else if c = 'r' then some '\r'
  else if c = 't' then some '\t'
  else none

/-- A part of a string: a character, or a code unit that is written as a number. -/
inductive StringPart where
  | character (c : Char)
  | unit (code : Nat)

def readString : Reader (List StringPart)
  | [] => none
  | '"' :: rest => some ([], rest)
  | '\\' :: 'u' :: a :: b :: c :: d :: rest =>
      match hexNumber? a b c d, readString rest with
      | some code, some (parts, rest) => some (.unit code :: parts, rest)
      | _, _ => none
  | ['\\'] => none
  | '\\' :: c :: rest =>
      match unescape? c, readString rest with
      | some meant, some (parts, rest) => some (.character meant :: parts, rest)
      | _, _ => none
  | c :: rest =>
      if c.toNat < 0x20 then none
      else (readString rest).map fun (parts, rest) => (.character c :: parts, rest)

/-- The text of the parts of a string.  Two code units that form a surrogate pair are one character;
`high` is the first half of a pair if the second one has to follow.  Half a pair has no text. -/
def textOf? : (high : Option Nat) → List StringPart → Option (List Char)
  | none, [] => some []
  | none, .character c :: parts => (textOf? none parts).map (c :: ·)
  | none, .unit code :: parts =>
      if isHighSurrogate code then textOf? (some code) parts
      else if isLowSurrogate code then none
      else (textOf? none parts).map (Char.ofNat code :: ·)
  | some high, .unit low :: parts =>
      if isLowSurrogate low then (textOf? none parts).map (pairedCharacter high low :: ·) else none
  | some _, _ => none

def stringOf? (parts : List StringPart) : Option String :=
  (textOf? none parts).map String.ofList

def readDigits (text : List Char) : Option (List Char × List Char) :=
  let digits := text.takeWhile Char.isDigit
  if digits.isEmpty then none else some (digits, text.dropWhile Char.isDigit)

/-- Reads the whole part of a number, which begins with zero only if it is zero. -/
def readWhole : Reader Nat
  | '0' :: rest => some (0, rest)
  | text => (readDigits text).map fun (digits, rest) => (Nat.ofDigitChars 10 digits 0, rest)

/-- Reads a point with digits, if there is one; tells whether there is. -/
def readFraction : Reader Bool
  | '.' :: rest => (readDigits rest).map fun (_, rest) => (true, rest)
  | text => some (false, text)

def skipSign : List Char → List Char
  | '+' :: rest => rest
  | '-' :: rest => rest
  | text => text

/-- Reads an exponent, if there is one; tells whether there is. -/
def readExponent (text : List Char) : Option (Bool × List Char) :=
  match text with
  | c :: rest =>
      if c = 'e' ∨ c = 'E' then (readDigits (skipSign rest)).map fun (_, rest) => (true, rest)
      else some (false, text)
  | [] => some (false, text)

def readNumber (text : List Char) : Option (Value × List Char) := do
  let negative := text.head? == some '-'
  let (whole, rest) ← readWhole (if negative then text.tail else text)
  let (fraction, rest) ← readFraction rest
  let (exponent, rest) ← readExponent rest
  some (if negative || fraction || exponent then .other else .natural whole, rest)

/-- Reads the items of an array up to the closing bracket, at least one. -/
def readItems (readValue : Reader Value) : (count : Nat) → Reader (List Value)
  | 0, _ => none
  | count + 1, text =>
      match readValue text with
      | none => none
      | some (item, rest) =>
          match skipBlanks rest with
          | ',' :: rest =>
              (readItems readValue count rest).map fun (items, rest) => (item :: items, rest)
          | ']' :: rest => some ([item], rest)
          | _ => none

/-- Reads a name with the value after it.  A name may lack text. -/
def readMember (readValue : Reader Value) (text : List Char) :
    Option ((Option String × Value) × List Char) :=
  match skipBlanks text with
  | '"' :: rest =>
      match readString rest with
      | none => none
      | some (name, rest) =>
          match skipBlanks rest with
          | ':' :: rest =>
              (readValue rest).map fun (value, rest) => ((stringOf? name, value), rest)
          | _ => none
  | _ => none

/-- Reads the members of an object up to the closing brace, at least one. -/
def readMembers (readValue : Reader Value) :
    (count : Nat) → Reader (List (Option String × Value))
  | 0, _ => none
  | count + 1, text =>
      match readMember readValue text with
      | none => none
      | some (member, rest) =>
          match skipBlanks rest with
          | ',' :: rest =>
              (readMembers readValue count rest).map fun (members, rest) =>
                (member :: members, rest)
          | '}' :: rest => some ([member], rest)
          | _ => none

/-- The members of an object, if every name has text. -/
def named : List (Option String × Value) → Option (List (String × Value))
  | [] => some []
  | (some name, value) :: members => (named members).map ((name, value) :: ·)
  | (none, _) :: _ => none

def objectOf (members : List (Option String × Value)) : Value :=
  match named members with
  | some members => .object members
  | none => .other

/-- Reads a value where blanks have been skipped. -/
def readValueHere (readValue : Reader Value) (bound : Nat) : Reader Value
  | '{' :: rest =>
      match skipBlanks rest with
      | '}' :: rest => some (.object [], rest)
      | _ => (readMembers readValue bound rest).map fun (members, rest) => (objectOf members, rest)
  | '[' :: rest =>
      match skipBlanks rest with
      | ']' :: rest => some (.array [], rest)
      | _ => (readItems readValue bound rest).map fun (items, rest) => (.array items, rest)
  | '"' :: rest =>
      (readString rest).map fun (parts, rest) =>
        (((stringOf? parts).map .string).getD .other, rest)
  | 'n' :: 'u' :: 'l' :: 'l' :: rest => some (.null, rest)
  | 't' :: 'r' :: 'u' :: 'e' :: rest => some (.bool true, rest)
  | 'f' :: 'a' :: 'l' :: 's' :: 'e' :: rest => some (.bool false, rest)
  | text => readNumber text

/-- Reads a value.  The bound must exceed the length of the text. -/
def readValue : (bound : Nat) → Reader Value
  | 0, _ => none
  | bound + 1, text => readValueHere (readValue bound) bound (skipBlanks text)

def parse? (text : String) : Option Value :=
  match readValue (text.toList.length + 1) text.toList with
  | some (value, rest) => if (skipBlanks rest).isEmpty then some value else none
  | none => none

end HornLogic.Json
