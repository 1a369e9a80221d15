/-!
# Decimal numbers

Reading numbers that count something: arguments, depths, solutions.
-/

namespace HornLogic.Text

/-- What can be counted is fewer than this. -/
def countBound : Nat := Nat.pow 2 64

/-- The number that a nonempty run of decimal digits stands for. -/
def readDigits? (digits : List Char) : Option Nat :=
  if digits.isEmpty || !digits.all Char.isDigit then none else some (Nat.ofDigitChars 10 digits 0)

/-- Keeps a number that can count something. -/
def asCount? (number : Nat) : Option Nat :=
  if number < countBound then some number else none

/-- The number that a text stands for: digits, which a plus sign may precede, of a number that can
count something. -/
def readCount? (text : List Char) : Option Nat :=
  let digits := if text.head? = some '+' then text.tail else text
  (readDigits? digits).bind asCount?

end HornLogic.Text
