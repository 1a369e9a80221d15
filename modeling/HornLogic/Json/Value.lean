/-!
# JSON values

The values that a JSON text stands for, as far as the formats of this library use them.
-/

namespace HornLogic.Json

/-- A JSON value.  Members of an object are kept in order, and names may repeat. -/
inductive Value where
  | null
  | bool (value : Bool)
  | natural (value : Nat)
  | string (value : String)
  | array (items : List Value)
  | object (members : List (String × Value))
  /-- A value of no use to any format here: a number that is negative or written with a fraction
  or an exponent, or a string or an object with a name that contains half a surrogate pair. -/
  | other
  deriving Inhabited

end HornLogic.Json
