import HornLogic.Config
import HornLogic.Json.Parser
import HornLogic.Json.Printer
import HornLogic.Solution
import HornLogic.Text.Decimal

/-!
# Terms, clauses, bindings and settings as JSON

A term is an object with one member that names its kind.  Everything else with fixed fields is an
object with a member for each; it is also read from an array of the fields in order.  Members that
no field is named for are ignored, and a field that is given twice is refused.  Bindings are an
object with a member for each variable, in order.

Reading refuses values whose arrays and objects nest more than `nestingLimit` deep.  A decoder takes
the number of levels that are left and uses one up for each array or object that it enters.
-/

namespace HornLogic.Json

/-- How deep arrays and objects may nest. -/
def nestingLimit : Nat := 127

/-- The values of fields, given in order in an array or by name in an object.  Fields may be
missing. -/
def Value.fields? (names : List String) : Value → Option (List (Option Value))
  | .object members =>
      if names.all fun name => (members.filter (·.1 == name)).length ≤ 1 then
        some (names.map fun name => members.lookup name)
      else none
  | .array items =>
      if items.length ≤ names.length then
        some (items.map some ++ List.replicate (names.length - items.length) none)
      else none
  | _ => none

def Value.string? : Value → Option String
  | .string text => some text
  | _ => none

def Value.bool? : Value → Option Bool
  | .bool value => some value
  | _ => none

/-- A number that can count something. -/
def Value.count? : Value → Option Nat
  | .natural value => Text.asCount? value
  | _ => none

def Value.items? : Value → Option (List Value)
  | .array items => some items
  | _ => none

end Json

open Json

namespace Term

mutual

def toJson : Term → Value
  | .atom name => .object [("Atom", .string name)]
  | .var name => .object [("Variable", .string name)]
  | .app functor args =>
      .object
        [("Compound", .object [("functor", .string functor), ("args", .array (toJsonArgs args))])]

def toJsonArgs : List Term → List Value
  | [] => []
  | term :: terms => term.toJson :: toJsonArgs terms

end

def ofJson? : (levels : Nat) → Value → Option Term
  | _ + 1, .object [("Atom", name)] => name.string?.map .atom
  | _ + 1, .object [("Variable", name)] => name.string?.map .var
  | levels + 3, .object [("Compound", body)] =>
      match body.fields? ["functor", "args"] with
      | some [some functor, some args] => do
          let functor ← functor.string?
          let args ← args.items?
          return .app functor (← args.mapM (ofJson? levels))
      | _ => none
  | _, _ => none

end Term

namespace Clause

def toJson (clause : Clause) : Value :=
  .object [("head", clause.head.toJson), ("body", .array (clause.body.map Term.toJson))]

def ofJson? : (levels : Nat) → Value → Option Clause
  | levels + 2, value =>
      match value.fields? ["head", "body"] with
      | some [some head, some body] => do
          let head ← Term.ofJson? (levels + 1) head
          let body ← body.items?
          return ⟨head, ← body.mapM (Term.ofJson? levels)⟩
      | _ => none
  | _, _ => none

end Clause

namespace Signature

def toJson (signature : Signature) : Value :=
  .object [("name", .string signature.name), ("arity", .natural signature.arity)]

def ofJson? : (levels : Nat) → Value → Option Signature
  | _ + 1, value =>
      match value.fields? ["name", "arity"] with
      | some [some name, some arity] => do
          return ⟨← name.string?, ← arity.count?⟩
      | _ => none
  | _, _ => none

end Signature

namespace Bindings

def toJson (bindings : Bindings) : Value :=
  .object (bindings.toList.map fun (name, value) => (name, value.toJson))

def ofJson? : (levels : Nat) → Value → Option Bindings
  | levels + 1, .object members => do
      let pairs ← members.mapM fun (name, value) =>
        (Term.ofJson? levels value).map fun term => (name, term)
      return .ofList pairs
  | _, _ => none

end Bindings

namespace Solution

def toJson (solution : Solution) : Value :=
  .object [("success", .bool solution.success), ("bindings", solution.bindings.toJson)]

def ofJson? : (levels : Nat) → Value → Option Solution
  | levels + 1, value =>
      match value.fields? ["success", "bindings"] with
      | some [some success, some bindings] => do
          return ⟨← success.bool?, ← Bindings.ofJson? levels bindings⟩
      | _ => none
  | _, _ => none

end Solution

namespace Config

def toJson (config : Config) : Value :=
  .object
    [("occurs_check", .bool config.occursCheck),
      ("max_depth", (config.maxDepth.map Value.natural).getD .null)]

/-- Reads the setting of the occurs check, which is on if nothing is said. -/
def occursCheckOfJson? : Option Value → Option Bool
  | none => some true
  | some value => value.bool?

/-- Reads a depth limit.  There is none if nothing is said. -/
def maxDepthOfJson? : Option Value → Option (Option Nat)
  | none => some none
  | some .null => some none
  | some value => value.count?.map some

def ofJson? : (levels : Nat) → Value → Option Config
  | _ + 1, value =>
      match value.fields? ["occurs_check", "max_depth"] with
      | some [occursCheck, maxDepth] => do
          return ⟨← occursCheckOfJson? occursCheck, ← maxDepthOfJson? maxDepth⟩
      | _ => none
  | _, _ => none

end Config

namespace Json

/-- Reads a text with a decoder. -/
def decode? {α : Type} (ofJson? : (levels : Nat) → Value → Option α) (text : String) : Option α :=
  (parse? text).bind (ofJson? nestingLimit)

end Json

end HornLogic
