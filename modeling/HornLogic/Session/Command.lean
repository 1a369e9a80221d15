import HornLogic.Text.Blank
import HornLogic.Text.Decimal

/-!
# Commands of a session

A command is a word after a colon, for some commands with an argument.  Words after the ones that
count are ignored.
-/

namespace HornLogic

/-- What a line that begins with a colon asks for. -/
inductive Command where
  | quit
  | help
  | list
  | count
  | clear
  | samples
  | load (name : String)
  | occursCheck (on : Bool)
  | depth (limit : Option Nat)
  | solutionLimit (limit : Nat)
  /-- The argument of a depth is neither a number nor `off`. -/
  | badDepth
  /-- The argument of a limit is no number. -/
  | badLimit
  /-- There is no such command, or it needs an argument. -/
  | unknown
  deriving DecidableEq, Inhabited

namespace Command

def ofDepth (argument : String) : Command :=
  if argument = "off" then .depth none
  else
    match Text.readCount? argument.toList with
    | some limit => .depth (some limit)
    | none => .badDepth

def ofLimit (argument : String) : Command :=
  match Text.readCount? argument.toList with
  | some limit => .solutionLimit limit
  | none => .badLimit

/-- The command of a name without an argument. -/
def ofName (name : String) : Command :=
  if name = "quit" ∨ name = "q" then .quit
  else if name = "help" ∨ name = "h" then .help
  else if name = "list" then .list
  else if name = "count" then .count
  else if name = "clear" then .clear
  else if name = "samples" then .samples
  else .unknown

/-- The command of a name with an argument, which commands that need none ignore. -/
def ofNameAndArgument (name argument : String) : Command :=
  if name = "load" then .load argument
  else if name = "occurs" ∧ argument = "on" then .occursCheck true
  else if name = "occurs" ∧ argument = "off" then .occursCheck false
  else if name = "depth" then ofDepth argument
  else if name = "limit" then ofLimit argument
  else ofName name

def parse (text : List Char) : Command :=
  match Text.words text with
  | [] => .unknown
  | [name] => ofName (String.ofList name)
  | name :: argument :: _ => ofNameAndArgument (String.ofList name) (String.ofList argument)

/-- What there is to enter in a session. -/
def helpLines : List String :=
  ["Enter clauses such as `parent(tom, bob).` to add them, or `?- goal.` to query.",
    "Commands:",
    "  :help              show this text",
    "  :list              print every clause",
    "  :count             number of clauses",
    "  :clear             remove every clause",
    "  :samples           list the sample programs",
    "  :load NAME         add a sample program",
    "  :occurs on|off     toggle the occurs check",
    "  :depth N|off       bound the resolution depth",
    "  :limit N           print at most N solutions per query",
    "  :quit              leave"]

end Command

end HornLogic
