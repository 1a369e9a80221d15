import HornLogic.Clause
import HornLogic.Source.Layout
import HornLogic.Source.Name

/-!
# Reading terms, goals and clauses

A term is a name, a name directly followed by arguments in parentheses, a variable, or goals in
parentheses; layout may precede it.  A goal is a term, or two terms with `\=` between them.  Goals
are separated by commas.  A part that may be missing is taken if it can be read completely; if not,
reading goes on where the part would have begun.

All readers take a bound that must exceed the length of the text.  Terms nest, and lists have
members, at most as often as the text has characters.
-/

namespace HornLogic.Source

/-- Reads a term, and the term after `\=` if there is one. -/
def readGoal (readTerm : Reader Term) : Reader Term := fun text =>
  match readTerm text with
  | .error place => .error place
  | .ok (left, rest) =>
      match (token? ['\\', '='] rest).map readTerm with
      | some (.ok (right, rest)) => .ok (.notUnifiable left right, rest)
      | _ => .ok (left, rest)

/-- Reads goals as long as a comma and a goal follow. -/
def readFurtherGoals (readTerm : Reader Term) : (bound : Nat) → List Char → List Term × List Char
  | 0, text => ([], text)
  | bound + 1, text =>
      match (token? [','] text).map (readGoal readTerm) with
      | some (.ok (goal, rest)) =>
          let (goals, rest) := readFurtherGoals readTerm bound rest
          (goal :: goals, rest)
      | _ => ([], text)

def readGoals (readTerm : Reader Term) (bound : Nat) : Reader (Term × List Term) := fun text =>
  match readGoal readTerm text with
  | .error place => .error place
  | .ok (first, rest) =>
      let (goals, rest) := readFurtherGoals readTerm bound rest
      .ok ((first, goals), rest)

def readInParentheses (readTerm : Reader Term) (bound : Nat) (text : List Char) :
    Option (Term × List Char) :=
  match readGoals readTerm bound text with
  | .error _ => none
  | .ok ((first, goals), rest) =>
      (token? [')'] rest).map fun rest => (.joinGoals first goals, rest)

/-- Reads arguments up to a closing parenthesis.  There may be none. -/
def readArguments (readTerm : Reader Term) (bound : Nat) (text : List Char) :
    Option (List Term × List Char) :=
  match readGoals readTerm bound text with
  | .error _ => (token? [')'] text).map fun rest => ([], rest)
  | .ok ((first, goals), rest) => (token? [')'] rest).map fun rest => (first :: goals, rest)

/-- Reads what follows a name: arguments if an opening parenthesis stands directly after it. -/
def readApplication (readTerm : Reader Term) (bound : Nat) (name : List Char)
    (text : List Char) : Term × List Char :=
  match text with
  | '(' :: inside =>
      match readArguments readTerm bound inside with
      | some (args, rest) => (.app (String.ofList name) args, rest)
      | none => (.atom (String.ofList name), text)
  | _ => (.atom (String.ofList name), text)

/-- Reads a term, where layout has been skipped. -/
def readTermHere (readTerm : Reader Term) (bound : Nat) : Reader Term
  | '(' :: inside =>
      match readInParentheses readTerm bound inside with
      | some read => .ok read
      | none => .error ('(' :: inside)
  | text =>
      if (text.head?.map isVariableStart).getD false then
        .ok (.var (String.ofList (text.takeWhile isIdentifierRest)),
          text.dropWhile isIdentifierRest)
      else
        match readName text with
        | .error place => .error place
        | .ok (name, rest) => .ok (readApplication readTerm bound name rest)

/-- Reads a term: goals in parentheses, a variable, an atom or an application. -/
def readTerm : (bound : Nat) → Reader Term
  | 0, text => .error (skipLayout text)
  | bound + 1, text => readTermHere (readTerm bound) bound (skipLayout text)

/-- Reads the body of a clause, if there is one. -/
def readBody (bound : Nat) (text : List Char) : List Term × List Char :=
  match (token? [':', '-'] text).map (readGoals (readTerm bound) bound) with
  | some (.ok ((first, goals), rest)) => (first :: goals, rest)
  | _ => ([], text)

/-- Reads a clause with the full stop that ends it. -/
def readClause (bound : Nat) : Reader Clause := fun text =>
  match readTerm bound text with
  | .error place => .error place
  | .ok (head, rest) =>
      let (body, rest) := readBody bound rest
      match token? ['.'] rest with
      | some rest => .ok (⟨head, body⟩, rest)
      | none => .error (skipLayout rest)

/-- Reads a query: goals, which `?-` may precede and a full stop may follow. -/
def readQuery (bound : Nat) : Reader Term := fun text =>
  match readGoals (readTerm bound) bound ((token? ['?', '-'] text).getD text) with
  | .error place => .error place
  | .ok ((first, goals), rest) =>
      .ok (.joinGoals first goals, (token? ['.'] rest).getD rest)

/-- Reads clauses as long as one follows; at most `count` of them. -/
def readClauses (bound : Nat) : (count : Nat) → List Char → List Clause × List Char
  | 0, text => ([], text)
  | count + 1, text =>
      match readClause bound text with
      | .error _ => ([], text)
      | .ok (clause, rest) =>
          let (clauses, rest) := readClauses bound count rest
          (clause :: clauses, rest)

end HornLogic.Source
