import HornLogic.Clause

/-!
# The grammar of source texts

A derivation is a tree that keeps everything which is written, with the layout between
the parts:

* `term   = goal`
* `query  = [layout "?-"] goals [layout "."]`
* `clause = primary [layout ":-" goals] layout "."`
* `goals  = goal (layout "," goal)*`
* `goal   = primary [layout "\=" primary]`
* `primary = layout ("(" goals layout ")" | variable | name arguments)`
* `arguments = nothing | "(" [goals] layout ")"`

A whole text is one of these, or any number of clauses, with layout after it.  A tree
fits before a text if its runs of letters and digits and its comments are as long as
they can be there.
-/

namespace HornLogic.Source

def IsBlank (c : Char) : Prop :=
  c = ' ' ∨ c = '\t' ∨ c = '\r' ∨ c = '\n'

def EndsLine (c : Char) : Prop :=
  c = '\r' ∨ c = '\n'

def IsSmallLetter (c : Char) : Prop :=
  'a' ≤ c ∧ c ≤ 'z'

def IsCapitalLetter (c : Char) : Prop :=
  'A' ≤ c ∧ c ≤ 'Z'

def IsDecimalDigit (c : Char) : Prop :=
  '0' ≤ c ∧ c ≤ '9'

/-- Identifiers go on with letters, digits and underscores. -/
def ContinuesIdentifier (c : Char) : Prop :=
  IsSmallLetter c ∨ IsCapitalLetter c ∨ IsDecimalDigit c ∨ c = '_'

def BeginsVariable (c : Char) : Prop :=
  IsCapitalLetter c ∨ c = '_'

/-- All characters have the property, and no more of them stand at the front of what
follows. -/
def LongestRun (holds : Char → Prop) (run rest : List Char) : Prop :=
  (∀ c ∈ run, holds c) ∧ ∀ c ∈ rest.head?, ¬ holds c

/-- Blanks and comments, in any number. -/
inductive Layout where
  | none
  | blank (c : Char) (after : Layout)
  /-- A comment, without the mark that it begins with. -/
  | comment (body : List Char) (after : Layout)

namespace Layout

def text : Layout → List Char
  | .none => []
  | .blank c after => c :: after.text
  | .comment body after => '%' :: (body ++ after.text)

/-- Every comment ends with its line, or with the text. -/
def Fits (rest : List Char) : Layout → Prop
  | .none => True
  | .blank c after => IsBlank c ∧ after.Fits rest
  | .comment body after =>
      LongestRun (¬ EndsLine ·) body (after.text ++ rest) ∧ after.Fits rest

end Layout

/-- A character between quotes: one that stands for itself, or one after a backslash. -/
inductive QuotedPart where
  | bare (c : Char)
  | escaped (c : Char)

namespace QuotedPart

def text : QuotedPart → List Char
  | .bare c => [c]
  | .escaped c => ['\\', c]

/-- What the part stands for, if it may stand between quotes. -/
def meaning? : QuotedPart → Option Char
  | .bare '\'' => none
  | .bare '\\' => none
  | .bare c => some c
  | .escaped '\\' => some '\\'
  | .escaped '\'' => some '\''
  | .escaped 'n' => some '\n'
  | .escaped 't' => some '\t'
  | .escaped _ => none

end QuotedPart

/-- A written name of an atom or functor. -/
inductive NameTree where
  | plain (first : Char) (others : List Char)
  | number (first : Char) (others : List Char)
  | quoted (parts : List QuotedPart)

namespace NameTree

def text : NameTree → List Char
  | .plain first others => first :: others
  | .number first others => first :: others
  | .quoted parts => '\'' :: (parts.flatMap QuotedPart.text ++ ['\''])

def value : NameTree → List Char
  | .plain first others => first :: others
  | .number first others => first :: others
  | .quoted parts => parts.filterMap QuotedPart.meaning?

/-- The name is of its kind, and no more characters could belong to it. -/
def Fits (rest : List Char) : NameTree → Prop
  | .plain first others => IsSmallLetter first ∧ LongestRun ContinuesIdentifier others rest
  | .number first others => IsDecimalDigit first ∧ LongestRun IsDecimalDigit others rest
  | .quoted parts => ∀ part ∈ parts, part.meaning?.isSome

end NameTree

inductive Nonterminal where
  | primary
  | arguments
  | goal
  | goals

/-- What is derived from a nonterminal: a term, arguments if there are any in
parentheses, or goals of which there is at least one. -/
abbrev Nonterminal.Value : Nonterminal → Type
  | .primary => Term
  | .arguments => Option (List Term)
  | .goal => Term
  | .goals => Term × List Term

/-- A derivation from a nonterminal. -/
inductive Tree : Nonterminal → Type where
  | group (before : Layout) (inside : Tree .goals) (closing : Layout) : Tree .primary
  | identifier (before : Layout) (first : Char) (others : List Char) : Tree .primary
  | named (before : Layout) (name : NameTree) (args : Tree .arguments) : Tree .primary
  | noArguments : Tree .arguments
  | emptyArguments (closing : Layout) : Tree .arguments
  | someArguments (inside : Tree .goals) (closing : Layout) : Tree .arguments
  | single (primary : Tree .primary) : Tree .goal
  | test (left : Tree .primary) (operator : Layout) (right : Tree .primary) : Tree .goal
  | last (goal : Tree .goal) : Tree .goals
  | more (goal : Tree .goal) (comma : Layout) (others : Tree .goals) : Tree .goals

namespace Tree

@[simp]
def text : {kind : Nonterminal} → Tree kind → List Char
  | _, .group before inside closing =>
      before.text ++ '(' :: (inside.text ++ (closing.text ++ [')']))
  | _, .identifier before first others => before.text ++ first :: others
  | _, .named before name args => before.text ++ (name.text ++ args.text)
  | _, .noArguments => []
  | _, .emptyArguments closing => '(' :: (closing.text ++ [')'])
  | _, .someArguments inside closing => '(' :: (inside.text ++ (closing.text ++ [')']))
  | _, .single primary => primary.text
  | _, .test left operator right => left.text ++ (operator.text ++ '\\' :: '=' :: right.text)
  | _, .last goal => goal.text
  | _, .more goal comma others => goal.text ++ (comma.text ++ ',' :: others.text)

@[simp]
def value : {kind : Nonterminal} → Tree kind → kind.Value
  | _, .group _ inside _ => .joinGoals inside.value.1 inside.value.2
  | _, .identifier _ first others => .var (String.ofList (first :: others))
  | _, .named _ name args =>
      match args.value with
      | none => .atom (String.ofList name.value)
      | some args => .app (String.ofList name.value) args
  | _, .noArguments => none
  | _, .emptyArguments _ => some []
  | _, .someArguments inside _ => some (inside.value.1 :: inside.value.2)
  | _, .single primary => primary.value
  | _, .test left _ right => .notUnifiable left.value right.value
  | _, .last goal => (goal.value, [])
  | _, .more goal _ others => (goal.value, others.value.1 :: others.value.2)

/-- All layout, names and variables in the tree fit where they stand. -/
def Fits : {kind : Nonterminal} → Tree kind → List Char → Prop
  | _, .group before inside closing, rest =>
      before.Fits ('(' :: (inside.text ++ (closing.text ++ ')' :: rest))) ∧
        inside.Fits (closing.text ++ ')' :: rest) ∧ closing.Fits (')' :: rest)
  | _, .identifier before first others, rest =>
      before.Fits (first :: (others ++ rest)) ∧ BeginsVariable first ∧
        LongestRun ContinuesIdentifier others rest
  | _, .named before name args, rest =>
      before.Fits (name.text ++ (args.text ++ rest)) ∧ name.Fits (args.text ++ rest) ∧
        args.Fits rest
  | _, .noArguments, _ => True
  | _, .emptyArguments closing, rest => closing.Fits (')' :: rest)
  | _, .someArguments inside closing, rest =>
      inside.Fits (closing.text ++ ')' :: rest) ∧ closing.Fits (')' :: rest)
  | _, .single primary, rest => primary.Fits rest
  | _, .test left operator right, rest =>
      left.Fits (operator.text ++ '\\' :: '=' :: (right.text ++ rest)) ∧
        operator.Fits ('\\' :: '=' :: (right.text ++ rest)) ∧ right.Fits rest
  | _, .last goal, rest => goal.Fits rest
  | _, .more goal comma others, rest =>
      goal.Fits (comma.text ++ ',' :: (others.text ++ rest)) ∧
        comma.Fits (',' :: (others.text ++ rest)) ∧ others.Fits rest

end Tree

/-- Layout before a token that may be missing, and this token. -/
def optionalToken (token : List Char) : Option Layout → List Char
  | none => []
  | some before => before.text ++ token

/-- A derivation of a clause: its head, the layout before `:-` and the goals after it
if there are any, and the layout before the full stop. -/
structure ClauseTree where
  head : Tree .primary
  body : Option (Layout × Tree .goals)
  stop : Layout

namespace ClauseTree

/-- What stands between the head and the full stop with its layout. -/
def bodyText : Option (Layout × Tree .goals) → List Char
  | none => []
  | some (arrow, goals) => arrow.text ++ ':' :: '-' :: goals.text

def text (tree : ClauseTree) : List Char :=
  tree.head.text ++ (bodyText tree.body ++ (tree.stop.text ++ ['.']))

def bodyValue : Option (Layout × Tree .goals) → List Term
  | none => []
  | some (_, goals) => goals.value.1 :: goals.value.2

def value (tree : ClauseTree) : Clause where
  head := tree.head.value
  body := bodyValue tree.body

def BodyFits (rest : List Char) : Option (Layout × Tree .goals) → Prop
  | none => True
  | some (arrow, goals) => arrow.Fits (':' :: '-' :: (goals.text ++ rest)) ∧ goals.Fits rest

def Fits (tree : ClauseTree) (rest : List Char) : Prop :=
  tree.head.Fits (bodyText tree.body ++ (tree.stop.text ++ '.' :: rest)) ∧
    BodyFits (tree.stop.text ++ '.' :: rest) tree.body ∧ tree.stop.Fits ('.' :: rest)

end ClauseTree

/-- A derivation of a query: the layout before `?-` if that is there, the goals, and the
layout before the full stop if that is there. -/
structure QueryTree where
  prompt : Option Layout
  goals : Tree .goals
  stop : Option Layout

namespace QueryTree

def text (tree : QueryTree) : List Char :=
  optionalToken ['?', '-'] tree.prompt ++
    (tree.goals.text ++ optionalToken ['.'] tree.stop)

def value (tree : QueryTree) : Term :=
  .joinGoals tree.goals.value.1 tree.goals.value.2

def Fits (tree : QueryTree) (rest : List Char) : Prop :=
  (∀ before ∈ tree.prompt,
    before.Fits ('?' :: '-' :: (tree.goals.text ++ (optionalToken ['.'] tree.stop ++ rest)))) ∧
    tree.goals.Fits (optionalToken ['.'] tree.stop ++ rest) ∧
    ∀ before ∈ tree.stop, before.Fits ('.' :: rest)

end QueryTree

/-- Derivations of one kind, with what is written in them, where they fit, and what they
stand for. -/
structure Grammar (α : Type) where
  Tree : Type
  text : Tree → List Char
  Fits : Tree → List Char → Prop
  value : Tree → α

namespace Grammar

def term : Grammar Term where
  Tree := Source.Tree .goal
  text := Source.Tree.text
  Fits := Source.Tree.Fits
  value := Source.Tree.value

def query : Grammar Term where
  Tree := QueryTree
  text := QueryTree.text
  Fits := QueryTree.Fits
  value := QueryTree.value

def clause : Grammar Clause where
  Tree := ClauseTree
  text := ClauseTree.text
  Fits := ClauseTree.Fits
  value := ClauseTree.value

/-- The clauses of a program stand one after the other. -/
def ProgramFits : List ClauseTree → List Char → Prop
  | [], _ => True
  | first :: others, rest =>
      first.Fits (others.flatMap ClauseTree.text ++ rest) ∧ ProgramFits others rest

def program : Grammar (List Clause) where
  Tree := List ClauseTree
  text := List.flatMap ClauseTree.text
  Fits := ProgramFits
  value := List.map ClauseTree.value

/-- The text is derived as this tree with this layout after it. -/
structure Derives {α : Type} (grammar : Grammar α) (text : List Char)
    (tree : grammar.Tree) (after : Layout) : Prop where
  written : grammar.text tree ++ after.text = text
  fits : grammar.Fits tree after.text
  atEnd : after.Fits []

end Grammar

end HornLogic.Source
