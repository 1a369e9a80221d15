import HornLogic.Sample
import HornLogic.Search.Stream
import HornLogic.Session.Command
import HornLogic.Source.Parser

/-!
# Interactive sessions

A session is a conversation by lines.  A line that begins with a colon is a command.  Other lines
are collected until one ends with a full stop, and are then a query, if they begin with `?-`, or
clauses to add.  Every line gets an answer of any number of lines.
-/

namespace HornLogic

/-- What a session remembers between lines: the clauses, the settings, how many solutions it shows,
the lines that are not complete yet, and the next number for renaming a clause. -/
structure Session where
  kb : KnowledgeBase := {}
  config : Config := {}
  limit : Nat := 25
  pending : List String := []
  fresh : Nat := 0
  deriving DecidableEq, Inhabited

/-- The answer to a line: the session after it, the lines to show, and whether the conversation
ends. -/
structure Reply where
  session : Session
  lines : List String := []
  ends : Bool := false
  deriving DecidableEq, Inhabited

namespace Session

def banner : String :=
  "microprolog; :help for commands"

def prompt (session : Session) : String :=
  if session.pending.isEmpty then "| " else "  "

/-- What is shown for a sample in the list of samples: its name, to a width of ten, and what it is
about. -/
def sampleLine (sample : Sample) : String :=
  String.ofList (sample.name.toList.rightpad 10 ' ') ++ " " ++ sample.description

/-- Loads a sample.  Samples are programs, and their clauses can be added. -/
def load (session : Session) (name : String) : Reply :=
  match Sample.find? name with
  | none => { session, lines := ["unknown sample `" ++ name ++ "`; try :samples"] }
  | some sample =>
      let clauses := (Clause.parseProgram sample.source).toOption.getD []
      { session := { session with kb := (session.kb.addAll clauses).1 }
        lines :=
          ("loaded " ++ name ++ ": " ++ sample.description) ::
            sample.queries.map ("  try: ?- " ++ ·) }

/-- Obeys a command; `text` is what was entered after the colon. -/
def obey (session : Session) (text : String) : Command → Reply
  | .quit => { session, ends := true }
  | .help => { session, lines := Command.helpLines }
  | .list => { session, lines := session.kb.clauses.toList.map Clause.text }
  | .count => { session, lines := [session.kb.size.repr ++ " clauses"] }
  | .clear => { session := { session with kb := .empty }, lines := ["cleared"] }
  | .samples => { session, lines := Sample.catalog.map sampleLine }
  | .load name => session.load name
  | .occursCheck on =>
      { session := { session with config := { session.config with occursCheck := on } }
        lines := ["occurs check " ++ if on then "on" else "off"] }
  | .depth none =>
      { session := { session with config := { session.config with maxDepth := none } }
        lines := ["depth unbounded"] }
  | .depth (some limit) =>
      { session := { session with config := { session.config with maxDepth := some limit } }
        lines := ["depth limit " ++ limit.repr] }
  | .solutionLimit limit =>
      { session := { session with limit }
        lines := ["showing at most " ++ limit.repr ++ " solutions"] }
  | .badDepth => { session, lines := ["expected a number or `off`"] }
  | .badLimit => { session, lines := ["expected a number"] }
  | .unknown => { session, lines := ["unknown command `:" ++ text ++ "`; try :help"] }

def addClause (session : Session) (clause : Clause) : Session × String :=
  match session.kb.add clause with
  | .ok kb => ({ session with kb }, "ok")
  | .error fault => (session, "error: " ++ fault.message)

/-- Adds clauses, with a line for each. -/
def addClauses (session : Session) : List Clause → Reply
  | [] => { session }
  | clause :: clauses =>
      let (session, line) := session.addClause clause
      let reply := session.addClauses clauses
      { reply with lines := line :: reply.lines }

/-- Reports the items of a search, after `found` solutions that are shown already: a line for every
solution and a last one that tells how the report ends.  Gives the lines and the next free number;
there is no answer if the effort is used up. -/
def report (prover : Prover) (limit : Nat) :
    (effort fresh found : Nat) → Search → Option (List String × Nat)
  | 0, _, _, _ => none
  | effort + 1, fresh, found, search =>
      match prover.next effort fresh search with
      | .interrupted => none
      | .exhausted fresh _ => some ([if 0 < found then "yes" else "no"], fresh)
      | .item item fresh search =>
          if found = limit then
            some (["... (stopped after " ++ found.repr ++ " solutions)"], fresh)
          else
            match item with
            | .error fault => some (["error: " ++ fault.message], fresh)
            | .ok solution =>
                (report prover limit effort fresh (found + 1) search).map fun (lines, fresh) =>
                  (solution.text :: lines, fresh)

/-- Answers a query; the counter has 64 bits.  There is no answer if the effort is used up. -/
def query (session : Session) (effort : Nat) (text : String) : Option Reply :=
  match Term.parseQuery text with
  | .error fault => some { session, lines := [fault.message] }
  | .ok goal =>
      match Search.start goal with
      | .error fault => some { session, lines := ["error: " ++ fault.message] }
      | .ok search =>
          let prover := session.kb.prover session.config wrappingNext
          (report prover session.limit effort session.fresh 0 search).map fun (lines, fresh) =>
            { session := { session with fresh }, lines }

def consult (session : Session) (text : String) : Reply :=
  match Clause.parseProgram text with
  | .error fault => { session, lines := [fault.message] }
  | .ok clauses => session.addClauses clauses

/-- The part of a line before a comment; `%` between quotes begins none.  The arguments tell whether
the line begins between quotes and after a backslash. -/
def beforeComment : (quoted escaped : Bool) → List Char → List Char
  | _, _, [] => []
  | quoted, true, c :: rest => c :: beforeComment quoted false rest
  | quoted, false, c :: rest =>
      if c = '%' ∧ quoted = false then []
      else if c = '\'' then c :: beforeComment (!quoted) false rest
      else c :: beforeComment quoted (quoted && c == '\\') rest

/-- Whether a line ends with a full stop, not counting a comment after it. -/
def endsStatement (line : List Char) : Bool :=
  (Text.trimEnd (beforeComment false false line)).getLast? == some '.'

def submit (session : Session) (effort : Nat) (text : String) : Option Reply :=
  if ['?', '-'].isPrefixOf text.toList then session.query effort text
  else some (session.consult text)

/-- Takes a line that is part of a query or of clauses. -/
def collect (session : Session) (effort : Nat) (line : List Char) : Option Reply :=
  let entered := session.pending ++ [String.ofList line]
  if endsStatement line then
    { session with pending := [] }.submit effort (String.intercalate "\n" entered)
  else some { session := { session with pending := entered } }

/-- Takes a line.  There is no answer if the effort is used up. -/
def handle (session : Session) (effort : Nat) (line : String) : Option Reply :=
  let line := Text.trim line.toList
  match session.pending, line with
  | [], [] => some { session }
  | [], '%' :: _ => some { session }
  | [], ':' :: command => some (session.obey (String.ofList command) (Command.parse command))
  | _, _ => session.collect effort line

end Session

end HornLogic
