import HornLogic.Session.Basic

/-!
# Transcripts

The whole text that a session shows: what loading the samples it begins with gives, the opening
line, and then before each line a prompt and after it the answer.
-/

namespace HornLogic

namespace Session

def shown (lines : List String) : String :=
  String.join (lines.map (· ++ "\n"))

def loadAll (session : Session) : List String → Reply
  | [] => { session }
  | name :: names =>
      let first := session.load name
      let rest := first.session.loadAll names
      { rest with lines := first.lines ++ rest.lines }

/-- The session that a conversation begins with and the lines shown before the first prompt. -/
def opening (samples : List String) : Reply :=
  let loaded := loadAll {} samples
  { loaded with lines := loaded.lines ++ [banner] }

/-- What is shown from the next prompt on, when these lines are entered.  There is no answer if the
effort is used up. -/
def conversation (effort : Nat) (session : Session) : List String → Option String
  | [] => some session.prompt
  | line :: lines =>
      match session.handle effort line with
      | none => none
      | some reply =>
          let text := session.prompt ++ shown reply.lines
          if reply.ends then some text
          else (conversation effort reply.session lines).map (text ++ ·)

/-- All that is shown when a session begins with these samples and this text is entered. -/
def transcript (effort : Nat) (samples : List String) (input : String) : Option String :=
  let opened := opening samples
  let lines := (Text.lines input.toList).map String.ofList
  (conversation effort opened.session lines).map (shown opened.lines ++ ·)

end Session

end HornLogic
