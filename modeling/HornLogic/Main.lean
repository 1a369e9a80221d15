import HornLogic.Session.Transcript

/-!
# The command line

Reads lines and shows the answers.  The arguments name samples to begin with.
-/

namespace HornLogic

/-- An effort that no run uses up. -/
def unboundedEffort : Nat := Nat.pow 2 62

/-- Takes lines until the input or the conversation ends. -/
partial def converse (input output : IO.FS.Stream) (session : Session) : IO Unit := do
  output.putStr session.prompt
  output.flush
  let line ← input.getLine
  if line.isEmpty then return
  match session.handle unboundedEffort line with
  | none => return
  | some reply =>
      output.putStr (Session.shown reply.lines)
      if !reply.ends then converse input output reply.session

end HornLogic

def main (samples : List String) : IO Unit := do
  let output ← IO.getStdout
  let opened := HornLogic.Session.opening samples
  output.putStr (HornLogic.Session.shown opened.lines)
  HornLogic.converse (← IO.getStdin) output opened.session
