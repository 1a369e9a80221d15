/-!
# Settings of a search

By default the occurs check is on and there is no depth limit.
-/

namespace HornLogic

/-- What a search refuses to do: bind a variable to a term that contains it, and go deeper than a
limit if there is one. -/
structure Config where
  occursCheck : Bool := true
  maxDepth : Option Nat := none
  deriving DecidableEq, Inhabited

/-- The limit that a depth is beyond, if there is one; a depth equal to the limit is allowed. -/
def Config.exceededAt (config : Config) (depth : Nat) : Option Nat :=
  config.maxDepth.filter (· < depth)

end HornLogic
