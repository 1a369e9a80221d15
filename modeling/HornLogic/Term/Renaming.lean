import HornLogic.Term.Basic

/-!
# Renaming variables

A clause is renamed apart before it is tried: every variable gets a mark that no earlier trial
used.  The mark is a number written after `#`, a character that no variable of a source text can
contain, so the number can be read back from a renamed variable.
-/

namespace HornLogic

/-- The name that a variable gets when its clause is renamed with a number. -/
def freshName (suffix : Nat) (name : String) : String :=
  name ++ "#" ++ suffix.repr

namespace Term

/-- Changes the names of variables and nothing else. -/
def rename (change : String → String) (term : Term) : Term :=
  term.subst fun name => .var (change name)

def freshen (suffix : Nat) (term : Term) : Term :=
  term.rename (freshName suffix)

end Term

end HornLogic
