import HornLogic.Term.Basic

/-!
# Bindings

Bindings give terms to variables.  A value may mention variables that are bound themselves, so a
set of bindings is a triangular form of a substitution.  No variable is bound twice, and the order
in which variables were first bound is kept: `Bindings.toList` lists it.

The entries are stored newest first, so that a search can add to bindings which it still shares
with earlier choices.
-/

namespace HornLogic

/-- Values of variables, each variable at most once; the newest entry comes first. -/
structure Bindings where
  entries : List (String × Term)
  nodup : (entries.map Prod.fst).Nodup := by simp
  deriving DecidableEq

namespace Bindings

def empty : Bindings :=
  ⟨[], by simp⟩

instance : Inhabited Bindings :=
  ⟨empty⟩

instance : EmptyCollection Bindings :=
  ⟨empty⟩

def size (bindings : Bindings) : Nat :=
  bindings.entries.length

def isEmpty (bindings : Bindings) : Bool :=
  bindings.entries.isEmpty

/-- The value of a variable, itself not looked into. -/
def get? (bindings : Bindings) (name : String) : Option Term :=
  bindings.entries.lookup name

/-- The bindings in the order in which the variables were first bound. -/
def toList (bindings : Bindings) : List (String × Term) :=
  bindings.entries.reverse

/-- Gives an entry another value if it is the entry of `name`. -/
def setEntry (name : String) (value : Term) (entry : String × Term) : String × Term :=
  if entry.1 = name then (name, value) else entry

theorem map_fst_setEntry (name : String) (value : Term) (entries : List (String × Term)) :
    (entries.map (setEntry name value)).map Prod.fst = entries.map Prod.fst := by
  rw [List.map_map]
  refine List.map_congr_left fun entry _ => ?_
  by_cases same : entry.1 = name <;> simp [setEntry, same]

/-- Binds a variable.  One that is bound already keeps its place and takes the new value. -/
def bind (bindings : Bindings) (name : String) (value : Term) : Bindings :=
  if bound : name ∈ bindings.entries.map Prod.fst then
    ⟨bindings.entries.map (setEntry name value), by
      rw [map_fst_setEntry]
      exact bindings.nodup⟩
  else
    ⟨(name, value) :: bindings.entries, by
      rw [List.map_cons, List.nodup_cons]
      exact ⟨bound, bindings.nodup⟩⟩

def ofList (pairs : List (String × Term)) : Bindings :=
  pairs.foldl (fun bindings pair => bindings.bind pair.1 pair.2) empty

/-- Follows at most this many bindings of variables, as long as they lead from a variable. -/
def follow (bindings : Bindings) : Nat → Term → Term
  | 0, term => term
  | steps + 1, .var name =>
      match bindings.get? name with
      | some value => follow bindings steps value
      | none => .var name
  | _ + 1, term => term

/-- The term at the end of a chain of variables: a term that is no variable, or a variable without
a value.  No chain is longer than the number of bindings unless it runs in a circle, and then the
walk ends on some variable of the circle. -/
def walk (bindings : Bindings) (term : Term) : Term :=
  bindings.follow (bindings.size + 1) term

end Bindings

end HornLogic
