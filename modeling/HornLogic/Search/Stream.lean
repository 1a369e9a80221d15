import HornLogic.Search.Step

/-!
# The items of a search

A search yields its solutions one at a time, when they are asked for.  After a fault or after the
last solution it yields nothing more.  Looking for the next item may take for ever, so an effort
bounds the number of steps; an answer given with some effort is the same for every larger effort.
-/

namespace HornLogic

/-- What comes of asking a search for its next item. -/
inductive Pull where
  /-- The item, the next free number and the search that yields the later items. -/
  | item (item : Item) (fresh : Nat) (search : Search)
  /-- The search has ended. -/
  | exhausted (fresh : Nat) (search : Search)
  /-- The effort was used up. -/
  | interrupted
  deriving DecidableEq, Inhabited

namespace Prover

/-- Runs a search up to its next item. -/
def next (prover : Prover) : (effort fresh : Nat) → Search → Pull
  | 0, _, _ => .interrupted
  | effort + 1, fresh, search =>
      match search.phase with
      | .finished => .exhausted fresh search
      | _ =>
          match prover.step effort fresh search with
          | none => .interrupted
          | some turn =>
              match turn.item with
              | some item => .item item turn.fresh turn.search
              | none => prover.next effort turn.fresh turn.search

/-- All solutions of a search, or the fault that ends it, with the next free number.  There is no
answer if the effort is used up. -/
def collect (prover : Prover) :
    (effort fresh : Nat) → Search → Option (Except Fault (List Solution) × Nat)
  | 0, _, _ => none
  | effort + 1, fresh, search =>
      match prover.next effort fresh search with
      | .interrupted => none
      | .exhausted fresh _ => some (.ok [], fresh)
      | .item (.error fault) fresh _ => some (.error fault, fresh)
      | .item (.ok solution) fresh search =>
          (prover.collect effort fresh search).map fun (later, fresh) =>
            (later.map (solution :: ·), fresh)

/-- Whether a search yields a solution, or the fault that ends it before the first one, with the
next free number.  There is no answer if the effort is used up. -/
def holds? (prover : Prover) (effort fresh : Nat) (search : Search) :
    Option (Except Fault Bool × Nat) :=
  match prover.next effort fresh search with
  | .interrupted => none
  | .exhausted fresh _ => some (.ok false, fresh)
  | .item (.error fault) fresh _ => some (.error fault, fresh)
  | .item (.ok _) fresh _ => some (.ok true, fresh)

/-- Runs a search up to its next item and adds notes of what was done to those taken already, the
latest first. -/
def nextNoted (prover : Prover) :
    (effort fresh : Nat) → List Note → Search → Pull × List Note
  | 0, _, notes, _ => (.interrupted, notes)
  | effort + 1, fresh, notes, search =>
      match search.phase with
      | .finished => (.exhausted fresh search, notes)
      | _ =>
          match prover.step effort fresh search with
          | none => (.interrupted, notes)
          | some turn =>
              let notes := turn.note.toList ++ notes
              match turn.item with
              | some item => (.item item turn.fresh turn.search, notes)
              | none => prover.nextNoted effort turn.fresh notes turn.search

end Prover

end HornLogic
