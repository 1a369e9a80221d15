import HornLogic.Proofs.Search.Calls

/-!
# Searches that share a counter

All searches of a process take their numbers for renaming from one counter.  Searches
are opened as cursors over one knowledge base, each with its own query and settings.
The cursors are asked for their next items in any order and may be dropped at any
time.  What a cursor does touches the others only through the counter.
-/

namespace HornLogic

/-- A search that was opened for a query with these settings. -/
structure Cursor where
  query : Term
  config : Config
  search : Search

/-- The next free number, and the cursors in the order in which they were opened.  A
cursor that was dropped leaves an empty place. -/
structure Process where
  fresh : Nat
  cursors : List (Option Cursor) := []

/-- What happens to the cursors of a process; they are told apart by their places. -/
inductive Event where
  | opened (query : Term) (config : Config)
  /-- A cursor is asked for its next item; there is none if its search has ended. -/
  | pulled (key : Nat) (answer : Option Item)
  | dropped (key : Nat)

namespace Event

def opening? : Event → Option (Term × Config)
  | .opened query config => some (query, config)
  | _ => none

/-- The answer that the cursor in this place gives. -/
def answerOf? (key : Nat) : Event → Option (Option Item)
  | .pulled other answer => if other = key then some answer else none
  | _ => none

def solution? : Event → Option Solution
  | .pulled _ (some (.ok solution)) => some solution
  | _ => none

end Event

/-- The queries and settings of the cursors, in the order of their places. -/
def openings (events : List Event) : List (Term × Config) :=
  events.filterMap Event.opening?

/-- The answers of one cursor in the order in which it gave them. -/
def answersOf (key : Nat) (events : List Event) : List (Option Item) :=
  events.filterMap (Event.answerOf? key)

def solutionsOf (events : List Event) : List Solution :=
  events.filterMap Event.solution?

section

variable (events : List Event) (event : Event)

theorem filterMap_concat {β : Type} (select : Event → Option β) :
    (events ++ [event]).filterMap select =
      events.filterMap select ++ (select event).toList := by
  rw [List.filterMap_append]
  cases selected : select event with
  | none => simp [selected]
  | some value => simp [selected]

theorem openings_concat :
    openings (events ++ [event]) = openings events ++ event.opening?.toList :=
  filterMap_concat events event _

theorem answersOf_concat (key : Nat) :
    answersOf key (events ++ [event]) =
      answersOf key events ++ (event.answerOf? key).toList :=
  filterMap_concat events event _

theorem solutionsOf_concat :
    solutionsOf (events ++ [event]) = solutionsOf events ++ event.solution?.toList :=
  filterMap_concat events event _

end

namespace Process

/-- What a process makes of an event.  The calls that are made return. -/
inductive Does (kb : KnowledgeBase) (process : Process) : Event → Process → Prop where
  | opened {query : Term} {config : Config} {search : Search}
      (started : Search.start query = .ok search) :
      Does kb process (.opened query config)
        ⟨process.fresh, process.cursors ++ [some ⟨query, config, search⟩]⟩
  | pulled {key effort later : Nat} {cursor : Cursor} {answer : Option Item}
      {after : Search} (present : process.cursors[key]? = some (some cursor))
      (answered : ((kb.prover cursor.config).next effort process.fresh
        cursor.search).answer? = some (answer, later, after)) :
      Does kb process (.pulled key answer)
        ⟨later, process.cursors.set key (some { cursor with search := after })⟩
  | dropped {key : Nat} {cursor : Cursor}
      (present : process.cursors[key]? = some (some cursor)) :
      Does kb process (.dropped key) ⟨process.fresh, process.cursors.set key none⟩

/-- The events so far, since there were no cursors and `first` was the next free
number. -/
inductive History (kb : KnowledgeBase) (first : Nat) : List Event → Process → Prop where
  | start : History kb first [] ⟨first, []⟩
  | next {events : List Event} {process after : Process} {event : Event} :
      History kb first events process → process.Does kb event after →
      History kb first (events ++ [event]) after

variable {kb : KnowledgeBase} {first : Nat} {events : List Event} {process : Process}

theorem History.length_openings (history : History kb first events process) :
    (openings events).length = process.cursors.length := by
  induction history with
  | start => rfl
  | next earlier does induction =>
      rw [openings_concat, List.length_append, induction]
      cases does with
      | opened started => simp [Event.opening?]
      | pulled present answered => simp [Event.opening?]
      | dropped present => simp [Event.opening?]

theorem History.answersOf_eq_nil (history : History kb first events process) {key : Nat}
    (closed : process.cursors.length ≤ key) : answersOf key events = [] := by
  induction history with
  | start => rfl
  | next earlier does induction =>
      rw [answersOf_concat]
      cases does with
      | opened started =>
          rw [List.length_append, List.length_singleton] at closed
          rw [induction (by omega)]
          rfl
      | dropped present =>
          rw [induction (by simpa using closed)]
          rfl
      | @pulled other _ _ _ _ _ present answered =>
          rw [List.length_set] at closed
          have inside := (List.getElem?_eq_some_iff.mp present).1
          have differs : other ≠ key := by omega
          rw [induction closed]
          simp [Event.answerOf?, differs]

/-- What a process looks like while one of its cursors looks for its next item. -/
inductive During (kb : KnowledgeBase) (process : Process) (key : Nat) : Process → Prop where
  | intro {cursor : Cursor} {later : Nat} {after : Search}
      (present : process.cursors[key]? = some (some cursor))
      (reached : (kb.prover cursor.config).Reaches process.fresh cursor.search later
        after) :
      During kb process key
        ⟨later, process.cursors.set key (some { cursor with search := after })⟩

end Process

end HornLogic
