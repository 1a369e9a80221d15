import HornLogic.Proofs.Source.RoundTrip
import HornLogic.Proofs.Term.FreshNames

/-!
# Numbered variables are not read back

The name that a variable gets together with a number has a mark in it, and no variable that
is written in a text has.  A reader that comes to such a name takes what stands before the
mark for a variable and stops there.  A reader of something larger either gives up too, or
it leaves out the part that it cannot read to the end and stops before it; but wherever it
stops, none of the tokens is found that would be needed next.
-/

namespace HornLogic

namespace Source

/-- The text goes on with none of the tokens. -/
def NoneFound (tokens : List (List Char)) (text : List Char) : Prop :=
  ∀ token ∈ tokens, token? token text = none

/-- Reading what is written fails or stops before a place where none of these tokens is
found, whatever text follows. -/
def Reader.Sticks {α : Type} (read : Reader α) (written : List Char)
    (tokens : List (List Char)) : Prop :=
  ∀ rest value left, read (written ++ rest) = .ok (value, left) → NoneFound tokens left

def tokensAfterTerm : List (List Char) :=
  [['\\', '='], [','], [')'], [':', '-'], ['.']]

def tokensAfterGoal : List (List Char) :=
  [[','], [')'], ['.']]

def tokensAfterGoals : List (List Char) :=
  [[')'], ['.']]

theorem tokensAfterGoal_subset : tokensAfterGoal ⊆ tokensAfterTerm := by
  decide

theorem tokensAfterGoals_subset : tokensAfterGoals ⊆ tokensAfterGoal := by
  decide

section

variable {tokens fewer : List (List Char)} {text : List Char}

theorem noneFound_cons {token : List Char} :
    NoneFound (token :: tokens) text ↔ token? token text = none ∧ NoneFound tokens text :=
  List.forall_mem_cons

theorem noneFound_nil : NoneFound [] text :=
  List.forall_mem_nil _

theorem NoneFound.mono (found : NoneFound tokens text) (subset : fewer ⊆ tokens) :
    NoneFound fewer text :=
  fun token member => found token (subset member)

theorem noneFound_afterTerm {c : Char} (mark : c = '#' ∨ c = '(') (rest : List Char) :
    NoneFound tokensAfterTerm (c :: rest) := by
  simp only [tokensAfterTerm, noneFound_cons]
  rcases mark with rfl | rfl
  · exact ⟨rfl, rfl, rfl, rfl, rfl, noneFound_nil⟩
  · exact ⟨rfl, rfl, rfl, rfl, rfl, noneFound_nil⟩

theorem noneFound_afterGoal (rest : List Char) :
    NoneFound tokensAfterGoal (' ' :: '\\' :: '=' :: rest) := by
  simp only [tokensAfterGoal, noneFound_cons]
  exact ⟨rfl, rfl, rfl, noneFound_nil⟩

theorem noneFound_afterGoals (rest : List Char) : NoneFound tokensAfterGoals (',' :: rest) := by
  simp only [tokensAfterGoals, noneFound_cons]
  exact ⟨rfl, rfl, noneFound_nil⟩

end

/-- The name begins as that of a variable, but what is read of it as one ends at a mark. -/
def IsMarkedName (name : String) : Prop :=
  ∃ c before after, name.toList = c :: (before ++ '#' :: after) ∧
    isVariableStart c = true ∧ before.all isIdentifierRest = true

theorem isMarkedName_freshName_underscore (number : Nat) :
    IsMarkedName (freshName number "_") :=
  ⟨'_', [], Nat.toDigits 10 number, toList_freshName number "_", by decide, rfl⟩

section

variable {bound count : Nat} {written more : List Char}

theorem Reader.Sticks.append {α : Type} {read : Reader α} {tokens : List (List Char)}
    (sticks : read.Sticks written tokens) (more : List Char) :
    read.Sticks (written ++ more) tokens := by
  intro rest value left found
  rw [List.append_assoc] at found
  exact sticks (more ++ rest) value left found

theorem readTerm_sticks_marked {name : String} (marked : IsMarkedName name) :
    (readTerm bound).Sticks name.toList tokensAfterTerm := by
  intro rest value left found
  obtain ⟨c, before, after, characters, start, identifier⟩ := marked
  cases bound with
  | zero => cases found
  | succ bound =>
      have ends : EndsName ('#' :: (after ++ rest)) := by simp [EndsName, isIdentifierRest]
      rw [characters, List.cons_append, List.append_assoc, List.cons_append,
        readTerm_start (isTermStart_of_isVariableStart start),
        readTermHere_identifier start identifier ends] at found
      obtain ⟨_, rfl⟩ := Prod.mk.inj (Except.ok.inj found)
      exact noneFound_afterTerm (.inl rfl) _

theorem readTerm_sticks_parenthesized
    (sticks : (readGoals (readTerm bound) bound).Sticks written tokensAfterGoals)
    (tokens : List (List Char)) :
    (readTerm (bound + 1)).Sticks ('(' :: written ++ [')']) tokens := by
  intro rest value left found
  have whole : ('(' :: written ++ [')']) ++ rest = '(' :: (written ++ ')' :: rest) := by
    simp
  have unread : readInParentheses (readTerm bound) bound (written ++ ')' :: rest) = none := by
    cases inside : readGoals (readTerm bound) bound (written ++ ')' :: rest) with
    | error place => simp [readInParentheses, inside]
    | ok result =>
        obtain ⟨goals, after⟩ := result
        have noClosing := sticks _ _ _ inside [')'] (by decide)
        simp [readInParentheses, inside, noClosing]
  rw [whole, readTerm_start (by decide)] at found
  simp [readTermHere, unread] at found

/-- A name is read without its arguments, up to the parenthesis that they begin with. -/
theorem readTerm_sticks_app (functor : String)
    (sticks : (readGoals (readTerm bound) bound).Sticks written tokensAfterGoals)
    (some : ∃ c rest, written = c :: rest ∧ isTermStart c = true) :
    (readTerm (bound + 1)).Sticks (writeName functor ++ '(' :: written ++ [')'])
      tokensAfterTerm := by
  intro rest value left found
  have whole : (writeName functor ++ '(' :: written ++ [')']) ++ rest =
      writeName functor ++ '(' :: (written ++ ')' :: rest) := by
    simp
  have unread : readArguments (readTerm bound) bound (written ++ ')' :: rest) = none := by
    cases inside : readGoals (readTerm bound) bound (written ++ ')' :: rest) with
    | error place =>
        obtain ⟨c, others, rfl, start⟩ := some
        have differs : ')' ≠ c := (ne_of_isTermStart start (by decide)).symm
        have noClosing : token? [')'] (c :: (others ++ ')' :: rest)) = none := by
          simp [token?, skipLayout_termStart start, List.isPrefixOf?, differs]
        rw [List.cons_append] at inside ⊢
        simp [readArguments, inside, noClosing]
    | ok result =>
        obtain ⟨goals, after⟩ := result
        have noClosing := sticks _ _ _ inside [')'] (by decide)
        simp [readArguments, inside, noClosing]
  rw [whole, readTerm_writeName functor (by simp [EndsName, isIdentifierRest])] at found
  simp only [readApplication, unread] at found
  obtain ⟨_, rfl⟩ := Prod.mk.inj (Except.ok.inj found)
  exact noneFound_afterTerm (.inr rfl) _

theorem readGoal_sticks (sticks : (readTerm bound).Sticks written tokensAfterTerm) :
    (readGoal (readTerm bound)).Sticks written tokensAfterGoal := by
  intro rest value left found
  cases first : readTerm bound (written ++ rest) with
  | error place => simp [readGoal, first] at found
  | ok result =>
      obtain ⟨goal, after⟩ := result
      have stuck := sticks _ _ _ first
      have noTest := stuck ['\\', '='] (by decide)
      simp only [readGoal, first, noTest, Option.map_none] at found
      obtain ⟨_, rfl⟩ := Prod.mk.inj (Except.ok.inj found)
      exact stuck.mono tokensAfterGoal_subset

/-- The right side of a test is left out if it cannot be read. -/
theorem readGoal_sticks_right {goal : Term}
    (reads : (readTerm bound).Reads written goal FollowsTerm)
    (sticks : (readTerm bound).Sticks more tokensAfterTerm) :
    (readGoal (readTerm bound)).Sticks (written ++ [' ', '\\', '=', ' '] ++ more)
      tokensAfterGoal := by
  intro rest value left found
  have first := reads (' ' :: '\\' :: '=' :: ' ' :: (more ++ rest))
    (followsTerm_cons (by decide) (by decide) _)
  have operator : token? ['\\', '='] (' ' :: '\\' :: '=' :: ' ' :: (more ++ rest)) =
      some (' ' :: (more ++ rest)) :=
    rfl
  have whole : written ++ [' ', '\\', '=', ' '] ++ more ++ rest =
      written ++ ' ' :: '\\' :: '=' :: ' ' :: (more ++ rest) := by
    simp
  rw [whole] at found
  cases second : readTerm bound (more ++ rest) with
  | error place =>
      simp only [readGoal, first, operator, Option.map_some, readTerm_blank, second] at found
      obtain ⟨_, rfl⟩ := Prod.mk.inj (Except.ok.inj found)
      exact noneFound_afterGoal _
  | ok result =>
      obtain ⟨right, after⟩ := result
      simp only [readGoal, first, operator, Option.map_some, readTerm_blank, second] at found
      obtain ⟨_, rfl⟩ := Prod.mk.inj (Except.ok.inj found)
      exact (sticks _ _ _ second).mono tokensAfterGoal_subset

theorem readGoals_sticks_first
    (sticks : (readGoal (readTerm bound)).Sticks written tokensAfterGoal) :
    (readGoals (readTerm bound) count).Sticks written tokensAfterGoals := by
  intro rest value left found
  cases first : readGoal (readTerm bound) (written ++ rest) with
  | error place => simp [readGoals, first] at found
  | ok result =>
      obtain ⟨goal, after⟩ := result
      have stuck := sticks _ _ _ first
      have noComma := stuck [','] (by decide)
      have further : readFurtherGoals (readTerm bound) count after = ([], after) := by
        cases count with
        | zero => rfl
        | succ count => simp [readFurtherGoals, noComma]
      simp only [readGoals, first, further] at found
      obtain ⟨_, rfl⟩ := Prod.mk.inj (Except.ok.inj found)
      exact stuck.mono tokensAfterGoals_subset

/-- The goals after a comma are left out from the one on that cannot be read. -/
theorem readGoals_sticks_cons {goal : Term}
    (reads : (readGoal (readTerm bound)).Reads written goal FollowsGoal)
    (sticks : ∀ count, (readGoals (readTerm bound) count).Sticks more tokensAfterGoals) :
    (readGoals (readTerm bound) count).Sticks (written ++ [',', ' '] ++ more)
      tokensAfterGoals := by
  intro rest value left found
  have first := reads (',' :: ' ' :: (more ++ rest)) (followsGoal_comma _)
  have comma : token? [','] (',' :: ' ' :: (more ++ rest)) = some (' ' :: (more ++ rest)) :=
    rfl
  have whole : written ++ [',', ' '] ++ more ++ rest =
      written ++ ',' :: ' ' :: (more ++ rest) := by
    simp
  rw [whole] at found
  simp only [readGoals, first] at found
  cases count with
  | zero =>
      obtain ⟨_, rfl⟩ := Prod.mk.inj (Except.ok.inj found)
      exact noneFound_afterGoals _
  | succ count =>
      cases second : readGoal (readTerm bound) (more ++ rest) with
      | error place =>
          simp only [readFurtherGoals, comma, Option.map_some, readGoal_blank, second] at found
          obtain ⟨_, rfl⟩ := Prod.mk.inj (Except.ok.inj found)
          exact noneFound_afterGoals _
      | ok result =>
          obtain ⟨next, after⟩ := result
          simp only [readFurtherGoals, comma, Option.map_some, readGoal_blank, second] at found
          obtain ⟨_, rfl⟩ := Prod.mk.inj (Except.ok.inj found)
          have others : readGoals (readTerm bound) count (more ++ rest) =
              .ok ((next, (readFurtherGoals (readTerm bound) count after).1),
                (readFurtherGoals (readTerm bound) count after).2) := by
            simp [readGoals, second]
          exact sticks count rest _ _ others

/-- Of goals that are read back or stick, one that sticks is enough. -/
theorem readGoals_sticks_separated {write : Term → List Char} {first : Term}
    {others : List Term}
    (each : ∀ goal ∈ first :: others,
      (readGoal (readTerm bound)).Reads (write goal) goal FollowsGoal ∨
        (readGoal (readTerm bound)).Sticks (write goal) tokensAfterGoal)
    (one : ∃ goal ∈ first :: others,
      (readGoal (readTerm bound)).Sticks (write goal) tokensAfterGoal) (count : Nat) :
    (readGoals (readTerm bound) count).Sticks (separated write first others)
      tokensAfterGoals := by
  induction others generalizing first count with
  | nil =>
      obtain ⟨goal, member, sticks⟩ := one
      obtain rfl := List.mem_singleton.mp member
      simpa [separated] using readGoals_sticks_first sticks
  | cons second others induction =>
      obtain ⟨firstEither, othersEither⟩ := List.forall_mem_cons.mp each
      have split : separated write first (second :: others) =
          write first ++ [',', ' '] ++ separated write second others := by
        simp [separated]
      rw [split]
      by_cases sticks : (readGoal (readTerm bound)).Sticks (write first) tokensAfterGoal
      · rw [List.append_assoc]
        exact (readGoals_sticks_first sticks).append _
      · have reads := firstEither.resolve_right sticks
        obtain ⟨goal, member, goalSticks⟩ := one
        rcases List.mem_cons.mp member with rfl | inOthers
        · exact absurd goalSticks sticks
        · exact readGoals_sticks_cons reads
            (induction othersEither ⟨goal, inOthers, goalSticks⟩)

end

end Source

namespace Term

open Source

/-! ## Terms with a marked name in them -/

/-- Some variable of the term has a marked name. -/
def Marked (term : Term) : Prop :=
  ∃ name ∈ term.occurrences, IsMarkedName name

/-- Every variable of the term has a name that is written, or a marked one. -/
def Named (term : Term) : Prop :=
  ∀ name ∈ term.occurrences, IsVariableName name ∨ IsMarkedName name

theorem Named.arg {functor : String} {args : List Term} (named : (app functor args).Named)
    {arg : Term} (member : arg ∈ args) : arg.Named :=
  fun name occurs => named name (occurrences_arg_subset member occurs)

theorem Named.writable_or_marked {term : Term} (named : term.Named) :
    term.Writable ∨ term.Marked := by
  by_cases marked : term.Marked
  · exact .inr marked
  · refine .inl fun name occurs => (named name occurs).resolve_right ?_
    exact fun isMarked => marked ⟨name, occurs, isMarked⟩

theorem Named.recognizable {term : Term} (named : term.Named) : term.Recognizable := by
  intro name occurs
  rcases named name occurs with written | ⟨c, before, after, characters, start, _⟩
  · obtain ⟨c, rest, characters, start, _⟩ := written.identifier
    exact ⟨c, rest, characters, start⟩
  · exact ⟨c, _, characters, start⟩

theorem marked_app {functor : String} {args : List Term} :
    (app functor args).Marked ↔ ∃ arg ∈ args, arg.Marked := by
  simp only [Marked, occurrences_app, List.mem_flatMap]
  constructor
  · rintro ⟨name, ⟨arg, member, occurs⟩, marked⟩
    exact ⟨arg, member, name, occurs, marked⟩
  · rintro ⟨arg, member, name, occurs, marked⟩
    exact ⟨name, ⟨arg, member, occurs⟩, marked⟩

/-- In each way of writing the term its reader sticks. -/
structure Sticks (bound : Nat) (term : Term) : Prop where
  argument : (readTerm bound).Sticks term.writeArgument tokensAfterTerm
  goal : (readGoal (readTerm bound)).Sticks term.writeGoal tokensAfterGoal
  goals : ∀ count, (readGoals (readTerm bound) count).Sticks term.write tokensAfterGoals

section

variable {bound : Nat} {term : Term}

theorem Sticks.of_readTerm (plain : term.isOperation = false)
    (sticks : (readTerm bound).Sticks term.write tokensAfterTerm) : term.Sticks bound := by
  obtain ⟨asGoal, asArgument⟩ := writeGoal_eq_write plain
  have goal := readGoal_sticks sticks
  constructor
  · rwa [asArgument]
  · rwa [asGoal]
  · exact fun _ => readGoals_sticks_first goal

variable {left right : Term}

theorem Sticks.goals_both
    (either : left.Sticks bound ∨ left.ReadBack bound ∧ right.Sticks bound) (count : Nat) :
    (readGoals (readTerm bound) count).Sticks (Term.both left right).write
      tokensAfterGoals := by
  rw [write_both]
  rcases either with sticks | ⟨reads, sticks⟩
  · rw [List.append_assoc]
    exact (readGoals_sticks_first sticks.goal).append _
  · exact readGoals_sticks_cons reads.goal sticks.goals

theorem Sticks.goal_notUnifiable
    (either : left.Sticks bound ∨ left.ReadBack bound ∧ right.Sticks bound) :
    (readGoal (readTerm bound)).Sticks (Term.notUnifiable left right).write
      tokensAfterGoal := by
  rw [write_notUnifiable]
  rcases either with sticks | ⟨reads, sticks⟩
  · rw [List.append_assoc]
    exact (readGoal_sticks sticks.argument).append _
  · exact readGoal_sticks_right reads.argument sticks.argument

theorem Named.readBack (named : term.Named) (unmarked : ¬ term.Marked)
    (enough : term.size ≤ bound) : term.ReadBack bound :=
  (named.writable_or_marked.resolve_right unmarked).readBack enough

/-- What stands before the first marked name is read back, as in writable terms. -/
theorem Named.sticks_either {functor : String} (named : (app functor [left, right]).Named)
    (marked : (app functor [left, right]).Marked) (fits : left.size ≤ bound)
    (leftSticks : left.Named → left.Marked → left.Sticks bound)
    (rightSticks : right.Named → right.Marked → right.Sticks bound) :
    left.Sticks bound ∨ left.ReadBack bound ∧ right.Sticks bound := by
  have leftNamed : left.Named := named.arg (by simp)
  by_cases leftMarked : left.Marked
  · exact .inl (leftSticks leftNamed leftMarked)
  · have rightMarked : right.Marked := by simpa [leftMarked] using marked_app.mp marked
    exact .inr ⟨leftNamed.readBack leftMarked fits,
      rightSticks (named.arg (by simp)) rightMarked⟩

theorem Named.sticks_app {functor : String} {args : List Term}
    (named : (app functor args).Named) (marked : (app functor args).Marked)
    (plain : (app functor args).isOperation = false) (fits : sizeArgs args ≤ bound)
    (argSticks : ∀ arg ∈ args, arg.Marked → arg.Sticks bound) :
    (app functor args).Sticks (bound + 1) := by
  obtain ⟨arg, member, argMarked⟩ := marked_app.mp marked
  have sticks : ∀ arg ∈ args, arg.Marked →
      (readGoal (readTerm bound)).Sticks arg.writeArgument tokensAfterGoal :=
    fun arg member argMarked => readGoal_sticks (argSticks arg member argMarked).argument
  have either : ∀ arg ∈ args,
      (readGoal (readTerm bound)).Reads arg.writeArgument arg FollowsGoal ∨
        (readGoal (readTerm bound)).Sticks arg.writeArgument tokensAfterGoal := by
    intro arg member
    by_cases argMarked : arg.Marked
    · exact .inr (sticks arg member argMarked)
    · exact .inl (readGoal_reads
        ((named.arg member).readBack argMarked ((size_le_sizeArgs member).trans fits)).argument)
  apply Sticks.of_readTerm plain
  rw [write_app plain]
  cases args with
  | nil => cases member
  | cons first others =>
      rw [writeArgs_eq_separated]
      apply readTerm_sticks_app functor
      · exact readGoals_sticks_separated either
          ⟨arg, member, sticks arg member argMarked⟩ bound
      · have firstNamed : first.Named := named.arg List.mem_cons_self
        exact exists_parenthesize_append_eq_cons
          firstNamed.recognizable.exists_write_eq_cons _ _

/-- A term with a marked name in it is not read back, if the bound is not below its size. -/
theorem Named.sticks (named : term.Named) (marked : term.Marked) (enough : term.size ≤ bound) :
    term.Sticks bound := by
  induction term using writtenInduction generalizing bound with
  | atom name =>
      obtain ⟨_, occurs, _⟩ := marked
      cases occurs
  | var name =>
      obtain ⟨other, occurs, isMarked⟩ := marked
      obtain rfl : other = name := by simpa using occurs
      exact .of_readTerm rfl (readTerm_sticks_marked isMarked)
  | both left right leftInduction rightInduction =>
      obtain ⟨bound, rfl⟩ := exists_bound_eq_succ enough
      simp only [Term.both, size, sizeArgs] at enough
      have goals : ∀ {room}, bound ≤ room → ∀ count,
          (readGoals (readTerm room) count).Sticks (Term.both left right).write
            tokensAfterGoals := by
        intro room inside
        apply Sticks.goals_both
        apply named.sticks_either marked (by omega)
        · exact fun leftNamed leftMarked => leftInduction leftNamed leftMarked (by omega)
        · exact fun rightNamed rightMarked => rightInduction rightNamed rightMarked (by omega)
      have parenthesized : ∀ tokens, (readTerm (bound + 1)).Sticks
          (parenthesize true (Term.both left right).write) tokens :=
        readTerm_sticks_parenthesized (goals (Nat.le_refl bound) bound)
      exact ⟨parenthesized _, readGoal_sticks (parenthesized _), goals (Nat.le_succ bound)⟩
  | notUnifiable left right leftInduction rightInduction =>
      obtain ⟨bound, rfl⟩ := exists_bound_eq_succ enough
      simp only [Term.notUnifiable, size, sizeArgs] at enough
      have goal : ∀ {room}, bound ≤ room → (readGoal (readTerm room)).Sticks
          (Term.notUnifiable left right).write tokensAfterGoal := by
        intro room inside
        apply Sticks.goal_notUnifiable
        apply named.sticks_either marked (by omega)
        · exact fun leftNamed leftMarked => leftInduction leftNamed leftMarked (by omega)
        · exact fun rightNamed rightMarked => rightInduction rightNamed rightMarked (by omega)
      have parenthesized : (readTerm (bound + 1)).Sticks
          (parenthesize true (Term.notUnifiable left right).write) tokensAfterTerm :=
        readTerm_sticks_parenthesized (readGoals_sticks_first (goal (Nat.le_refl bound))) _
      have outside := goal (Nat.le_succ bound)
      exact ⟨parenthesized, outside, fun _ => readGoals_sticks_first outside⟩
  | app functor args plain induction =>
      obtain ⟨bound, rfl⟩ := exists_bound_eq_succ enough
      have fits : sizeArgs args ≤ bound := by simpa [size] using enough
      apply named.sticks_app marked plain fits
      intro arg member argMarked
      exact induction arg member (named.arg member) argMarked
        ((size_le_sizeArgs member).trans fits)

end

end Term

namespace Clause

open Source

section

variable {bound : Nat} {written : List Char}

/-- After a head that is not read to its end no clause goes on. -/
theorem readClause_head_sticks (sticks : (readTerm bound).Sticks written tokensAfterTerm)
    (rest : List Char) : ∃ place, readClause bound (written ++ rest) = .error place := by
  cases read : readTerm bound (written ++ rest) with
  | error place => exact ⟨place, by simp [readClause, read]⟩
  | ok result =>
      obtain ⟨head, after⟩ := result
      have stuck := sticks _ _ _ read
      have noArrow := stuck [':', '-'] (by decide)
      have noStop := stuck ['.'] (by decide)
      exact ⟨skipLayout after, by simp [readClause, readBody, read, noArrow, noStop]⟩

/-- A body that is not read to its end is followed by no full stop, and it cannot be left
out. -/
theorem readClause_body_sticks {head : Term}
    (reads : (readTerm bound).Reads written head FollowsTerm) {body : List Char}
    (sticks : (readGoals (readTerm bound) bound).Sticks body tokensAfterGoals)
    (rest : List Char) :
    ∃ place, readClause bound (written ++ ' ' :: ':' :: '-' :: ' ' :: (body ++ rest)) =
      .error place := by
  have headRead := reads (' ' :: ':' :: '-' :: ' ' :: (body ++ rest))
    (followsTerm_cons (by decide) (by decide) _)
  have arrow : token? [':', '-'] (' ' :: ':' :: '-' :: ' ' :: (body ++ rest)) =
      some (' ' :: (body ++ rest)) :=
    rfl
  cases read : readGoals (readTerm bound) bound (body ++ rest) with
  | error place =>
      have noStop : token? ['.'] (' ' :: ':' :: '-' :: ' ' :: (body ++ rest)) = none := rfl
      exact ⟨_, by simp [readClause, headRead, readBody, arrow, readGoals_blank, read, noStop]; rfl⟩
  | ok result =>
      obtain ⟨goals, after⟩ := result
      have noStop := sticks _ _ _ read ['.'] (by decide)
      exact ⟨skipLayout after,
        by simp [readClause, headRead, readBody, arrow, readGoals_blank, read, noStop]⟩

end

/-- The written goals of a body are not read to their end if one has a marked name in it. -/
theorem readGoals_marked {first : Term} {others : List Term}
    (named : ∀ goal ∈ first :: others, goal.Named)
    (marked : ∃ goal ∈ first :: others, goal.Marked) {bound : Nat}
    (enough : (separated Term.writeGoal first others).length ≤ bound) (count : Nat) :
    (readGoals (readTerm bound) count).Sticks (separated Term.writeGoal first others)
      tokensAfterGoals := by
  have sizes := sizeArgs_le_length_separated fun goal member => (named goal member).recognizable
  have small : ∀ goal ∈ first :: others, goal.size ≤ bound :=
    fun goal member => ((Term.size_le_sizeArgs member).trans sizes).trans enough
  apply readGoals_sticks_separated
  · intro goal member
    rcases (named goal member).writable_or_marked with writable | isMarked
    · exact .inl (writable.readBack (small goal member)).goal
    · exact .inr ((named goal member).sticks isMarked (small goal member)).goal
  · obtain ⟨goal, member, isMarked⟩ := marked
    exact ⟨goal, member, ((named goal member).sticks isMarked (small goal member)).goal⟩

/-- The text of a clause with a marked name in it is no clause. -/
theorem readClause_marked {clause : Clause}
    (named : ∀ term ∈ clause.head :: clause.body, term.Named)
    (marked : ∃ term ∈ clause.head :: clause.body, term.Marked)
    (noTest : ∀ left right, clause.head ≠ .notUnifiable left right) {bound : Nat}
    (enough : clause.write.length ≤ bound) :
    ∃ place, readClause bound clause.write = .error place := by
  obtain ⟨head, body⟩ := clause
  obtain ⟨headNamed, bodyNamed⟩ := List.forall_mem_cons.mp named
  have headSize : head.size ≤ head.write.length :=
    headNamed.recognizable.size_le_length_write
  have parenthesized := Term.length_le_parenthesize head.isConjunction head.write
  simp only [write, List.length_append, Term.writeGoal] at enough
  have headFits : head.size ≤ bound := by omega
  simp only [write, Term.writeGoal_eq_writeArgument noTest, List.append_assoc]
  by_cases headMarked : head.Marked
  · exact readClause_head_sticks (headNamed.sticks headMarked headFits).argument _
  · have reads := ((headNamed.writable_or_marked.resolve_right headMarked).readBack
      headFits).argument
    have bodyMarked : ∃ goal ∈ body, goal.Marked := by simpa [headMarked] using marked
    cases body with
    | nil => simp at bodyMarked
    | cons first others =>
        have bodyFits : (writeBody (first :: others)).length ≤ bound := by omega
        rw [writeBody_cons] at bodyFits ⊢
        simp only [List.length_append] at bodyFits
        have sticks := readGoals_marked bodyNamed bodyMarked
          (by omega : (separated Term.writeGoal first others).length ≤ bound) bound
        simpa using readClause_body_sticks reads sticks ['.']

end Clause

end HornLogic
