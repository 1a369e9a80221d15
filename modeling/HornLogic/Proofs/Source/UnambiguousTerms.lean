import HornLogic.Proofs.Source.Relayout
import HornLogic.Proofs.Source.Reprinting

/-!
# Written terms are told apart

The variables of an answer may have numbers, and then its text is not read back.  It still
tells which term was written: the first character says what kind of term there is, a name
or a variable goes on as far as its characters do, and everything else is closed by a
parenthesis or followed by a comma, an operator or the end.
-/

namespace HornLogic

namespace Source

/-- The characters after the first one of a variable that is shown. -/
def isShownRest (c : Char) : Bool :=
  isIdentifierRest c || c == '#'

/-- The name of a variable that is shown: an identifier that any numbers may follow, each
after a mark. -/
def IsShownName (name : String) : Prop :=
  ∃ c rest, name.toList = c :: rest ∧ isVariableStart c = true ∧ rest.all isShownRest = true

theorem IsIdentifier.isShownName {name : String} (identifier : IsIdentifier name) :
    IsShownName name := by
  obtain ⟨c, rest, characters, start, inWord⟩ := identifier
  refine ⟨c, rest, characters, start, List.all_eq_true.mpr fun other member => ?_⟩
  rw [isShownRest, List.all_eq_true.mp inWord other member, Bool.true_or]

theorem IsShownName.freshName {name : String} (shown : IsShownName name) (suffix : Nat) :
    IsShownName (freshName suffix name) := by
  obtain ⟨c, rest, characters, start, inWord⟩ := shown
  refine ⟨c, rest ++ '#' :: Nat.toDigits 10 suffix, ?_, start, ?_⟩
  · rw [toList_freshName, characters, List.cons_append]
  · have digits : (Nat.toDigits 10 suffix).all isShownRest = true := by
      refine List.all_eq_true.mpr fun digit member => ?_
      have isDigit := Nat.isDigit_of_mem_toDigits (by decide) (by decide) member
      rw [isShownRest, isIdentifierRest_of_isDigit isDigit, Bool.true_or]
    rw [List.all_append, List.all_cons, inWord, digits]
    rfl

/-- The text may follow, and it does not go on with a number. -/
structure Closes (follows : List Char → Prop) (rest : List Char) : Prop where
  follows : follows rest
  noMark : ∀ c ∈ rest.head?, c ≠ '#'

theorem closes_cons {follows : List Char → Prop} {c : Char} {rest : List Char}
    (followsHere : follows (c :: rest)) (noMark : c ≠ '#') : Closes follows (c :: rest) :=
  ⟨followsHere, by simpa using noMark⟩

theorem Closes.mono {follows weaker : List Char → Prop} {rest : List Char}
    (closes : Closes follows rest) (weakens : follows rest → weaker rest) :
    Closes weaker rest :=
  ⟨weakens closes.follows, closes.noMark⟩

/-- Shown names go on as far as their characters do. -/
theorem IsShownName.unique {name other : String} {rest otherRest : List Char}
    (shown : IsShownName name) (otherShown : IsShownName other)
    (closes : Closes FollowsTerm rest) (otherCloses : Closes FollowsTerm otherRest)
    (same : name.toList ++ rest = other.toList ++ otherRest) :
    name = other ∧ rest = otherRest := by
  have all : ∀ {name}, IsShownName name → name.toList.all isShownRest = true := by
    rintro name ⟨c, others, characters, start, inWord⟩
    rw [characters, List.all_cons, inWord, isShownRest, isIdentifierRest_of_isVariableStart start]
    rfl
  have ends : ∀ {rest}, Closes FollowsTerm rest → ∀ c ∈ rest.head?, isShownRest c = false := by
    intro rest closes c member
    rw [isShownRest, closes.follows.endsName c member, Bool.false_or]
    exact beq_eq_false_iff_ne.mpr (closes.noMark c member)
  obtain ⟨taken, left⟩ := span_run (all shown) (ends closes)
  obtain ⟨otherTaken, otherLeft⟩ := span_run (all otherShown) (ends otherCloses)
  rw [same] at taken left
  exact ⟨String.toList_inj.mp (taken.symm.trans otherTaken), left.symm.trans otherLeft⟩

/-- A written name says where it ends. -/
theorem writeName_unique {name other : String} {rest otherRest : List Char}
    (ends : EndsName rest) (otherEnds : EndsName otherRest)
    (same : writeName name ++ rest = writeName other ++ otherRest) :
    name = other ∧ rest = otherRest := by
  have read := readName_writeName name ends
  rw [same, readName_writeName other otherEnds] at read
  obtain ⟨names, rests⟩ := Prod.mk.inj (Except.ok.inj read)
  exact ⟨(String.toList_inj.mp names).symm, rests.symm⟩

end Source

namespace Term

open Source

/-- All variables of the term have names that are shown. -/
def Shown (term : Term) : Prop :=
  ∀ name ∈ term.occurrences, IsShownName name

theorem Shown.arg {functor : String} {args : List Term} (shown : (app functor args).Shown)
    {arg : Term} (member : arg ∈ args) : arg.Shown :=
  fun name occurs => shown name (occurrences_arg_subset member occurs)

/-- The first character of an argument says how the argument is written. -/
def OpensWith (c : Char) : Term → Prop
  | .atom _ => isNameStart c = true
  | .var _ => isVariableStart c = true
  | .app functor args =>
      if (app functor args).isOperation then c = '(' else isNameStart c = true

section

variable {functor : String} {args : List Term} {c : Char}

theorem opensWith_operation (operation : (app functor args).isOperation = true) :
    (app functor args).OpensWith c ↔ c = '(' := by
  rw [OpensWith, if_pos operation]

theorem opensWith_app (plain : (app functor args).isOperation = false) :
    (app functor args).OpensWith c ↔ isNameStart c = true := by
  rw [OpensWith, if_neg (by rw [plain]; decide)]

end

theorem writeArgument_of_isOperation {term : Term} (operation : term.isOperation = true) :
    term.writeArgument = '(' :: (term.write ++ [')']) := by
  rw [writeArgument, operation]
  rfl

theorem writeArgument_app_append {functor : String} {args : List Term}
    (plain : (app functor args).isOperation = false) (rest : List Char) :
    (app functor args).writeArgument ++ rest =
      writeName functor ++ '(' :: (writeArgs args ++ ')' :: rest) := by
  rw [(writeGoal_eq_write plain).2, write_app plain]
  simp

theorem Shown.exists_opensWith {term : Term} (shown : term.Shown) :
    ∃ c rest, term.writeArgument = c :: rest ∧ term.OpensWith c := by
  cases term with
  | atom name => exact exists_writeName_eq_cons name
  | var name =>
      obtain ⟨c, rest, characters, start, _⟩ := shown name (by simp)
      exact ⟨c, rest, characters, start⟩
  | app functor args =>
      cases operation : (app functor args).isOperation with
      | true =>
          exact ⟨'(', _, writeArgument_of_isOperation operation,
            (opensWith_operation operation).mpr rfl⟩
      | false =>
          obtain ⟨c, rest, form, start⟩ := exists_writeName_eq_cons functor
          have written := writeArgument_app_append operation []
          rw [List.append_nil, form] at written
          exact ⟨c, _, written, (opensWith_app operation).mpr start⟩

theorem OpensWith.isTermStart {term : Term} {c : Char} (opens : term.OpensWith c) :
    isTermStart c = true := by
  cases term with
  | atom name => exact isTermStart_of_isNameStart opens
  | var name => exact isTermStart_of_isVariableStart opens
  | app functor args =>
      cases operation : (app functor args).isOperation with
      | true =>
          rw [(opensWith_operation operation).mp opens]
          decide
      | false => exact isTermStart_of_isNameStart ((opensWith_app operation).mp opens)

/-- Arguments that make up the same text open with the same character. -/
theorem Shown.open_alike {term other : Term} {rest otherRest : List Char} (shown : term.Shown)
    (otherShown : other.Shown)
    (same : term.writeArgument ++ rest = other.writeArgument ++ otherRest) :
    ∃ c, term.OpensWith c ∧ other.OpensWith c := by
  obtain ⟨c, others, form, opens⟩ := shown.exists_opensWith
  obtain ⟨otherFirst, otherOthers, otherForm, otherOpens⟩ := otherShown.exists_opensWith
  rw [form, otherForm] at same
  obtain ⟨rfl, _⟩ := List.cons.inj same
  exact ⟨c, opens, otherOpens⟩

theorem OpensWith.exists_var {term : Term} {c : Char} (opens : term.OpensWith c)
    (start : isVariableStart c = true) : ∃ name, term = .var name := by
  have noName : isNameStart c ≠ true := by
    intro nameStart
    rw [not_isVariableStart_of_isNameStart nameStart] at start
    cases start
  cases term with
  | atom name => exact absurd opens noName
  | var name => exact ⟨name, rfl⟩
  | app functor args =>
      cases operation : (app functor args).isOperation with
      | true =>
          rw [(opensWith_operation operation).mp opens] at start
          cases start
      | false => exact absurd ((opensWith_app operation).mp opens) noName

theorem OpensWith.exists_name {term : Term} {c : Char} (opens : term.OpensWith c)
    (start : isNameStart c = true) :
    ∃ name, term = .atom name ∨
      ∃ args, term = .app name args ∧ (app name args).isOperation = false := by
  cases term with
  | atom name => exact ⟨name, .inl rfl⟩
  | var name =>
      rw [OpensWith, not_isVariableStart_of_isNameStart start] at opens
      cases opens
  | app functor args =>
      cases operation : (app functor args).isOperation with
      | true =>
          rw [(opensWith_operation operation).mp opens] at start
          cases start
      | false => exact ⟨functor, .inr ⟨args, rfl, operation⟩⟩

theorem OpensWith.isOperation {term : Term} (opens : term.OpensWith '(') :
    term.isOperation = true := by
  cases term with
  | atom name => cases opens
  | var name => cases opens
  | app functor args =>
      cases operation : (app functor args).isOperation with
      | true => rfl
      | false => cases (opensWith_app operation).mp opens

/-! ## Telling terms apart -/

/-- No other term is written as the same text, whatever text follows that may follow it. -/
structure ToldApart (write : Term → List Char) (follows : List Char → Prop) (term : Term) :
    Prop where
  unique : ∀ {other : Term} {rest otherRest : List Char}, other.Shown → Closes follows rest →
    Closes follows otherRest → write term ++ rest = write other ++ otherRest →
    term = other ∧ rest = otherRest

/-- Each way of writing the term tells it apart from all others. -/
structure Unambiguous (term : Term) : Prop where
  argument : term.ToldApart writeArgument FollowsTerm
  goal : term.ToldApart writeGoal FollowsGoal
  bare : term.ToldApart write FollowsGoals

theorem toldApart_var {name : String} (shown : (var name).Shown) :
    (var name).ToldApart writeArgument FollowsTerm := by
  constructor
  intro other rest otherRest otherShown closes otherCloses same
  obtain ⟨c, opens, otherOpens⟩ := shown.open_alike otherShown same
  obtain ⟨otherName, rfl⟩ := otherOpens.exists_var opens
  obtain ⟨rfl, rests⟩ := (shown name (by simp)).unique (otherShown otherName (by simp)) closes
    otherCloses same
  exact ⟨rfl, rests⟩

theorem toldApart_atom (name : String) : (atom name).ToldApart writeArgument FollowsTerm := by
  constructor
  intro other rest otherRest otherShown closes otherCloses same
  have shown : (atom name).Shown := by simp [Shown]
  obtain ⟨c, opens, otherOpens⟩ := shown.open_alike otherShown same
  obtain ⟨otherName, rfl | ⟨args, rfl, plain⟩⟩ := otherOpens.exists_name opens
  · obtain ⟨rfl, rests⟩ := writeName_unique closes.follows.endsName
      otherCloses.follows.endsName same
    exact ⟨rfl, rests⟩
  · rw [writeArgument_app_append plain] at same
    obtain ⟨_, rests⟩ := writeName_unique closes.follows.endsName
      (endsName_mark (by decide) _) same
    exact absurd rfl (closes.follows.noArguments '(' (by rw [rests]; rfl))

theorem Shown.ne_closing {term : Term} (shown : term.Shown) (more rest : List Char) :
    term.writeArgument ++ more ≠ ')' :: rest := by
  obtain ⟨c, others, form, opens⟩ := shown.exists_opensWith
  rw [form]
  intro same
  obtain ⟨rfl, _⟩ := List.cons.inj same
  cases opens.isTermStart

def writeTail (args : List Term) : List Char :=
  args.flatMap fun arg => [',', ' '] ++ arg.writeArgument

theorem writeArgs_cons (first : Term) (others : List Term) :
    writeArgs (first :: others) = first.writeArgument ++ writeTail others :=
  writeArgs_eq_separated first others

theorem writeTail_cons (first : Term) (others : List Term) :
    writeTail (first :: others) = [',', ' '] ++ writeArgs (first :: others) := by
  rw [writeArgs_cons, writeTail, List.flatMap_cons, List.append_assoc]
  rfl

theorem closes_writeTail (args : List Term) (rest : List Char) :
    Closes FollowsTerm (writeTail args ++ ')' :: rest) := by
  cases args with
  | nil => exact closes_cons (followsGoals_closing rest).toFollowsTerm (by decide)
  | cons first others => exact closes_cons (followsGoal_comma _).toFollowsTerm (by decide)

theorem writeTail_unique {args others : List Term} {rest otherRest : List Char}
    (each : ∀ arg ∈ args, arg.ToldApart writeArgument FollowsTerm)
    (othersShown : ∀ other ∈ others, other.Shown)
    (same : writeTail args ++ ')' :: rest = writeTail others ++ ')' :: otherRest) :
    args = others ∧ rest = otherRest := by
  induction args generalizing others with
  | nil =>
      cases others with
      | nil => exact ⟨rfl, (List.cons.inj same).2⟩
      | cons other others => cases (List.cons.inj same).1
  | cons arg args induction =>
      cases others with
      | nil => cases (List.cons.inj same).1
      | cons other others =>
          obtain ⟨argApart, argsApart⟩ := List.forall_mem_cons.mp each
          obtain ⟨otherShown, moreShown⟩ := List.forall_mem_cons.mp othersShown
          have sameArgs : arg.writeArgument ++ (writeTail args ++ ')' :: rest) =
              other.writeArgument ++ (writeTail others ++ ')' :: otherRest) := by
            simpa [writeTail] using same
          obtain ⟨rfl, sameTails⟩ := argApart.unique otherShown (closes_writeTail args rest)
            (closes_writeTail others otherRest) sameArgs
          obtain ⟨rfl, rests⟩ := induction argsApart moreShown sameTails
          exact ⟨rfl, rests⟩

theorem writeArgs_unique {args others : List Term} {rest otherRest : List Char}
    (each : ∀ arg ∈ args, arg.ToldApart writeArgument FollowsTerm)
    (shown : ∀ arg ∈ args, arg.Shown) (othersShown : ∀ other ∈ others, other.Shown)
    (same : writeArgs args ++ ')' :: rest = writeArgs others ++ ')' :: otherRest) :
    args = others ∧ rest = otherRest := by
  cases args with
  | nil =>
      cases others with
      | nil => exact ⟨rfl, (List.cons.inj same).2⟩
      | cons other others =>
          rw [writeArgs_cons, List.append_assoc] at same
          exact absurd same.symm ((othersShown other (by simp)).ne_closing _ _)
  | cons arg args =>
      cases others with
      | nil =>
          rw [writeArgs_cons, List.append_assoc] at same
          exact absurd same ((shown arg (by simp)).ne_closing _ _)
      | cons other others =>
          apply writeTail_unique each othersShown
          rw [writeTail_cons, writeTail_cons, List.append_assoc, List.append_assoc, same]

theorem toldApart_app {functor : String} {args : List Term}
    (plain : (app functor args).isOperation = false)
    (each : ∀ arg ∈ args, arg.ToldApart writeArgument FollowsTerm)
    (shown : (app functor args).Shown) :
    (app functor args).ToldApart writeArgument FollowsTerm := by
  constructor
  intro other rest otherRest otherShown closes otherCloses same
  obtain ⟨c, opens, otherOpens⟩ := shown.open_alike otherShown same
  obtain ⟨otherName, rfl | ⟨others, rfl, otherPlain⟩⟩ :=
    otherOpens.exists_name ((opensWith_app plain).mp opens)
  · rw [writeArgument_app_append plain] at same
    obtain ⟨_, rests⟩ := writeName_unique (endsName_mark (by decide) _)
      otherCloses.follows.endsName same
    exact absurd rfl (otherCloses.follows.noArguments '(' (by rw [← rests]; rfl))
  · rw [writeArgument_app_append plain, writeArgument_app_append otherPlain] at same
    obtain ⟨rfl, rests⟩ := writeName_unique (endsName_mark (by decide) _)
      (endsName_mark (by decide) _) same
    obtain ⟨rfl, rfl⟩ := writeArgs_unique each (fun _ member => shown.arg member)
      (fun _ member => otherShown.arg member) (List.cons.inj rests).2
    exact ⟨rfl, rfl⟩

/-- In parentheses an operation is told apart if it is told apart bare. -/
theorem ToldApart.argument {term : Term} (apart : term.ToldApart write FollowsGoals)
    (operation : term.isOperation = true) (shown : term.Shown) :
    term.ToldApart writeArgument FollowsTerm := by
  constructor
  intro other rest otherRest otherShown closes otherCloses same
  obtain ⟨c, opens, otherOpens⟩ := shown.open_alike otherShown same
  obtain rfl : c = '(' := by
    cases term with
    | atom name => cases operation
    | var name => cases operation
    | app functor args => exact (opensWith_operation operation).mp opens
  rw [writeArgument_of_isOperation operation,
    writeArgument_of_isOperation otherOpens.isOperation] at same
  have inside : term.write ++ ')' :: rest = other.write ++ ')' :: otherRest := by
    simpa using same
  have closing : ∀ rest, Closes FollowsGoals (')' :: rest) := fun rest =>
    closes_cons (followsGoals_closing rest) (by decide)
  obtain ⟨rfl, rests⟩ := apart.unique otherShown (closing rest) (closing otherRest) inside
  exact ⟨rfl, (List.cons.inj rests).2⟩

theorem exists_notUnifiable_or (goal : Term) :
    (∃ left right, goal = .notUnifiable left right) ∨ goal.writeGoal = goal.writeArgument := by
  by_cases test : ∃ left right, goal = .notUnifiable left right
  · exact .inl test
  · push Not at test
    exact .inr (writeGoal_eq_writeArgument test)

theorem writeGoal_notUnifiable_append (left right : Term) (rest : List Char) :
    (notUnifiable left right).writeGoal ++ rest =
      left.writeArgument ++ ' ' :: '\\' :: '=' :: ' ' :: (right.writeArgument ++ rest) := by
  have bare : (notUnifiable left right).writeGoal = (notUnifiable left right).write := rfl
  rw [bare, write_notUnifiable]
  simp

theorem closes_operator (rest : List Char) :
    Closes FollowsTerm (' ' :: '\\' :: '=' :: rest) :=
  closes_cons (followsTerm_cons (by decide) (by decide) _) (by decide)

theorem not_followsGoal_operator (rest : List Char) :
    ¬ FollowsGoal (' ' :: '\\' :: '=' :: rest) := by
  intro follows
  cases follows.noTest

theorem ToldApart.goal {term : Term} (apart : term.ToldApart writeArgument FollowsTerm)
    (alike : term.writeGoal = term.writeArgument) : term.ToldApart writeGoal FollowsGoal := by
  constructor
  intro other rest otherRest otherShown closes otherCloses same
  rw [alike] at same
  rcases other.exists_notUnifiable_or with ⟨left, right, rfl⟩ | otherAlike
  · rw [writeGoal_notUnifiable_append] at same
    obtain ⟨_, rests⟩ := apart.unique (otherShown.arg List.mem_cons_self)
      (closes.mono FollowsGoal.toFollowsTerm) (closes_operator _) same
    exact absurd (rests ▸ closes.follows) (not_followsGoal_operator _)
  · rw [otherAlike] at same
    exact apart.unique otherShown (closes.mono FollowsGoal.toFollowsTerm)
      (otherCloses.mono FollowsGoal.toFollowsTerm) same

theorem toldApart_notUnifiable {left right : Term}
    (leftApart : left.ToldApart writeArgument FollowsTerm)
    (rightApart : right.ToldApart writeArgument FollowsTerm) :
    (notUnifiable left right).ToldApart writeGoal FollowsGoal := by
  constructor
  intro other rest otherRest otherShown closes otherCloses same
  rw [writeGoal_notUnifiable_append] at same
  rcases other.exists_notUnifiable_or with ⟨otherLeft, otherRight, rfl⟩ | otherAlike
  · rw [writeGoal_notUnifiable_append] at same
    obtain ⟨rfl, rests⟩ := leftApart.unique (otherShown.arg List.mem_cons_self)
      (closes_operator _) (closes_operator _) same
    have rightShown := otherShown.arg (List.mem_cons_of_mem _ List.mem_cons_self)
    obtain ⟨rfl, rfl⟩ := rightApart.unique rightShown (closes.mono FollowsGoal.toFollowsTerm)
      (otherCloses.mono FollowsGoal.toFollowsTerm) (by simpa using rests)
    exact ⟨rfl, rfl⟩
  · rw [otherAlike] at same
    obtain ⟨_, rests⟩ := leftApart.unique otherShown (closes_operator _)
      (otherCloses.mono FollowsGoal.toFollowsTerm) same
    exact absurd (rests ▸ otherCloses.follows) (not_followsGoal_operator _)

/-- A goal that is no conjunction needs no parentheses in a list of goals. -/
theorem exists_both_or (goal : Term) :
    (∃ left right, goal = .both left right) ∨ goal.writeGoal = goal.write := by
  by_cases conjunction : ∃ left right, goal = .both left right
  · exact .inl conjunction
  · push Not at conjunction
    exact .inr (writeGoal_eq_write_of_not_both conjunction)

theorem write_both_append (left right : Term) (rest : List Char) :
    (both left right).write ++ rest =
      left.writeGoal ++ ',' :: ' ' :: (right.write ++ rest) := by
  rw [write_both]
  simp

theorem closes_comma (rest : List Char) : Closes FollowsGoal (',' :: rest) :=
  closes_cons (followsGoal_comma rest) (by decide)

theorem not_followsGoals_comma (rest : List Char) : ¬ FollowsGoals (',' :: rest) := by
  intro follows
  cases follows.noComma

theorem ToldApart.bare {term : Term} (apart : term.ToldApart writeGoal FollowsGoal)
    (alike : term.writeGoal = term.write) : term.ToldApart write FollowsGoals := by
  constructor
  intro other rest otherRest otherShown closes otherCloses same
  rw [← alike] at same
  rcases other.exists_both_or with ⟨left, right, rfl⟩ | otherAlike
  · rw [write_both_append] at same
    obtain ⟨_, rests⟩ := apart.unique (otherShown.arg List.mem_cons_self)
      (closes.mono FollowsGoals.toFollowsGoal) (closes_comma _) same
    exact absurd (rests ▸ closes.follows) (not_followsGoals_comma _)
  · rw [← otherAlike] at same
    exact apart.unique otherShown (closes.mono FollowsGoals.toFollowsGoal)
      (otherCloses.mono FollowsGoals.toFollowsGoal) same

theorem toldApart_both {left right : Term} (leftApart : left.ToldApart writeGoal FollowsGoal)
    (rightApart : right.ToldApart write FollowsGoals) :
    (both left right).ToldApart write FollowsGoals := by
  constructor
  intro other rest otherRest otherShown closes otherCloses same
  rw [write_both_append] at same
  rcases other.exists_both_or with ⟨otherLeft, otherRight, rfl⟩ | otherAlike
  · rw [write_both_append] at same
    obtain ⟨rfl, rests⟩ := leftApart.unique (otherShown.arg List.mem_cons_self)
      (closes_comma _) (closes_comma _) same
    have rightShown := otherShown.arg (List.mem_cons_of_mem _ List.mem_cons_self)
    obtain ⟨rfl, rfl⟩ := rightApart.unique rightShown closes otherCloses (by simpa using rests)
    exact ⟨rfl, rfl⟩
  · rw [← otherAlike] at same
    obtain ⟨_, rests⟩ := leftApart.unique otherShown (closes_comma _)
      (otherCloses.mono FollowsGoals.toFollowsGoal) same
    exact absurd (rests ▸ otherCloses.follows) (not_followsGoals_comma _)

/-- A term that is no operation is written in one way. -/
theorem Unambiguous.of_argument {term : Term}
    (apart : term.ToldApart writeArgument FollowsTerm) (plain : term.isOperation = false) :
    term.Unambiguous := by
  obtain ⟨asGoal, asArgument⟩ := writeGoal_eq_write plain
  have goal := apart.goal (asGoal.trans asArgument.symm)
  exact ⟨apart, goal, goal.bare asGoal⟩

/-- Each way of writing a term tells it apart from all others. -/
theorem Shown.unambiguous {term : Term} (shown : term.Shown) : term.Unambiguous := by
  induction term using writtenInduction with
  | atom name => exact .of_argument (toldApart_atom name) rfl
  | var name => exact .of_argument (toldApart_var shown) rfl
  | both left right leftInduction rightInduction =>
      -- A conjunction stands in parentheses unless it is written bare.
      have bare := toldApart_both (leftInduction (shown.arg (by simp))).goal
        (rightInduction (shown.arg (by simp))).bare
      have argument := bare.argument rfl shown
      exact ⟨argument, argument.goal rfl, bare⟩
  | notUnifiable left right leftInduction rightInduction =>
      -- A test stands in parentheses only as an argument.
      have goal := toldApart_notUnifiable (leftInduction (shown.arg (by simp))).argument
        (rightInduction (shown.arg (by simp))).argument
      have bare := goal.bare rfl
      exact ⟨bare.argument rfl shown, goal, bare⟩
  | app functor args plain induction =>
      have each : ∀ arg ∈ args, arg.ToldApart writeArgument FollowsTerm := fun arg member =>
        (induction arg member (shown.arg member)).argument
      exact .of_argument (toldApart_app plain each shown) plain

end Term

end HornLogic
