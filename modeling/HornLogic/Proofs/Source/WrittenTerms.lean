import HornLogic.Proofs.Source.WrittenNames
import HornLogic.Proofs.Term.Substitution
import HornLogic.Source.Printer
import HornLogic.Source.Reader

/-!
# Written terms are read back

A term is written in three ways: as an argument, as a goal of a list, and bare.
The reader has a nonterminal for each of them, and the parentheses that the
printer puts are those that this nonterminal needs: each way of writing is read
back by its own reader, for terms in which every variable has the name of one.
A bound is enough for this if the term is no larger.
-/

namespace HornLogic

namespace Source

/-- The front of the text belongs neither to a name nor to the arguments of
one. -/
structure FollowsTerm (rest : List Char) : Prop where
  endsName : EndsName rest
  noArguments : ∀ c ∈ rest.head?, c ≠ '('

/-- The text may follow a term and does not make it one side of a test. -/
structure FollowsGoal (rest : List Char) : Prop extends FollowsTerm rest where
  noTest : token? ['\\', '='] rest = none

/-- The text may follow a goal, and no further goal follows. -/
structure FollowsGoals (rest : List Char) : Prop extends FollowsGoal rest where
  noComma : token? [','] rest = none

theorem followsTerm_cons {c : Char} (outside : isIdentifierRest c = false)
    (noParenthesis : c ≠ '(') (rest : List Char) : FollowsTerm (c :: rest) := by
  constructor
  · simpa [EndsName] using outside
  · simpa using noParenthesis

theorem followsGoal_comma (rest : List Char) : FollowsGoal (',' :: rest) :=
  ⟨followsTerm_cons (by decide) (by decide) rest, rfl⟩

theorem followsGoals_closing (rest : List Char) : FollowsGoals (')' :: rest) :=
  ⟨⟨followsTerm_cons (by decide) (by decide) rest, rfl⟩, rfl⟩

theorem followsGoals_stop (rest : List Char) : FollowsGoals ('.' :: rest) :=
  ⟨⟨followsTerm_cons (by decide) (by decide) rest, rfl⟩, rfl⟩

theorem followsGoals_nil : FollowsGoals [] :=
  ⟨⟨⟨by simp [EndsName], by simp⟩, rfl⟩, rfl⟩

/-- A value is read back from its written form, whatever text follows that may
follow it. -/
def Reader.Reads {α : Type} (read : Reader α) (written : List Char) (value : α)
    (follows : List Char → Prop) : Prop :=
  ∀ rest, follows rest → read (written ++ rest) = .ok (value, rest)

section

variable {bound count : Nat} {written more : List Char}

theorem readTerm_blank (bound : Nat) (text : List Char) :
    readTerm bound (' ' :: text) = readTerm bound text := by
  cases bound <;> rfl

theorem readGoal_blank (bound : Nat) (text : List Char) :
    readGoal (readTerm bound) (' ' :: text) = readGoal (readTerm bound) text := by
  simp [readGoal, readTerm_blank]

theorem readGoals_blank (bound count : Nat) (text : List Char) :
    readGoals (readTerm bound) count (' ' :: text) = readGoals (readTerm bound) count text := by
  simp [readGoals, readGoal_blank]

theorem readTerm_start {c : Char} (start : isTermStart c = true) (bound : Nat)
    (rest : List Char) :
    readTerm (bound + 1) (c :: rest) =
      readTermHere (readTerm bound) bound (c :: rest) := by
  rw [readTerm, skipLayout_termStart start]

theorem readTermHere_of_readName {c : Char} {others name rest : List Char}
    (start : isNameStart c = true) (read : readName (c :: others) = .ok (name, rest))
    (bound : Nat) :
    readTermHere (readTerm bound) bound (c :: others) =
      .ok (readApplication (readTerm bound) bound name rest) := by
  have noParenthesis : c ≠ '(' := by
    rintro rfl
    cases start
  simp [readTermHere, noParenthesis, not_isVariableStart_of_isNameStart start, read]

theorem readTermHere_identifier {first : Char} {others rest : List Char}
    (start : isVariableStart first = true) (identifier : others.all isIdentifierRest = true)
    (ends : EndsName rest) (bound : Nat) :
    readTermHere (readTerm bound) bound (first :: (others ++ rest)) =
      .ok (.var (String.ofList (first :: others)), rest) := by
  have all : (first :: others).all isIdentifierRest = true := by
    simp [isIdentifierRest_of_isVariableStart start, identifier]
  obtain ⟨taken, left⟩ := span_run all ends
  have noParenthesis : first ≠ '(' := by
    rintro rfl
    cases start
  rw [List.cons_append] at taken left
  simp [readTermHere, noParenthesis, start, taken, left]

/-- Without an opening parenthesis after it a name is an atom. -/
theorem readApplication_of_followsTerm {rest : List Char} (follows : FollowsTerm rest)
    (bound : Nat) (name : List Char) :
    readApplication (readTerm bound) bound name rest = (.atom (String.ofList name), rest) := by
  cases rest with
  | nil => rfl
  | cons c rest =>
      have noParenthesis : c ≠ '(' := follows.noArguments c (by simp)
      simp [readApplication, noParenthesis]

theorem readTerm_writeName (name : String) {rest : List Char} (ends : EndsName rest)
    (bound : Nat) :
    readTerm (bound + 1) (writeName name ++ rest) =
      .ok (readApplication (readTerm bound) bound name.toList rest) := by
  obtain ⟨c, others, form, start⟩ := exists_writeName_eq_cons name
  have read := readName_writeName name ends
  rw [form, List.cons_append] at read ⊢
  rw [readTerm_start (isTermStart_of_isNameStart start), readTermHere_of_readName start read]

theorem readTerm_reads_atom (name : String) :
    (readTerm (bound + 1)).Reads (writeName name) (.atom name) FollowsTerm := by
  intro rest follows
  rw [readTerm_writeName name follows.endsName, readApplication_of_followsTerm follows,
    String.ofList_toList]

/-- The names that variables have in texts: identifiers that begin with an
upper-case letter or an underscore, but not a lone underscore. -/
structure IsVariableName (name : String) : Prop where
  identifier : ∃ c rest, name.toList = c :: rest ∧ isVariableStart c = true ∧
    rest.all isIdentifierRest = true
  named : name ≠ "_"

theorem readTerm_reads_var {name : String} (written : IsVariableName name) :
    (readTerm (bound + 1)).Reads name.toList (.var name) FollowsTerm := by
  intro rest follows
  obtain ⟨c, others, characters, start, identifier⟩ := written.identifier
  have sameName : String.ofList (c :: others) = name := by
    rw [← characters, String.ofList_toList]
  rw [characters, List.cons_append, readTerm_start (isTermStart_of_isVariableStart start),
    readTermHere_identifier start identifier follows.endsName, sameName]

theorem readGoal_reads {goal : Term}
    (reads : (readTerm bound).Reads written goal FollowsTerm) :
    (readGoal (readTerm bound)).Reads written goal FollowsGoal := by
  intro rest follows
  simp [readGoal, reads rest follows.toFollowsTerm, follows.noTest]

theorem readGoal_reads_notUnifiable {left right : Term}
    (readsLeft : (readTerm bound).Reads written left FollowsTerm)
    (readsRight : (readTerm bound).Reads more right FollowsTerm) :
    (readGoal (readTerm bound)).Reads (written ++ [' ', '\\', '=', ' '] ++ more)
      (.notUnifiable left right) FollowsGoal := by
  intro rest follows
  have first := readsLeft (' ' :: '\\' :: '=' :: ' ' :: (more ++ rest))
    (followsTerm_cons (by decide) (by decide) _)
  have second := readsRight rest follows.toFollowsTerm
  have operator : token? ['\\', '='] (' ' :: '\\' :: '=' :: ' ' :: (more ++ rest)) =
      some (' ' :: (more ++ rest)) :=
    rfl
  simp [readGoal, first, operator, readTerm_blank, second]

theorem readFurtherGoals_of_followsGoals {rest : List Char} (follows : FollowsGoals rest)
    (bound count : Nat) : readFurtherGoals (readTerm bound) count rest = ([], rest) := by
  cases count with
  | zero => rfl
  | succ count => simp [readFurtherGoals, follows.noComma]

theorem readGoals_reads_single {goal : Term}
    (reads : (readGoal (readTerm bound)).Reads written goal FollowsGoal) :
    (readGoals (readTerm bound) count).Reads written (goal, []) FollowsGoals := by
  intro rest follows
  simp [readGoals, reads rest follows.toFollowsGoal,
    readFurtherGoals_of_followsGoals follows]

/-- A goal before a comma is read with the list after the comma, which is a list of its
own, one shorter. -/
theorem readGoals_comma {text afterFirst afterComma rest : List Char} {first second : Term}
    {others : List Term} (readFirst : readGoal (readTerm bound) text = .ok (first, afterFirst))
    (comma : token? [','] afterFirst = some afterComma)
    (readOthers : readGoals (readTerm bound) count afterComma = .ok ((second, others), rest)) :
    readGoals (readTerm bound) (count + 1) text = .ok ((first, second :: others), rest) := by
  cases found : readGoal (readTerm bound) afterComma with
  | error place => simp [readGoals, found] at readOthers
  | ok result =>
      obtain ⟨goal, left⟩ := result
      simp only [readGoals, found, Except.ok.injEq, Prod.mk.injEq] at readOthers
      obtain ⟨⟨rfl, further⟩, atEnd⟩ := readOthers
      simp [readGoals, readFirst, readFurtherGoals, comma, found, further, atEnd]

theorem readGoals_reads_cons {first second : Term} {others : List Term}
    (readsFirst : (readGoal (readTerm bound)).Reads written first FollowsGoal)
    (readsOthers : (readGoals (readTerm bound) count).Reads more (second, others)
      FollowsGoals) :
    (readGoals (readTerm bound) (count + 1)).Reads (written ++ [',', ' '] ++ more)
      (first, second :: others) FollowsGoals := by
  intro rest follows
  have readFirst := readsFirst (',' :: ' ' :: (more ++ rest)) (followsGoal_comma _)
  have comma : token? [','] (',' :: ' ' :: (more ++ rest)) = some (' ' :: (more ++ rest)) :=
    rfl
  have readOthers := (readGoals_blank bound count _).trans (readsOthers rest follows)
  simpa using readGoals_comma readFirst comma readOthers

def separated (write : Term → List Char) (first : Term) (others : List Term) : List Char :=
  write first ++ others.flatMap fun other => [',', ' '] ++ write other

theorem readGoals_reads_separated {write : Term → List Char} {first : Term}
    {others : List Term}
    (reads : ∀ goal ∈ first :: others,
      (readGoal (readTerm bound)).Reads (write goal) goal FollowsGoal)
    (enough : others.length ≤ count) :
    (readGoals (readTerm bound) count).Reads (separated write first others) (first, others)
      FollowsGoals := by
  induction others generalizing first count with
  | nil =>
      have single : (readGoals (readTerm bound) count).Reads (write first) (first, [])
          FollowsGoals :=
        readGoals_reads_single (reads first (by simp))
      simpa [separated] using single
  | cons second others induction =>
      obtain ⟨readsFirst, readsOthers⟩ := List.forall_mem_cons.mp reads
      obtain ⟨count, rfl⟩ : ∃ less, count = less + 1 :=
        Nat.exists_eq_succ_of_ne_zero (by simp at enough; omega)
      have further := induction readsOthers (by simpa using enough)
      simpa [separated] using readGoals_reads_cons readsFirst further

/-- Goals in parentheses are read as one term. -/
theorem readTerm_reads_parenthesized {first : Term} {others : List Term}
    (reads : (readGoals (readTerm bound) bound).Reads written (first, others)
      FollowsGoals) (follows : List Char → Prop) :
    (readTerm (bound + 1)).Reads ('(' :: written ++ [')']) (.joinGoals first others)
      follows := by
  intro rest _
  have inside := reads (')' :: rest) (followsGoals_closing rest)
  have closing : token? [')'] (')' :: rest) = some rest := rfl
  have whole : ('(' :: written ++ [')']) ++ rest = '(' :: (written ++ ')' :: rest) := by
    simp
  rw [whole, readTerm_start (by decide)]
  simp [readTermHere, readInParentheses, inside, closing]

theorem readTerm_reads_app {args : List Term} (functor : String)
    (reads : ∀ first others, args = first :: others →
      (readGoals (readTerm bound) bound).Reads written (first, others) FollowsGoals)
    (none : args = [] → written = []) (follows : List Char → Prop) :
    (readTerm (bound + 1)).Reads (writeName functor ++ '(' :: written ++ [')'])
      (.app functor args) follows := by
  intro rest _
  have closing : token? [')'] (')' :: rest) = some rest := rfl
  have arguments : readArguments (readTerm bound) bound (written ++ ')' :: rest) =
      some (args, rest) := by
    cases args with
    | nil =>
        have noGoal : readTerm bound (')' :: rest) = .error (')' :: rest) := by
          cases bound <;> rfl
        simp [none rfl, readArguments, readGoals, readGoal, noGoal, closing]
    | cons first others =>
        have inside := reads first others rfl (')' :: rest) (followsGoals_closing rest)
        simp [readArguments, inside, closing]
  have whole : (writeName functor ++ '(' :: written ++ [')']) ++ rest =
      writeName functor ++ '(' :: (written ++ ')' :: rest) := by
    simp
  rw [whole, readTerm_writeName functor (by simp [EndsName, isIdentifierRest])]
  simp [readApplication, arguments]

end

end Source

namespace Term

open Source

/-- The written form of an argument, and of a side of a test. -/
def writeArgument (term : Term) : List Char :=
  parenthesize term.isOperation term.write

/-- Induction over a term by the way it is written: the two operators between
their sides, every other application with its arguments in parentheses. -/
theorem writtenInduction {motive : Term → Prop} (term : Term)
    (atom : ∀ name, motive (.atom name))
    (var : ∀ name, motive (.var name))
    (both : ∀ left right, motive left → motive right → motive (.both left right))
    (notUnifiable : ∀ left right, motive left → motive right →
      motive (.notUnifiable left right))
    (app : ∀ functor args, (Term.app functor args).isOperation = false →
      (∀ arg ∈ args, motive arg) → motive (.app functor args)) :
    motive term := by
  induction term with
  | atom name => exact atom name
  | var name => exact var name
  | app functor args induction =>
      cases operation : (Term.app functor args).isOperation with
      | false => exact app functor args operation induction
      | true =>
          unfold isOperation at operation
          split at operation
          · rename_i left right same
            obtain ⟨rfl, rfl⟩ := Term.app.inj same
            have leftHolds := induction left (by simp)
            have rightHolds := induction right (by simp)
            rcases Bool.or_eq_true_iff.mp operation with conjunction | test
            · obtain rfl := beq_iff_eq.mp conjunction
              exact both left right leftHolds rightHolds
            · obtain rfl := beq_iff_eq.mp test
              exact notUnifiable left right leftHolds rightHolds
          · cases operation

theorem write_both (left right : Term) :
    (Term.both left right).write = left.writeGoal ++ [',', ' '] ++ right.write := by
  simp [both, write, writeGoal]

theorem write_notUnifiable (left right : Term) :
    (Term.notUnifiable left right).write =
      left.writeArgument ++ [' ', '\\', '=', ' '] ++ right.writeArgument := by
  simp [notUnifiable, write, writeArgument, notUnifiableName, conjunctionName]

theorem write_app {functor : String} {args : List Term}
    (plain : (Term.app functor args).isOperation = false) :
    (Term.app functor args).write = writeName functor ++ '(' :: writeArgs args ++ [')'] := by
  rcases args with _ | ⟨left, _ | ⟨right, _ | ⟨third, others⟩⟩⟩
  · simp [write]
  · simp [write]
  · obtain ⟨noConjunction, noTest⟩ : functor ≠ conjunctionName ∧ functor ≠ notUnifiableName := by
      simpa [isOperation] using plain
    simp [write, noConjunction, noTest]
  · simp [write]

theorem writeArgs_cons_cons (first second : Term) (others : List Term) :
    writeArgs (first :: second :: others) =
      first.writeArgument ++ [',', ' '] ++ writeArgs (second :: others) := by
  simp [writeArgs, writeArgument]

theorem writeArgs_eq_separated (first : Term) (others : List Term) :
    writeArgs (first :: others) = separated writeArgument first others := by
  induction others generalizing first with
  | nil => simp [writeArgs, separated, writeArgument]
  | cons second others induction =>
      rw [writeArgs_cons_cons, induction]
      simp [separated]

theorem isOperation_of_isConjunction {term : Term} (conjunction : term.isConjunction = true) :
    term.isOperation = true := by
  unfold isConjunction at conjunction
  split at conjunction
  · simp [isOperation, conjunction]
  · cases conjunction

/-- A term that is no operation is written in one way. -/
theorem writeGoal_eq_write {term : Term} (plain : term.isOperation = false) :
    term.writeGoal = term.write ∧ term.writeArgument = term.write := by
  have noConjunction : term.isConjunction = false := by
    cases conjunction : term.isConjunction with
    | false => rfl
    | true =>
        rw [isOperation_of_isConjunction conjunction] at plain
        cases plain
  simp [writeGoal, writeArgument, noConjunction, plain, parenthesize]

/-- A variable of the term is written as one. -/
def Writable (term : Term) : Prop :=
  ∀ name ∈ term.occurrences, IsVariableName name

theorem Writable.arg {functor : String} {args : List Term}
    (writable : (app functor args).Writable) {arg : Term} (member : arg ∈ args) :
    arg.Writable :=
  fun name occurs => writable name (occurrences_arg_subset member occurs)

/-- Every variable of the term begins as variables do, however its name goes on. -/
def Recognizable (term : Term) : Prop :=
  ∀ name ∈ term.occurrences, ∃ c rest, name.toList = c :: rest ∧ isVariableStart c = true

theorem Recognizable.arg {functor : String} {args : List Term}
    (recognizable : (app functor args).Recognizable) {arg : Term} (member : arg ∈ args) :
    arg.Recognizable :=
  fun name occurs => recognizable name (occurrences_arg_subset member occurs)

theorem Writable.recognizable {term : Term} (writable : term.Writable) :
    term.Recognizable := by
  intro name occurs
  obtain ⟨c, rest, characters, start, _⟩ := (writable name occurs).identifier
  exact ⟨c, rest, characters, start⟩

theorem length_le_parenthesize (asked : Bool) (written : List Char) :
    written.length ≤ (parenthesize asked written).length := by
  cases asked with
  | false => exact Nat.le_refl _
  | true =>
      simp only [parenthesize, if_true, List.length_append, List.length_cons]
      omega

theorem sizeArgs_le_length_writeArgs {args : List Term}
    (each : ∀ arg ∈ args, arg.size ≤ arg.write.length) :
    sizeArgs args ≤ (writeArgs args).length := by
  induction args with
  | nil => exact Nat.le_refl _
  | cons first others induction =>
      obtain ⟨firstFits, othersFit⟩ := List.forall_mem_cons.mp each
      have parenthesized := length_le_parenthesize first.isOperation first.write
      have further := induction othersFit
      cases others with
      | nil =>
          simp only [sizeArgs, writeArgs]
          omega
      | cons second others =>
          rw [writeArgs_cons_cons, sizeArgs]
          simp only [List.length_append, List.length_cons, List.length_nil, writeArgument]
          omega

/-- The size of a term is no more than the length of its written form. -/
theorem Recognizable.size_le_length_write {term : Term} (recognizable : term.Recognizable) :
    term.size ≤ term.write.length := by
  induction term using writtenInduction with
  | atom name =>
      obtain ⟨c, rest, form, _⟩ := exists_writeName_eq_cons name
      simp [size, write, form]
  | var name =>
      obtain ⟨c, rest, characters, _⟩ := recognizable name (by simp)
      simp [size, write, characters]
  | both left right leftInduction rightInduction =>
      have leftFits := leftInduction (recognizable.arg (by simp))
      have rightFits := rightInduction (recognizable.arg (by simp))
      have parenthesized := length_le_parenthesize left.isConjunction left.write
      rw [write_both]
      simp only [both, size, sizeArgs, writeGoal, List.length_append, List.length_cons,
        List.length_nil]
      omega
  | notUnifiable left right leftInduction rightInduction =>
      have leftFits := leftInduction (recognizable.arg (by simp))
      have rightFits := rightInduction (recognizable.arg (by simp))
      have leftParenthesized := length_le_parenthesize left.isOperation left.write
      have rightParenthesized := length_le_parenthesize right.isOperation right.write
      rw [write_notUnifiable]
      simp only [notUnifiable, size, sizeArgs, writeArgument, List.length_append,
        List.length_cons, List.length_nil]
      omega
  | app functor args plain induction =>
      have fits : sizeArgs args ≤ (writeArgs args).length :=
        sizeArgs_le_length_writeArgs fun arg member =>
          induction arg member (recognizable.arg member)
      rw [write_app plain]
      simp only [size, List.length_append, List.length_cons, List.length_nil]
      omega

theorem size_le_length_write {term : Term} (writable : term.Writable) :
    term.size ≤ term.write.length :=
  writable.recognizable.size_le_length_write

/-! ## Reading back -/

/-- Written bare, the term is read as a list of goals that it joins. -/
def ReadAsGoals (bound : Nat) (term : Term) : Prop :=
  ∃ first others, joinGoals first others = term ∧ others.length < term.size ∧
    ∀ count, others.length ≤ count →
      (readGoals (readTerm bound) count).Reads term.write (first, others) FollowsGoals

/-- Each way of writing the term is read back by the reader for it. -/
structure ReadBack (bound : Nat) (term : Term) : Prop where
  argument : (readTerm bound).Reads term.writeArgument term FollowsTerm
  goal : (readGoal (readTerm bound)).Reads term.writeGoal term FollowsGoal
  goals : term.ReadAsGoals bound

section

variable {bound : Nat} {term : Term}

theorem ReadAsGoals.of_readGoal
    (reads : (readGoal (readTerm bound)).Reads term.write term FollowsGoal) :
    term.ReadAsGoals bound :=
  ⟨term, [], rfl, term.size_pos, fun _ _ => readGoals_reads_single reads⟩

theorem ReadAsGoals.both {left right : Term} (leftBack : left.ReadBack bound)
    (rightBack : right.ReadBack bound) : (Term.both left right).ReadAsGoals bound := by
  obtain ⟨second, others, joined, fewer, reads⟩ := rightBack.goals
  refine ⟨left, second :: others, by rw [joinGoals, joined], ?_, ?_⟩
  · simp only [Term.both, size, sizeArgs, List.length_cons]
    omega
  · intro count enough
    obtain ⟨count, rfl⟩ : ∃ less, count = less + 1 :=
      Nat.exists_eq_succ_of_ne_zero (by simp at enough; omega)
    rw [write_both]
    exact readGoals_reads_cons leftBack.goal (reads count (by simpa using enough))

/-- In parentheses, what is read as goals is read as a term. -/
theorem ReadAsGoals.parenthesized (goals : term.ReadAsGoals bound)
    (enough : term.size ≤ bound + 1) (follows : List Char → Prop) :
    (readTerm (bound + 1)).Reads (parenthesize true term.write) term follows := by
  obtain ⟨first, others, joined, fewer, reads⟩ := goals
  have inside := readTerm_reads_parenthesized (reads bound (by omega)) follows
  rw [joined] at inside
  exact inside

theorem ReadBack.of_readTerm (plain : term.isOperation = false)
    (reads : (readTerm bound).Reads term.write term FollowsTerm) :
    term.ReadBack bound := by
  obtain ⟨asGoal, asArgument⟩ := writeGoal_eq_write plain
  constructor
  · rwa [asArgument]
  · rw [asGoal]
    exact readGoal_reads reads
  · exact .of_readGoal (readGoal_reads reads)

theorem length_le_sizeArgs (args : List Term) : args.length ≤ sizeArgs args := by
  induction args with
  | nil => exact Nat.le_refl _
  | cons first others induction =>
      have positive := first.size_pos
      simp only [sizeArgs, List.length_cons]
      omega

theorem exists_bound_eq_succ (enough : term.size ≤ bound) : ∃ less, bound = less + 1 := by
  have positive := term.size_pos
  exact Nat.exists_eq_succ_of_ne_zero (by omega)

/-- A writable term is read back, if the bound is not below its size. -/
theorem Writable.readBack (writable : term.Writable) (enough : term.size ≤ bound) :
    term.ReadBack bound := by
  -- A pair of parentheses takes one from the bound, and so does an application;
  -- the terms inside are smaller by at least one.
  induction term using writtenInduction generalizing bound with
  | atom name =>
      obtain ⟨bound, rfl⟩ := exists_bound_eq_succ enough
      exact .of_readTerm rfl (readTerm_reads_atom name)
  | var name =>
      obtain ⟨bound, rfl⟩ := exists_bound_eq_succ enough
      exact .of_readTerm rfl (readTerm_reads_var (writable name (by simp)))
  | both left right leftInduction rightInduction =>
      obtain ⟨bound, rfl⟩ := exists_bound_eq_succ enough
      have goals : ∀ {room}, bound ≤ room → (Term.both left right).ReadAsGoals room := by
        intro room inside
        simp only [Term.both, size, sizeArgs] at enough
        exact .both (leftInduction (writable.arg (by simp)) (by omega))
          (rightInduction (writable.arg (by simp)) (by omega))
      have parenthesized : ∀ follows, (readTerm (bound + 1)).Reads
          (parenthesize true (Term.both left right).write) (.both left right) follows :=
        (goals (Nat.le_refl bound)).parenthesized enough
      exact ⟨parenthesized _, readGoal_reads (parenthesized _), goals (Nat.le_succ bound)⟩
  | notUnifiable left right leftInduction rightInduction =>
      obtain ⟨bound, rfl⟩ := exists_bound_eq_succ enough
      have goal : ∀ {room}, bound ≤ room → (readGoal (readTerm room)).Reads
          (Term.notUnifiable left right).write (.notUnifiable left right) FollowsGoal := by
        intro room inside
        simp only [Term.notUnifiable, size, sizeArgs] at enough
        rw [write_notUnifiable]
        exact readGoal_reads_notUnifiable
          (leftInduction (writable.arg (by simp)) (by omega)).argument
          (rightInduction (writable.arg (by simp)) (by omega)).argument
      have inside := ReadAsGoals.of_readGoal (goal (Nat.le_refl bound))
      have outside := goal (Nat.le_succ bound)
      exact ⟨inside.parenthesized enough _, outside, .of_readGoal outside⟩
  | app functor args plain induction =>
      obtain ⟨bound, rfl⟩ := exists_bound_eq_succ enough
      have fits : sizeArgs args ≤ bound := by simpa [size] using enough
      apply ReadBack.of_readTerm plain
      rw [write_app plain]
      apply readTerm_reads_app
      · rintro first others rfl
        have counted := length_le_sizeArgs (first :: others)
        rw [writeArgs_eq_separated]
        apply readGoals_reads_separated
        · intro arg member
          have back := induction arg member (writable.arg member)
            ((size_le_sizeArgs member).trans fits)
          exact readGoal_reads back.argument
        · simp only [List.length_cons] at counted
          omega
      · rintro rfl
        rfl

end

end Term

end HornLogic
