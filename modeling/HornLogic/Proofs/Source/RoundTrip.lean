import HornLogic.Proofs.Source.WrittenTerms
import HornLogic.Source.Parser

/-!
# Texts are read back

What is written is what is read: the text of a term is a query for this term,
and the text of a clause is this clause.  The one exception is a clause whose
head is a test.  Its head is written without parentheses, as a goal of a list
is, but where a clause begins no goal is read, and so the text is no clause.
-/

namespace HornLogic

open Source

namespace Term

theorem numberAnonymousArgs_of_each {terms : List Term}
    (each : ∀ term ∈ terms, ∀ used, term.numberAnonymous used = (term, used))
    (used : Nat) : numberAnonymousArgs used terms = (terms, used) := by
  induction terms with
  | nil => rfl
  | cons first others induction =>
      obtain ⟨firstSame, othersSame⟩ := List.forall_mem_cons.mp each
      simp [numberAnonymousArgs, firstSame used, induction othersSame]

theorem Writable.numberAnonymous_eq {term : Term} (writable : term.Writable)
    (used : Nat) : term.numberAnonymous used = (term, used) := by
  induction term generalizing used with
  | atom name => rfl
  | var name =>
      have differs : name ≠ "_" := (writable name (by simp)).named
      simp [numberAnonymous, differs]
  | app functor args induction =>
      have same : numberAnonymousArgs used args = (args, used) := by
        apply numberAnonymousArgs_of_each
        intro arg member used
        exact induction arg member (writable.arg member) used
      simp [numberAnonymous, same]

theorem exists_parenthesize_append_eq_cons {written : List Char}
    (first : ∃ c rest, written = c :: rest ∧ isTermStart c = true) (asked : Bool)
    (more : List Char) :
    ∃ c rest, parenthesize asked written ++ more = c :: rest ∧ isTermStart c = true := by
  obtain ⟨c, rest, rfl, start⟩ := first
  cases asked with
  | false => exact ⟨c, rest ++ more, by simp [parenthesize], start⟩
  | true => exact ⟨'(', c :: rest ++ ')' :: more, by simp [parenthesize], by decide⟩

theorem Recognizable.exists_write_eq_cons {term : Term} (recognizable : term.Recognizable) :
    ∃ c rest, term.write = c :: rest ∧ isTermStart c = true := by
  induction term using writtenInduction with
  | atom name =>
      obtain ⟨c, rest, form, start⟩ := exists_writeName_eq_cons name
      exact ⟨c, rest, form, isTermStart_of_isNameStart start⟩
  | var name =>
      obtain ⟨c, rest, characters, start⟩ := recognizable name (by simp)
      exact ⟨c, rest, characters, isTermStart_of_isVariableStart start⟩
  | both left right leftInduction _ =>
      rw [write_both, List.append_assoc]
      exact exists_parenthesize_append_eq_cons (leftInduction (recognizable.arg (by simp))) _ _
  | notUnifiable left right leftInduction _ =>
      rw [write_notUnifiable, List.append_assoc]
      exact exists_parenthesize_append_eq_cons (leftInduction (recognizable.arg (by simp))) _ _
  | app functor args plain _ =>
      obtain ⟨c, rest, form, start⟩ := exists_writeName_eq_cons functor
      refine ⟨c, rest ++ '(' :: writeArgs args ++ [')'], ?_, isTermStart_of_isNameStart start⟩
      rw [write_app plain, form]
      simp

end Term

/-- A reader that reads a written value to its end parses the text of it. -/
theorem Source.parseAll_of_read {α : Type} {read : (bound : Nat) → Reader α}
    {written : List Char} {value : α}
    (reads : read (written.length + 1) written = .ok (value, [])) :
    parseAll read (String.ofList written) = .ok value := by
  simp [parseAll, String.toList_ofList, reads, skipLayout, dropLayout]

namespace Term

theorem Writable.readQuery_write {term : Term} (writable : term.Writable) {bound : Nat}
    (enough : term.size ≤ bound) : readQuery bound term.write = .ok (term, []) := by
  obtain ⟨c, rest, form, start⟩ := writable.recognizable.exists_write_eq_cons
  have noPrompt : token? ['?', '-'] term.write = none := by
    have differs : '?' ≠ c := (ne_of_isTermStart start (by decide)).symm
    simp [form, token?, skipLayout_termStart start, List.isPrefixOf?, differs]
  obtain ⟨first, others, joined, fewer, reads⟩ := (writable.readBack enough).goals
  have read := reads bound (by omega) [] followsGoals_nil
  rw [List.append_nil] at read
  have noStop : token? ['.'] [] = none := rfl
  simp [readQuery, noPrompt, read, joined, noStop]

theorem writeGoal_eq_write_of_not_both {term : Term}
    (noConjunction : ∀ left right, term ≠ .both left right) :
    term.writeGoal = term.write := by
  induction term using writtenInduction with
  | atom name => rfl
  | var name => rfl
  | both left right => exact absurd rfl (noConjunction left right)
  | notUnifiable left right => rfl
  | app functor args plain => exact (writeGoal_eq_write plain).1

/-- A goal that is no test is written like an argument. -/
theorem writeGoal_eq_writeArgument {term : Term}
    (noTest : ∀ left right, term ≠ .notUnifiable left right) :
    term.writeGoal = term.writeArgument := by
  induction term using writtenInduction with
  | atom name => rfl
  | var name => rfl
  | both left right => rfl
  | notUnifiable left right => exact absurd rfl (noTest left right)
  | app functor args plain =>
      obtain ⟨asGoal, asArgument⟩ := writeGoal_eq_write plain
      rw [asGoal, asArgument]

/-- The text of a term is read back as a query, and as a term if it is no
conjunction. -/
theorem text_readBack {term : Term} (writable : term.Writable) :
    Term.parseQuery term.text = .ok term ∧
      ((∀ left right, term ≠ .both left right) → Term.parse term.text = .ok term) := by
  have enough : term.size ≤ term.write.length + 1 :=
    (size_le_length_write writable).trans (Nat.le_succ _)
  have unchanged : term.nameAnonymous = term := by
    simp [nameAnonymous, writable.numberAnonymous_eq]
  constructor
  · rw [Term.parseQuery, text, parseAll_of_read (writable.readQuery_write enough)]
    simp [Except.map, unchanged]
  · intro noConjunction
    have read := (writable.readBack enough).goal [] followsGoals_nil.toFollowsGoal
    rw [writeGoal_eq_write_of_not_both noConjunction, List.append_nil] at read
    rw [Term.parse, text, parseAll_of_read read]
    simp [Except.map, unchanged]

/-- A test of a conjunction in which a quoted name spells an operator. -/
theorem test_of_conjunction_readBack :
    (Term.notUnifiable (.both (.var "X") (.app "f" []))
        (.app "\\=" [.atom "it's", .var "_1", .atom "\n"])).Writable ∧
      Term.parse "(X, f()) \\= '\\\\='('it\\'s', _1, '\n')" =
        .ok (.notUnifiable (.both (.var "X") (.app "f" []))
          (.app "\\=" [.atom "it's", .var "_1", .atom "\n"])) := by
  have writable : (Term.notUnifiable (.both (.var "X") (.app "f" []))
      (.app "\\=" [.atom "it's", .var "_1", .atom "\n"])).Writable := by
    intro name member
    rcases (by simpa [notUnifiable, both] using member : name = "X" ∨ name = "_1") with rfl | rfl
    · exact ⟨⟨'X', [], rfl, rfl, rfl⟩, by decide⟩
    · exact ⟨⟨'_', ['1'], rfl, rfl, rfl⟩, by decide⟩
  exact ⟨writable, (text_readBack writable).2 (by simp [notUnifiable, both, notUnifiableName,
    conjunctionName])⟩

end Term

namespace Clause

def Writable (clause : Clause) : Prop :=
  ∀ term ∈ clause.head :: clause.body, term.Writable

theorem writeBody_cons (first : Term) (others : List Term) :
    writeBody (first :: others) =
      [' ', ':', '-', ' '] ++ separated Term.writeGoal first others := by
  simp [writeBody, separated, writeFurtherGoals]

theorem sizeArgs_le_length_separated {first : Term} {others : List Term}
    (recognizable : ∀ goal ∈ first :: others, goal.Recognizable) :
    Term.sizeArgs (first :: others) ≤ (separated Term.writeGoal first others).length := by
  have fits : ∀ goal ∈ first :: others, goal.size ≤ goal.writeGoal.length := by
    intro goal member
    exact (recognizable goal member).size_le_length_write.trans
      (Term.length_le_parenthesize _ _)
  clear recognizable
  induction others generalizing first with
  | nil => simpa [Term.sizeArgs, separated] using fits
  | cons second others induction =>
      obtain ⟨firstFits, othersFit⟩ := List.forall_mem_cons.mp fits
      have further := induction othersFit
      simp only [separated, List.flatMap_cons, List.length_append, List.length_cons,
        List.length_nil] at further ⊢
      rw [Term.sizeArgs]
      omega

theorem readBody_writeBody {body : List Term} {bound : Nat}
    (writable : ∀ goal ∈ body, goal.Writable)
    (enough : (writeBody body).length ≤ bound) (rest : List Char) :
    readBody bound (writeBody body ++ '.' :: rest) = (body, '.' :: rest) := by
  cases body with
  | nil => rfl
  | cons first others =>
      have sizes := sizeArgs_le_length_separated fun goal member =>
        (writable goal member).recognizable
      have counted := Term.length_le_sizeArgs (first :: others)
      rw [writeBody_cons] at enough ⊢
      simp only [List.length_append, List.length_cons, List.length_nil] at enough counted
      have reads : (readGoals (readTerm bound) bound).Reads
          (separated Term.writeGoal first others) (first, others) FollowsGoals := by
        apply readGoals_reads_separated
        · intro goal member
          have small := Term.size_le_sizeArgs member
          exact ((writable goal member).readBack (by omega)).goal
        · omega
      have read := reads ('.' :: rest) (followsGoals_stop rest)
      have arrow : token? [':', '-']
          (' ' :: ':' :: '-' :: ' ' :: (separated Term.writeGoal first others ++ '.' :: rest)) =
            some (' ' :: (separated Term.writeGoal first others ++ '.' :: rest)) :=
        rfl
      simp [readBody, arrow, readGoals_blank, read]

theorem followsTerm_writeBody (body : List Term) (rest : List Char) :
    FollowsTerm (writeBody body ++ '.' :: rest) := by
  cases body with
  | nil => exact followsTerm_cons (by decide) (by decide) _
  | cons first others =>
      rw [writeBody_cons]
      exact followsTerm_cons (by decide) (by decide) _

theorem Writable.nameAnonymous_eq {clause : Clause} (writable : clause.Writable) :
    clause.nameAnonymous = clause := by
  obtain ⟨headWritable, bodyWritable⟩ := List.forall_mem_cons.mp writable
  have body : Term.numberAnonymousArgs 0 clause.body = (clause.body, 0) :=
    Term.numberAnonymousArgs_of_each
      (fun goal member => (bodyWritable goal member).numberAnonymous_eq) 0
  simp [nameAnonymous, headWritable.numberAnonymous_eq, body]

/-- A clause whose head is no test is read back, whatever text follows it. -/
theorem Writable.readClause_reads {clause : Clause} (writable : clause.Writable)
    (noTest : ∀ left right, clause.head ≠ .notUnifiable left right) {bound : Nat}
    (enough : clause.write.length ≤ bound) (rest : List Char) :
    readClause bound (clause.write ++ rest) = .ok (clause, rest) := by
  obtain ⟨headWritable, bodyWritable⟩ := List.forall_mem_cons.mp writable
  have headSize := Term.size_le_length_write headWritable
  have parenthesized := Term.length_le_parenthesize clause.head.isConjunction clause.head.write
  simp only [write, List.length_append, Term.writeGoal] at enough
  have head := (headWritable.readBack (by omega : clause.head.size ≤ bound)).argument
    (writeBody clause.body ++ '.' :: rest) (followsTerm_writeBody clause.body rest)
  have body := readBody_writeBody bodyWritable
    (by omega : (writeBody clause.body).length ≤ bound) rest
  have stop : token? ['.'] ('.' :: rest) = some rest := rfl
  have whole : clause.write ++ rest =
      clause.head.writeArgument ++ (writeBody clause.body ++ '.' :: rest) := by
    simp [write, Term.writeGoal_eq_writeArgument noTest]
  simp [whole, readClause, head, body, stop]

theorem Writable.readClause_write {clause : Clause} (writable : clause.Writable)
    (noTest : ∀ left right, clause.head ≠ .notUnifiable left right) {bound : Nat}
    (enough : clause.write.length ≤ bound) :
    readClause bound clause.write = .ok (clause, []) := by
  simpa using writable.readClause_reads noTest enough []

/-- After the left side of a test no clause goes on. -/
theorem readClause_test {left right : Term} {body : List Term} {bound : Nat}
    (writable : left.Writable)
    (enough : (write ⟨.notUnifiable left right, body⟩).length ≤ bound) :
    ∃ place, readClause bound (write ⟨.notUnifiable left right, body⟩) = .error place := by
  let operator : List Char :=
    ' ' :: '\\' :: '=' :: ' ' :: (right.writeArgument ++ (writeBody body ++ ['.']))
  have written : write ⟨.notUnifiable left right, body⟩ = left.writeArgument ++ operator := by
    have bare : (Term.notUnifiable left right).writeGoal = (Term.notUnifiable left right).write :=
      rfl
    simp [write, bare, Term.write_notUnifiable, operator]
  have leftSize := Term.size_le_length_write writable
  have parenthesized := Term.length_le_parenthesize left.isOperation left.write
  rw [written, List.length_append, Term.writeArgument] at enough
  have head := (writable.readBack (by omega : left.size ≤ bound)).argument operator
    (followsTerm_cons (by decide) (by decide) _)
  have noBody : readBody bound operator = ([], operator) := rfl
  have noStop : token? ['.'] operator = none := rfl
  rw [written]
  exact ⟨_, by simp [readClause, head, noBody, noStop]; rfl⟩

/-- The text of a clause is read back exactly if the head of the clause is no
test. -/
theorem text_readBack_iff {clause : Clause} (writable : clause.Writable) :
    Clause.parse clause.text = .ok clause ↔
      ∀ left right, clause.head ≠ .notUnifiable left right := by
  have enough : clause.write.length ≤ clause.write.length + 1 := Nat.le_succ _
  constructor
  · rintro parsed left right test
    obtain ⟨head, body⟩ := clause
    obtain rfl : head = .notUnifiable left right := test
    have leftWritable : left.Writable := (writable _ List.mem_cons_self).arg (by simp)
    obtain ⟨place, unread⟩ := readClause_test leftWritable enough
    rw [Clause.parse, parseAll, text, String.toList_ofList, unread] at parsed
    cases parsed
  · intro noTest
    rw [Clause.parse, text, parseAll_of_read (writable.readClause_write noTest enough)]
    simp [Except.map, writable.nameAnonymous_eq]

/-- A rule with a conjunction as its head, and with a variable, a conjunction and
a test as its goals. -/
theorem rule_for_conjunction_readBack :
    Clause.Writable ⟨.both (.atom "a") (.var "B"),
      [.var "B", .both (.atom "New York") (.atom "1"), .notUnifiable (.var "B") (.atom "a")]⟩ ∧
    Clause.parse "(a, B) :- B, ('New York', 1), B \\= a." =
      .ok ⟨.both (.atom "a") (.var "B"),
        [.var "B", .both (.atom "New York") (.atom "1"),
          .notUnifiable (.var "B") (.atom "a")]⟩ := by
  have writable : Clause.Writable ⟨.both (.atom "a") (.var "B"),
      [.var "B", .both (.atom "New York") (.atom "1"),
        .notUnifiable (.var "B") (.atom "a")]⟩ := by
    have identifier : IsVariableName "B" := ⟨⟨'B', [], rfl, rfl, rfl⟩, by decide⟩
    intro term member name occurs
    obtain rfl : name = "B" := by
      rcases (by simpa using member : _ ∨ _ ∨ _ ∨ _) with rfl | rfl | rfl | rfl
      · simpa [Term.both] using occurs
      · simpa using occurs
      · simp [Term.both] at occurs
      · simpa [Term.notUnifiable] using occurs
    exact identifier
  exact ⟨writable, (text_readBack_iff writable).mpr
    (by simp [Term.both, Term.notUnifiable, Term.notUnifiableName, Term.conjunctionName])⟩

/-- A clause about the test of `a` and `b` is written without parentheses around
its head and is not read back. -/
theorem test_head_not_readBack :
    Clause.Writable ⟨.notUnifiable (.atom "a") (.atom "b"), []⟩ ∧
      Clause.text ⟨.notUnifiable (.atom "a") (.atom "b"), []⟩ = "a \\= b." ∧
      Clause.parse "a \\= b." = .error (.unreadable .unexpectedCharacter "\\= b.") := by
  refine ⟨?_, by decide +kernel, by decide +kernel⟩
  intro term member name occurs
  obtain rfl : term = .notUnifiable (.atom "a") (.atom "b") := by simpa using member
  simp [Term.notUnifiable] at occurs

end Clause

end HornLogic
