import HornLogic.Proofs.Source.Acceptance
import HornLogic.Proofs.Source.RoundTrip
import HornLogic.Session.Transcript

/-!
# Listed clauses are read back

A listing shows each clause with the end of a line after it.  The full stop of a clause is
found where the printer put it, since names with full stops or line ends in them stand
between quotes.  The line end is layout before the next clause, or at the end of the text.
-/

namespace HornLogic

open Source

theorem Source.readClause_lineEnd (bound : Nat) (text : List Char) :
    readClause bound ('\n' :: text) = readClause bound text := by
  have head : readTerm bound ('\n' :: text) = readTerm bound text := by
    cases bound <;> rfl
  rw [readClause, head]
  rfl

namespace Clause

def writeLines (clauses : List Clause) : List Char :=
  clauses.flatMap fun clause => clause.write ++ ['\n']

theorem writeLines_cons (clause : Clause) (clauses : List Clause) :
    writeLines (clause :: clauses) = clause.write ++ '\n' :: writeLines clauses := by
  simp [writeLines]

theorem toList_shown_text (clauses : List Clause) :
    (Session.shown (clauses.map text)).toList = writeLines clauses := by
  simp [Session.shown, writeLines, text, List.flatMap_map]

theorem length_le_length_writeLines (clauses : List Clause) :
    clauses.length ≤ (writeLines clauses).length := by
  induction clauses with
  | nil => exact Nat.le_refl _
  | cons clause clauses induction =>
      simp only [writeLines_cons, List.length_append, List.length_cons]
      omega

theorem length_write_le_length_writeLines {clauses : List Clause} {clause : Clause}
    (member : clause ∈ clauses) : clause.write.length ≤ (writeLines clauses).length := by
  obtain ⟨before, after, rfl⟩ := List.append_of_mem member
  simp only [writeLines, List.flatMap_append, List.flatMap_cons, List.length_append]
  omega

section

variable {bound : Nat} {clauses : List Clause}
  (reads : ∀ clause ∈ clauses, ∀ rest,
    readClause bound (clause.write ++ rest) = .ok (clause, rest))
include reads

/-- After a line end all lines are read, up to the last line end. -/
theorem readClauses_lineEnd {count : Nat} (enough : clauses.length ≤ count) :
    readClauses bound count ('\n' :: writeLines clauses) = (clauses, ['\n']) := by
  induction clauses generalizing count with
  | nil =>
      have atEnd : AtEnd ['\n'] := rfl
      cases count with
      | zero => rfl
      | succ count => simp [readClauses, readClause, writeLines, atEnd.readTerm]
  | cons clause clauses induction =>
      obtain ⟨readsFirst, readsOthers⟩ := List.forall_mem_cons.mp reads
      obtain ⟨count, rfl⟩ : ∃ less, count = less + 1 :=
        Nat.exists_eq_succ_of_ne_zero (by simp at enough; omega)
      have further := induction readsOthers (by simpa using enough)
      simp [readClauses, readClause_lineEnd, writeLines_cons, readsFirst, further]

theorem exists_readClauses_writeLines {count : Nat} (enough : clauses.length ≤ count) :
    ∃ rest, readClauses bound count (writeLines clauses) = (clauses, rest) ∧ AtEnd rest := by
  cases clauses with
  | nil =>
      have atEnd : AtEnd [] := rfl
      refine ⟨[], ?_, atEnd⟩
      cases count with
      | zero => rfl
      | succ count => simp [readClauses, readClause, writeLines, atEnd.readTerm]
  | cons clause clauses =>
      obtain ⟨readsFirst, readsOthers⟩ := List.forall_mem_cons.mp reads
      obtain ⟨count, rfl⟩ : ∃ less, count = less + 1 :=
        Nat.exists_eq_succ_of_ne_zero (by simp at enough; omega)
      have further := readClauses_lineEnd readsOthers (by simpa using enough)
      exact ⟨['\n'], by simp [readClauses, writeLines_cons, readsFirst, further], rfl⟩

end

/-- A listing of clauses is read back as a program of the same clauses in the same order, if
their variables are written as such and no head is a test. -/
theorem parseProgram_shown_text {clauses : List Clause}
    (writable : ∀ clause ∈ clauses, clause.Writable)
    (noTest : ∀ clause ∈ clauses, ∀ left right, clause.head ≠ .notUnifiable left right) :
    parseProgram (Session.shown (clauses.map text)) = .ok clauses := by
  have reads : ∀ clause ∈ clauses, ∀ rest,
      readClause ((writeLines clauses).length + 1) (clause.write ++ rest) =
        .ok (clause, rest) := by
    intro clause member
    have short := length_write_le_length_writeLines member
    exact (writable clause member).readClause_reads (noTest clause member) (by omega)
  have enough : clauses.length ≤ (writeLines clauses).length + 1 :=
    (length_le_length_writeLines clauses).trans (Nat.le_succ _)
  obtain ⟨rest, read, atEnd⟩ := exists_readClauses_writeLines reads enough
  have unchanged : clauses.map nameAnonymous = clauses :=
    (List.map_congr_left fun clause member => (writable clause member).nameAnonymous_eq).trans
      (List.map_id clauses)
  have blank : skipLayout rest = [] := atEnd
  have parsed : parseAll (fun bound text => .ok (readClauses bound bound text))
      (Session.shown (clauses.map text)) = .ok clauses := by
    simp [parseAll, toList_shown_text, read, blank]
  rw [parseProgram, parsed]
  simp [Except.map, unchanged]

/-- Two listed clauses, with a quoted name that spells the end of a clause, a comment and the
beginning of a body. -/
theorem listed_clauses_readBack :
    ∃ clauses : List Clause,
      clauses =
        [⟨.app "p" [.atom "a. %\n:- b", .var "X"], [.both (.var "X") (.atom "it's"), .atom "q"]⟩,
          ⟨.both (.atom "r") (.var "_1"), []⟩] ∧
      (∀ clause ∈ clauses, clause.Writable) ∧
      (∀ clause ∈ clauses, ∀ left right, clause.head ≠ .notUnifiable left right) ∧
      Session.shown (clauses.map text) =
        "p('a. %\n:- b', X) :- (X, 'it\\'s'), q.\n(r, _1).\n" ∧
      parseProgram "p('a. %\n:- b', X) :- (X, 'it\\'s'), q.\n(r, _1).\n" = .ok clauses := by
  obtain ⟨clauses, same⟩ : ∃ clauses : List Clause, clauses =
      [⟨.app "p" [.atom "a. %\n:- b", .var "X"], [.both (.var "X") (.atom "it's"), .atom "q"]⟩,
        ⟨.both (.atom "r") (.var "_1"), []⟩] := ⟨_, rfl⟩
  have names : ∀ clause ∈ clauses, ∀ term ∈ clause.head :: clause.body,
      ∀ name ∈ term.occurrences, name = "X" ∨ name = "_1" := by
    rw [same]
    decide
  have writable : ∀ clause ∈ clauses, clause.Writable := by
    intro clause member term inClause name occurs
    rcases names clause member term inClause name occurs with rfl | rfl
    · exact ⟨⟨'X', [], rfl, rfl, rfl⟩, by decide⟩
    · exact ⟨⟨'_', ['1'], rfl, rfl, rfl⟩, by decide⟩
  have noTest : ∀ clause ∈ clauses, ∀ left right, clause.head ≠ .notUnifiable left right := by
    rw [same]
    simp [Term.both, Term.notUnifiable, Term.notUnifiableName, Term.conjunctionName]
  have shown : Session.shown (clauses.map text) =
      "p('a. %\n:- b', X) :- (X, 'it\\'s'), q.\n(r, _1).\n" := by
    rw [same]
    decide +kernel
  have parsed := parseProgram_shown_text writable noTest
  rw [shown] at parsed
  exact ⟨clauses, same, writable, noTest, shown, parsed⟩

end Clause

end HornLogic
