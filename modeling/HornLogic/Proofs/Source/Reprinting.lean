import HornLogic.Proofs.Source.Acceptance
import HornLogic.Proofs.Source.StuckReading
import HornLogic.Proofs.Source.VariableNames

/-!
# Parsed clauses that are printed and parsed again

The variables of a parsed clause are identifiers, or they were anonymous and have a number.
The printer writes both as they are.  So a parsed clause is read back from its text, without
any renaming, exactly if none of its variables was anonymous.
-/

namespace HornLogic

theorem Term.occurrences_joinGoals (first : Term) (others : List Term) :
    (joinGoals first others).occurrences = (first :: others).flatMap occurrences := by
  induction others generalizing first with
  | nil => simp [joinGoals]
  | cons second others induction => simp [joinGoals, both, induction]

namespace Source

/-- The name of a variable as it is read, which may be a lone underscore. -/
def IsIdentifier (name : String) : Prop :=
  ∃ c rest, name.toList = c :: rest ∧ isVariableStart c = true ∧
    rest.all isIdentifierRest = true

@[simp]
def Nonterminal.variables : (kind : Nonterminal) → kind.Value → List String
  | .primary, term => Term.occurrences term
  | .arguments, args => (Option.getD args []).flatMap Term.occurrences
  | .goal, term => Term.occurrences term
  | .goals, (first, others) => (first :: others).flatMap Term.occurrences

theorem Tree.Fits.identifiers {kind : Nonterminal} {tree : Tree kind} {rest : List Char}
    (fits : tree.Fits rest) : ∀ name ∈ kind.variables tree.value, IsIdentifier name := by
  induction tree generalizing rest with
  | group before inside closing induction =>
      have inner := induction fits.2.1
      rwa [Nonterminal.variables, ← Term.occurrences_joinGoals] at inner
  | identifier before first others =>
      intro name occurs
      obtain rfl : name = String.ofList (first :: others) := by simpa using occurs
      obtain ⟨_, begins, run⟩ := fits
      exact ⟨first, others, String.toList_ofList, isVariableStart_iff.mpr begins,
        run.all isIdentifierRest_iff⟩
  | named before name args induction =>
      have inner := induction fits.2.2
      cases found : args.value with
      | none => simp [found]
      | some args => simpa [found] using inner
  | noArguments => simp
  | emptyArguments closing => simp
  | someArguments inside closing induction => exact induction fits.1
  | single primary induction => exact induction fits
  | test left operator right leftInduction rightInduction =>
      have inLeft := leftInduction fits.1
      have inRight := rightInduction fits.2.2
      simpa [Term.notUnifiable, or_imp, forall_and] using ⟨inLeft, inRight⟩
  | last goal induction => simpa using induction fits
  | more goal comma others goalInduction othersInduction =>
      have inGoal := goalInduction fits.1
      have inOthers := othersInduction fits.2.2
      exact List.forall_mem_append.mpr ⟨inGoal, inOthers⟩

theorem ClauseTree.Fits.identifiers {tree : ClauseTree} {rest : List Char}
    (fits : tree.Fits rest) :
    ∀ term ∈ tree.value.head :: tree.value.body, ∀ name ∈ term.occurrences,
      IsIdentifier name := by
  obtain ⟨head, body, stop⟩ := tree
  obtain ⟨headFits, bodyFits, _⟩ := fits
  refine List.forall_mem_cons.mpr ⟨headFits.identifiers, ?_⟩
  cases body with
  | none => exact fun term member => absurd member List.not_mem_nil
  | some both =>
      intro term member name occurs
      exact bodyFits.2.identifiers name (List.mem_flatMap.mpr ⟨term, member, occurs⟩)

end Source

namespace Clause

open Source

/-- A variable of a parsed clause is an identifier, or it was anonymous and has a number. -/
theorem names_of_parse {text : String} {clause : Clause}
    (parsed : Clause.parse text = .ok clause) :
    ∀ term ∈ clause.head :: clause.body, ∀ name ∈ term.occurrences,
      IsVariableName name ∨ ∃ number, name = freshName number "_" := by
  have obeys : ∀ bound, (readClause bound).Obeys fun clause =>
      ∀ term ∈ clause.head :: clause.body, ∀ name ∈ term.occurrences, IsIdentifier name := by
    intro bound text clause rest read
    obtain ⟨tree, _, fits, rfl⟩ := ClauseTree.exists_clause read
    exact fits.identifiers
  obtain ⟨read, identifiers, rfl⟩ := exists_of_map_parseAll obeys parsed
  apply nameAnonymous_names
  · exact fun number => .inr ⟨number, rfl⟩
  · exact fun term member name occurs named =>
      .inl ⟨identifiers term member name occurs, named⟩

theorem writable_of_unnumbered {clause : Clause}
    (names : ∀ term ∈ clause.head :: clause.body, ∀ name ∈ term.occurrences,
      IsVariableName name ∨ ∃ number, name = freshName number "_")
    (unnumbered : ∀ term ∈ clause.head :: clause.body, ∀ number,
      freshName number "_" ∉ term.occurrences) : clause.Writable := by
  intro term member name occurs
  refine (names term member name occurs).resolve_right ?_
  rintro ⟨number, rfl⟩
  exact unnumbered term member number occurs

section

variable {clause : Clause} (noTest : ∀ left right, clause.head ≠ .notUnifiable left right)
include noTest

theorem Writable.parse_text (writable : clause.Writable) :
    Clause.parse clause.text = .ok clause := by
  have read := writable.readClause_write noTest (Nat.le_succ clause.write.length)
  rw [Clause.parse, text, parseAll_of_read read]
  simp [Except.map, writable.nameAnonymous_eq]

theorem not_parse_text_of_marked (named : ∀ term ∈ clause.head :: clause.body, term.Named)
    (marked : ∃ term ∈ clause.head :: clause.body, term.Marked) (again : Clause) :
    Clause.parse clause.text ≠ .ok again := by
  intro parsed
  obtain ⟨place, unread⟩ :=
    readClause_marked named marked noTest (Nat.le_succ clause.write.length)
  rw [Clause.parse, parseAll, text, String.toList_ofList, unread] at parsed
  cases parsed

end

/-- The text of a parsed clause whose head is no test is read back exactly if none of its
variables was anonymous, and what is read then is the same clause. -/
theorem reparse_iff {text : String} {clause : Clause} (parsed : Clause.parse text = .ok clause)
    (noTest : ∀ left right, clause.head ≠ .notUnifiable left right) (again : Clause) :
    Clause.parse clause.text = .ok again ↔
      again = clause ∧ ∀ term ∈ clause.head :: clause.body, ∀ number,
        freshName number "_" ∉ term.occurrences := by
  have names := names_of_parse parsed
  constructor
  · intro success
    have unnumbered : ∀ term ∈ clause.head :: clause.body, ∀ number,
        freshName number "_" ∉ term.occurrences := by
      intro term member number occurs
      have named : ∀ term ∈ clause.head :: clause.body, term.Named := by
        intro term member name occurs
        rcases names term member name occurs with written | ⟨number, rfl⟩
        · exact .inl written
        · exact .inr (isMarkedName_freshName_underscore number)
      have marked : term.Marked := ⟨_, occurs, isMarkedName_freshName_underscore number⟩
      exact not_parse_text_of_marked noTest named ⟨term, member, marked⟩ again success
    have writable := writable_of_unnumbered names unnumbered
    exact ⟨(Except.ok.inj ((writable.parse_text noTest).symm.trans success)).symm, unnumbered⟩
  · rintro ⟨rfl, unnumbered⟩
    exact (writable_of_unnumbered names unnumbered).parse_text noTest

/-- The clause of a text with a comment and needless quotes is read back from the text that
the printer gives. -/
theorem rule_with_comment_reparsed :
    ∃ clause : Clause,
      Clause.parse "'p'( X,_y ):-X \\= 'q r',% both\n (a , 'p'(_y))." = .ok clause ∧
      (∀ left right, clause.head ≠ .notUnifiable left right) ∧
      clause.text = "p(X, _y) :- X \\= 'q r', (a, p(_y))." ∧
      Clause.parse "p(X, _y) :- X \\= 'q r', (a, p(_y))." = .ok clause := by
  obtain ⟨clause, same⟩ : ∃ clause : Clause, clause = ⟨.app "p" [.var "X", .var "_y"],
      [.notUnifiable (.var "X") (.atom "q r"), .both (.atom "a") (.app "p" [.var "_y"])]⟩ :=
    ⟨_, rfl⟩
  have parsed : Clause.parse "'p'( X,_y ):-X \\= 'q r',% both\n (a , 'p'(_y))." =
      .ok clause := by
    rw [same]
    decide +kernel
  have noTest : ∀ left right, clause.head ≠ .notUnifiable left right := by
    rw [same]
    simp [Term.notUnifiable, Term.notUnifiableName]
  have written : clause.text = "p(X, _y) :- X \\= 'q r', (a, p(_y))." := by
    rw [same]
    decide +kernel
  have names : ∀ term ∈ clause.head :: clause.body, ∀ name ∈ term.occurrences,
      '#' ∉ name.toList := by
    rw [same]
    decide
  have unnumbered : ∀ term ∈ clause.head :: clause.body, ∀ number,
      freshName number "_" ∉ term.occurrences :=
    fun term member number occurs => names term member _ occurs (mark_mem_freshName number "_")
  have again := (reparse_iff parsed noTest clause).mpr ⟨rfl, unnumbered⟩
  rw [written] at again
  exact ⟨clause, parsed, noTest, written, again⟩

/-- The anonymous variable of `p(_)` is printed with its number, and this is not read. -/
theorem anonymous_not_reparsed :
    Clause.parse "p(_)." = .ok ⟨.app "p" [.var "_#1"], []⟩ ∧
      Clause.text ⟨.app "p" [.var "_#1"], []⟩ = "p(_#1)." ∧
      Clause.parse "p(_#1)." = .error (.unreadable .unexpectedCharacter "(_#1).") := by
  refine ⟨by decide +kernel, by decide +kernel, by decide +kernel⟩

end Clause

end HornLogic
