import HornLogic.Proofs.Source.Reading
import HornLogic.Proofs.Term.FreshNames
import HornLogic.Proofs.Term.Substitution

/-!
# Variable names of parsed texts

A variable of a parsed text has the name of an identifier that is no lone
underscore, or it was anonymous and has a number.  Only the latter names have
a mark in them.
-/

namespace HornLogic

open Source

/-- Terms that are parsed from some text. -/
def Term.Parsed (term : Term) : Prop :=
  ∃ text, Term.parseQuery text = .ok term ∨ Term.parse text = .ok term

/-- Clauses that are parsed from some text, alone or in a program. -/
def Clause.Parsed (clause : Clause) : Prop :=
  ∃ text, Clause.parse text = .ok clause ∨
    ∃ clauses, Clause.parseProgram text = .ok clauses ∧ clause ∈ clauses

/-- The names of variables in parsed texts. -/
inductive WrittenName : String → Prop where
  | identifier {name : String} :
      name ≠ "_" → (∀ c ∈ name.toList, isIdentifierRest c) → WrittenName name
  | anonymous (number : Nat) : WrittenName (freshName number "_")

theorem WrittenName.ne_underscore {name : String} (written : WrittenName name) :
    name ≠ "_" := by
  cases written with
  | identifier differs _ => exact differs
  | anonymous number =>
      intro same
      have member := mark_mem_freshName number "_"
      rw [same] at member
      revert member
      decide

/-- No name that was made fresh from a written name is written. -/
theorem WrittenName.not_freshName {name : String} (written : WrittenName name)
    (suffix : Nat) : ¬ WrittenName (freshName suffix name) := by
  intro fresh
  generalize made : freshName suffix name = other at fresh
  cases fresh with
  | identifier _ identifiers =>
      have allowed := identifiers '#' (made ▸ mark_mem_freshName suffix name)
      revert allowed
      decide
  | anonymous number => exact written.ne_underscore (freshName_inj.mp made).1

/-- The law that all variables have names of identifiers. -/
def IdentifierNames (term : Term) : Prop :=
  ∀ name ∈ term.occurrences, ∀ c ∈ name.toList, isIdentifierRest c

theorem readable_identifierNames : Readable IdentifierNames := by
  constructor
  · intro name other member
    cases member
  · intro name identifier other member
    obtain rfl : other = name := by simpa using member
    exact identifier
  · intro functor args argsLaw name member
    obtain ⟨arg, argMember, occurs⟩ : ∃ arg ∈ args, name ∈ arg.occurrences := by
      simpa using member
    exact argsLaw arg argMember name occurs

theorem Term.numberAnonymousArgs_obey {law : Term → Prop} {args : List Term}
    (each : ∀ arg ∈ args, ∀ used, law (arg.numberAnonymous used).1) (used : Nat) :
    ∀ arg ∈ (numberAnonymousArgs used args).1, law arg := by
  induction args generalizing used with
  | nil =>
      intro arg member
      cases member
  | cons first others induction =>
      obtain ⟨firstLaw, othersLaw⟩ := List.forall_mem_cons.mp each
      exact List.forall_mem_cons.mpr
        ⟨firstLaw used, induction othersLaw (first.numberAnonymous used).2⟩

section

variable {law : String → Prop} (anonymous : ∀ number, law (freshName number "_"))
include anonymous

/-- A law of names holds after the anonymous variables are numbered, if it holds of the
other variables and of numbered ones. -/
theorem Term.numberAnonymous_names {term : Term}
    (names : ∀ name ∈ term.occurrences, name ≠ "_" → law name) (used : Nat) :
    ∀ name ∈ (term.numberAnonymous used).1.occurrences, law name := by
  induction term generalizing used with
  | atom constant =>
      intro name member
      cases member
  | var other =>
      intro name member
      by_cases lone : other = "_"
      · obtain rfl : name = freshName (used + 1) other := by
          simpa [numberAnonymous, lone] using member
        rw [lone]
        exact anonymous (used + 1)
      · obtain rfl : name = other := by
          simpa [numberAnonymous, lone] using member
        exact names name (by simp) lone
  | app functor args induction =>
      intro name member
      obtain ⟨arg, argMember, occurs⟩ :
          ∃ arg ∈ (numberAnonymousArgs used args).1, name ∈ arg.occurrences := by
        simpa [numberAnonymous] using member
      have argsNames : ∀ arg ∈ (numberAnonymousArgs used args).1,
          ∀ name ∈ arg.occurrences, law name := by
        apply numberAnonymousArgs_obey
        intro arg argMember used
        apply induction arg argMember
        intro name occurs
        exact names name (by simpa using ⟨arg, argMember, occurs⟩)
      exact argsNames arg argMember name occurs

theorem Clause.nameAnonymous_names {clause : Clause}
    (names : ∀ term ∈ clause.head :: clause.body, ∀ name ∈ term.occurrences,
      name ≠ "_" → law name) :
    ∀ term ∈ clause.nameAnonymous.head :: clause.nameAnonymous.body,
      ∀ name ∈ term.occurrences, law name := by
  obtain ⟨headNames, bodyNames⟩ := List.forall_mem_cons.mp names
  refine List.forall_mem_cons.mpr ⟨Term.numberAnonymous_names anonymous headNames 0, ?_⟩
  apply Term.numberAnonymousArgs_obey
  intro goal member
  exact Term.numberAnonymous_names anonymous (bodyNames goal member)

end

theorem IdentifierNames.nameAnonymous_written {term : Term} (identifiers : IdentifierNames term) :
    ∀ name ∈ term.nameAnonymous.occurrences, WrittenName name :=
  Term.numberAnonymous_names .anonymous
    (fun name occurs differs => .identifier differs (identifiers name occurs)) 0

theorem Term.Parsed.names {term : Term} (parsed : term.Parsed) :
    ∀ name ∈ term.occurrences, WrittenName name := by
  obtain ⟨text, asQuery | asTerm⟩ := parsed
  · obtain ⟨read, names, rfl⟩ :=
      exists_of_map_parseAll (readQuery_obeys readable_identifierNames) asQuery
    exact names.nameAnonymous_written
  · have obeys : ∀ bound, (readGoal (readTerm bound)).Obeys IdentifierNames := by
      intro bound
      apply readGoal_obeys readable_identifierNames
      exact readTerm_obeys readable_identifierNames bound
    obtain ⟨read, names, rfl⟩ := exists_of_map_parseAll obeys asTerm
    exact names.nameAnonymous_written

theorem Clause.nameAnonymous_written {clause : Clause}
    (names : ∀ term ∈ clause.head :: clause.body, IdentifierNames term) :
    ∀ term ∈ clause.nameAnonymous.head :: clause.nameAnonymous.body,
      ∀ name ∈ term.occurrences, WrittenName name :=
  nameAnonymous_names .anonymous fun term member name occurs differs =>
    .identifier differs (names term member name occurs)

theorem Clause.Parsed.names {clause : Clause} (parsed : clause.Parsed) :
    ∀ term ∈ clause.head :: clause.body, ∀ name ∈ term.occurrences, WrittenName name := by
  obtain ⟨text, alone | ⟨clauses, inProgram, member⟩⟩ := parsed
  · obtain ⟨read, names, rfl⟩ :=
      exists_of_map_parseAll (readClause_obeys readable_identifierNames) alone
    exact nameAnonymous_written (List.forall_mem_cons.mpr names)
  · have obeys : ∀ bound,
        Reader.Obeys (fun text => .ok (readClauses bound bound text)) fun clauses =>
          ∀ clause ∈ clauses, IdentifierNames clause.head ∧
            ∀ goal ∈ clause.body, IdentifierNames goal := by
      intro bound text value rest success
      have names := readClauses_obey readable_identifierNames bound bound text
      rw [Except.ok.inj success] at names
      exact names
    obtain ⟨read, names, rfl⟩ := exists_of_map_parseAll obeys inProgram
    obtain ⟨original, originalMember, rfl⟩ := List.mem_map.mp member
    exact nameAnonymous_written (List.forall_mem_cons.mpr (names original originalMember))

end HornLogic
