import HornLogic.Proofs.FirstOccurrences
import HornLogic.Proofs.Search.Calls
import HornLogic.Proofs.Search.Reporting
import HornLogic.Proofs.Search.Soundness
import HornLogic.Proofs.Source.AnonymousNames
import HornLogic.Proofs.Source.UnambiguousTerms

/-!
# The text of a solution

The same comma stands between the values of a solution and between the goals of a value.
What follows it decides: the name of a variable with `=` after it is no goal, since no goal
goes on in this way.  So the text of a solution tells its values.
-/

namespace HornLogic

open Source

/-- What may follow a value: the end, or a comma and the name and the value of another
variable. -/
inductive FollowsValue : List Char → Prop where
  | nil : FollowsValue []
  | entry {name : String} (shown : IsShownName name) (rest : List Char) :
      FollowsValue (',' :: ' ' :: (name.toList ++ ' ' :: '=' :: rest))

theorem FollowsValue.closes {rest : List Char} (follows : FollowsValue rest) :
    Closes FollowsGoal rest := by
  cases follows with
  | nil => exact ⟨followsGoals_nil.toFollowsGoal, by simp⟩
  | entry shown rest => exact Term.closes_comma _

theorem followsGoals_equals (rest : List Char) : FollowsGoals (' ' :: '=' :: rest) :=
  ⟨⟨followsTerm_cons (by decide) (by decide) _, rfl⟩, rfl⟩

namespace Term

/-- The name of a variable with `=` after it begins no value. -/
theorem Shown.ne_entry {value : Term} (shown : value.Shown) {name : String}
    (nameShown : IsShownName name) {rest : List Char} (follows : FollowsValue rest)
    (more : List Char) : name.toList ++ ' ' :: '=' :: more ≠ value.write ++ rest := by
  have varShown : (var name).Shown := by
    intro other occurs
    obtain rfl : other = name := by simpa using occurs
    exact nameShown
  have apart := varShown.unambiguous.goal
  have equals : Closes FollowsGoals (' ' :: '=' :: more) :=
    closes_cons (followsGoals_equals more) (by decide)
  intro same
  rcases value.exists_both_or with ⟨left, right, rfl⟩ | alike
  · rw [write_both_append] at same
    obtain ⟨_, rests⟩ := apart.unique (shown.arg List.mem_cons_self)
      (equals.mono FollowsGoals.toFollowsGoal) (closes_comma _) same
    cases (List.cons.inj rests).1
  · rw [← alike] at same
    obtain ⟨_, rests⟩ := apart.unique shown (equals.mono FollowsGoals.toFollowsGoal)
      follows.closes same
    cases follows with
    | nil => cases rests
    | entry otherShown others => cases (List.cons.inj rests).1

theorem Shown.not_followsValue {goal : Term} (shown : goal.Shown) {rest : List Char}
    (follows : FollowsValue rest) : ¬ FollowsValue (',' :: ' ' :: (goal.write ++ rest)) := by
  generalize written : ',' :: ' ' :: (goal.write ++ rest) = text
  intro further
  cases further with
  | nil => cases written
  | entry nameShown more =>
      exact shown.ne_entry nameShown follows more (List.cons.inj (List.cons.inj written).2).2.symm

section

variable {value other : Term} {rest otherRest : List Char}

theorem Shown.value_unique_of_single (shown : value.Shown) (otherShown : other.Shown)
    (follows : FollowsValue rest) (otherFollows : FollowsValue otherRest)
    (single : value.writeGoal = value.write)
    (same : value.write ++ rest = other.write ++ otherRest) :
    value = other ∧ rest = otherRest := by
  have apart := shown.unambiguous.goal
  rw [← single] at same
  rcases other.exists_both_or with ⟨left, right, rfl⟩ | otherSingle
  · rw [write_both_append] at same
    obtain ⟨_, rests⟩ := apart.unique (otherShown.arg List.mem_cons_self) follows.closes
      (closes_comma _) same
    have rightShown := otherShown.arg (List.mem_cons_of_mem _ List.mem_cons_self)
    exact absurd (rests ▸ follows) (rightShown.not_followsValue otherFollows)
  · rw [← otherSingle] at same
    exact apart.unique otherShown follows.closes otherFollows.closes same

/-- The values are the same if what is written for them and after them is the same. -/
theorem Shown.value_unique (shown : value.Shown) (otherShown : other.Shown)
    (follows : FollowsValue rest) (otherFollows : FollowsValue otherRest)
    (same : value.write ++ rest = other.write ++ otherRest) :
    value = other ∧ rest = otherRest := by
  -- All goals of a conjunction but the last one are followed by a goal.
  induction value using writtenInduction generalizing other with
  | atom name =>
      exact shown.value_unique_of_single otherShown follows otherFollows rfl same
  | var name =>
      exact shown.value_unique_of_single otherShown follows otherFollows rfl same
  | both left right leftInduction rightInduction =>
      rcases other.exists_both_or with ⟨otherLeft, otherRight, rfl⟩ | otherSingle
      · rw [write_both_append, write_both_append] at same
        obtain ⟨rfl, rests⟩ := (shown.arg List.mem_cons_self).unambiguous.goal.unique
          (otherShown.arg List.mem_cons_self) (closes_comma _) (closes_comma _) same
        have rightShown := otherShown.arg (List.mem_cons_of_mem _ List.mem_cons_self)
        obtain ⟨rfl, rfl⟩ := rightInduction (shown.arg (by simp)) rightShown
          (List.cons.inj (List.cons.inj rests).2).2
        exact ⟨rfl, rfl⟩
      · obtain ⟨rfl, rfl⟩ := otherShown.value_unique_of_single shown otherFollows follows
          otherSingle same.symm
        exact ⟨rfl, rfl⟩
  | notUnifiable left right =>
      exact shown.value_unique_of_single otherShown follows otherFollows rfl same
  | app functor args plain =>
      exact shown.value_unique_of_single otherShown follows otherFollows
        (writeGoal_eq_write plain).1 same

end

end Term

def EntriesShown (entries : List (String × Term)) : Prop :=
  ∀ entry ∈ entries, IsShownName entry.1 ∧ entry.2.Shown

def writeEntry (entry : String × Term) : List Char :=
  entry.1.toList ++ ' ' :: '=' :: ' ' :: entry.2.write

def writeFurtherEntries (entries : List (String × Term)) : List Char :=
  entries.flatMap fun entry => ',' :: ' ' :: writeEntry entry

section

variable {first otherFirst : String × Term} {entries others : List (String × Term)}

theorem writeEntry_append (entry : String × Term) (rest : List Char) :
    writeEntry entry ++ rest = entry.1.toList ++ ' ' :: '=' :: ' ' :: (entry.2.write ++ rest) := by
  simp [writeEntry]

theorem EntriesShown.followsValue (shown : EntriesShown entries) :
    FollowsValue (writeFurtherEntries entries) := by
  cases entries with
  | nil => exact .nil
  | cons entry entries =>
      rw [writeFurtherEntries, List.flatMap_cons, List.cons_append, List.cons_append,
        writeEntry_append]
      exact .entry (shown entry List.mem_cons_self).1 _

theorem EntriesShown.first_unique (shown : EntriesShown (first :: entries))
    (otherShown : EntriesShown (otherFirst :: others))
    (same : writeEntry first ++ writeFurtherEntries entries =
      writeEntry otherFirst ++ writeFurtherEntries others) :
    first = otherFirst ∧ writeFurtherEntries entries = writeFurtherEntries others := by
  obtain ⟨⟨nameShown, valueShown⟩, entriesShown⟩ := List.forall_mem_cons.mp shown
  obtain ⟨⟨otherNameShown, otherValueShown⟩, othersShown⟩ := List.forall_mem_cons.mp otherShown
  have closes : ∀ rest, Closes FollowsTerm (' ' :: '=' :: rest) := fun rest =>
    closes_cons (followsGoals_equals rest).toFollowsTerm (by decide)
  rw [writeEntry_append, writeEntry_append] at same
  obtain ⟨names, rests⟩ := nameShown.unique otherNameShown (closes _) (closes _) same
  obtain ⟨values, further⟩ := valueShown.value_unique otherValueShown
    (EntriesShown.followsValue entriesShown) (EntriesShown.followsValue othersShown)
    (by simpa using rests)
  exact ⟨Prod.ext names values, further⟩

theorem EntriesShown.unique (shown : EntriesShown entries) (otherShown : EntriesShown others)
    (same : writeFurtherEntries entries = writeFurtherEntries others) : entries = others := by
  induction entries generalizing others with
  | nil =>
      cases others with
      | nil => rfl
      | cons other others => cases same
  | cons entry entries induction =>
      cases others with
      | nil => cases same
      | cons other others =>
          obtain ⟨rfl, further⟩ := shown.first_unique otherShown
            (List.cons.inj (List.cons.inj same).2).2
          rw [induction (List.forall_mem_cons.mp shown).2 (List.forall_mem_cons.mp otherShown).2
            further]

end

namespace Solution

theorem toList_entryText (entry : String × Term) : (entryText entry).toList = writeEntry entry := by
  simp [entryText, writeEntry, Term.text]

theorem toList_intercalate_entries (first : String × Term) (others : List (String × Term)) :
    (String.intercalate ", " ((first :: others).map entryText)).toList =
      writeEntry first ++ writeFurtherEntries others := by
  rw [String.toList_intercalate, List.map_map]
  have lines : String.toList ∘ entryText = writeEntry := funext toList_entryText
  rw [lines]
  induction others generalizing first with
  | nil => simp [writeFurtherEntries]
  | cons second others induction =>
      rw [List.map_cons, List.map_cons, List.intercalate_cons_cons, ← List.map_cons, induction]
      simp [writeFurtherEntries]

/-- The solution is one, and its names and values are shown. -/
structure Shown (solution : Solution) : Prop where
  success : solution.success = true
  entries : EntriesShown solution.bindings.toList

theorem Shown.toList_text {solution : Solution} (shown : solution.Shown) :
    solution.bindings.toList = [] ∧ solution.text.toList = ['t', 'r', 'u', 'e'] ∨
      ∃ first others, solution.bindings.toList = first :: others ∧
        solution.text.toList = writeEntry first ++ writeFurtherEntries others := by
  rw [text, shown.success]
  cases entries : solution.bindings.toList with
  | nil =>
      have none : solution.bindings.isEmpty = true := by
        rw [Bindings.isEmpty, List.isEmpty_iff]
        exact List.reverse_eq_nil_iff.mp entries
      exact .inl ⟨rfl, by simp [none]⟩
  | cons first others =>
      have some : solution.bindings.isEmpty = false := by
        rw [Bindings.isEmpty, List.isEmpty_eq_false_iff]
        rintro none
        rw [Bindings.toList, none] at entries
        cases entries
      exact .inr ⟨first, others, rfl, by
        rw [← toList_intercalate_entries, some]
        rfl⟩

/-- Entries begin with a variable, and so not as the text of a solution without entries. -/
theorem writeEntry_ne_true {entry : String × Term} (shown : IsShownName entry.1)
    (rest : List Char) : writeEntry entry ++ rest ≠ ['t', 'r', 'u', 'e'] := by
  obtain ⟨c, others, characters, start, _⟩ := shown
  rw [writeEntry_append, characters]
  intro same
  obtain ⟨rfl, _⟩ := List.cons.inj same
  cases start

theorem Shown.bindings_unique {solution other : Solution} (shown : solution.Shown)
    (otherShown : other.Shown) (same : solution.text = other.text) :
    solution.bindings = other.bindings := by
  have lists : solution.bindings.toList = other.bindings.toList := by
    have texts := congrArg String.toList same
    rcases shown.toList_text with ⟨none, text⟩ | ⟨first, others, entries, text⟩
    · rcases otherShown.toList_text with ⟨otherNone, _⟩ | ⟨first, others, entries, otherText⟩
      · rw [none, otherNone]
      · have firstShown := (otherShown.entries first (by simp [entries])).1
        rw [text, otherText] at texts
        exact absurd texts.symm (writeEntry_ne_true firstShown _)
    · have entriesShown := shown.entries
      rw [entries] at entriesShown
      rw [text] at texts
      rcases otherShown.toList_text with
        ⟨_, otherText⟩ | ⟨otherFirst, more, otherEntries, otherText⟩
      · rw [otherText] at texts
        exact absurd texts (writeEntry_ne_true (entriesShown first List.mem_cons_self).1 _)
      · have otherEntriesShown := otherShown.entries
        rw [otherEntries] at otherEntriesShown
        rw [otherText] at texts
        obtain ⟨rfl, further⟩ := entriesShown.first_unique otherEntriesShown texts
        rw [entries, otherEntries, EntriesShown.unique (List.forall_mem_cons.mp entriesShown).2
          (List.forall_mem_cons.mp otherEntriesShown).2 further]
  exact Bindings.eq_of_entries_eq (List.reverse_inj.mp lists)

end Solution

theorem isShownName_anonymous (number : Nat) : IsShownName (freshName number "_") :=
  IsShownName.freshName ⟨'_', [], rfl, rfl, rfl⟩ number

theorem Term.shown_nameAnonymous {term : Term}
    (identifiers : ∀ name ∈ term.occurrences, IsIdentifier name) : term.nameAnonymous.Shown :=
  Term.numberAnonymous_names isShownName_anonymous
    (fun name occurs _ => (identifiers name occurs).isShownName) 0

theorem Term.Parsed.shown {term : Term} (parsed : term.Parsed) : term.Shown := by
  obtain ⟨text, asQuery | asTerm⟩ := parsed
  · obtain ⟨tree, after, derives, rfl⟩ :=
      ((Grammar.query_describes.decides Term.nameAnonymous text).accepts term).mp asQuery
    exact shown_nameAnonymous derives.fits.identifiers
  · obtain ⟨tree, after, derives, rfl⟩ :=
      ((Grammar.term_describes.decides Term.nameAnonymous text).accepts term).mp asTerm
    exact shown_nameAnonymous (Tree.Fits.identifiers derives.fits)

theorem Source.ClauseTree.shown {tree : ClauseTree}
    (identifiers : ∀ name ∈ tree.occurrences, IsIdentifier name) :
    ∀ term ∈ tree.value.nameAnonymous.head :: tree.value.nameAnonymous.body, term.Shown :=
  Clause.nameAnonymous_names isShownName_anonymous fun term member name occurs _ =>
    (identifiers name (List.mem_flatMap.mpr ⟨term, member, occurs⟩)).isShownName

theorem Clause.Parsed.shown {clause : Clause} (parsed : clause.Parsed) :
    ∀ term ∈ clause.head :: clause.body, term.Shown := by
  obtain ⟨text, alone | ⟨clauses, inProgram, member⟩⟩ := parsed
  · obtain ⟨tree, after, derives, rfl⟩ :=
      ((Grammar.clause_describes.decides Clause.nameAnonymous text).accepts clause).mp alone
    exact ClauseTree.shown derives.fits.occurrences_identifiers
  · obtain ⟨trees, after, derives, rfl⟩ := Grammar.parseProgram_eq_ok_iff.mp inProgram
    rw [List.map_map] at member
    obtain ⟨tree, treeMember, rfl⟩ := List.mem_map.mp member
    exact ClauseTree.shown fun name occurs =>
      derives.fits.identifiers name (List.mem_flatMap.mpr ⟨tree, treeMember, occurs⟩)

theorem shown_termLaw {prover : Prover} {clauses : List Clause}
    (parsed : ∀ clause ∈ clauses, clause.Parsed) :
    TermLaw prover clauses fun _ => Term.Shown where
  later shown := shown
  arg shown member := shown.arg member
  renamed fresh member inClause name occurs := by
    obtain ⟨original, originalMember, rfl⟩ := Term.mem_occurrences_rename.mp occurs
    exact ((parsed _ member).shown _ inClause original originalMember).freshName fresh

/-- The solution is yielded by a search for a parsed query over parsed clauses. -/
def Solution.FoundInTexts (solution : Solution) : Prop :=
  ∃ (kb : KnowledgeBase) (config : Config) (nextNumber : Nat → Nat) (query : Term)
    (search : Search) (fresh calls next : Nat),
      (∀ clause ∈ kb.clauses, clause.Parsed) ∧ query.Parsed ∧
        Search.start query = .ok search ∧
        (kb.prover config nextNumber).Gives fresh search calls (some (.ok solution)) next

theorem Solution.FoundInTexts.shown {solution : Solution} (found : solution.FoundInTexts) :
    solution.Shown := by
  obtain ⟨kb, config, nextNumber, query, search, fresh, calls, next, parsed, queryParsed,
    started, effort, after, answered⟩ := found
  rcases Pull.answer?_eq_some_iff.mp answered with ⟨item, given, yielded⟩ | ⟨given, _⟩
  · cases given
    obtain ⟨bindings, reached, rfl⟩ := Prover.branch_of_nthNext_solution yielded
    have law := @TermLaw.branchLaw (kb.prover config nextNumber) kb.clauses.toList _
      (shown_termLaw (by simpa using parsed))
    have branch := (law.reaches (fun _ _ => KnowledgeBase.mem_of_mem_clausesOf)
      (termBranch_start queryParsed.shown) started reached).present _ _ rfl
    obtain rfl := eq_of_start started
    have distinct : (Search.reportedVariables query).Nodup := (nodup_eraseDups _).filter _
    refine ⟨rfl, fun entry member => ?_⟩
    rw [Search.toList_solutionUnder distinct] at member
    obtain ⟨reports, value, _⟩ := Search.mem_reportedValues_iff.mp member
    have nameShown := queryParsed.shown entry.1 (Search.occurs_of_reported reports)
    refine ⟨nameShown, ?_⟩
    rw [value]
    exact branch.values.substitute (List.forall_mem_singleton.mpr nameShown)
  · cases given

/-- The text of a solution tells its values, and the order in which they are listed. -/
theorem Solution.text_determines_bindings {solution other : Solution}
    (found : solution.FoundInTexts) (otherFound : other.FoundInTexts)
    (same : solution.text = other.text) : solution.bindings = other.bindings :=
  found.shown.bindings_unique otherFound.shown same

/-- Two programs give the value `a, Y#0` to `X`, and both solutions have the same text. -/
theorem Solution.conjunction_value_told :
    ∃ first second : Solution, first.FoundInTexts ∧ second.FoundInTexts ∧
      first.text = "X = a, Y#0" ∧ second.text = "X = a, Y#0" ∧
      first.bindings = second.bindings ∧
      first.bindings.toList = [("X", .both (.atom "a") (.var "Y#0"))] := by
  have queryParsed : (Term.app "p" [.var "X"]).Parsed := ⟨"p(X)", .inl (by decide +kernel)⟩
  have factParsed : (Clause.mk (.app "p" [.both (.atom "a") (.var "Y")]) []).Parsed :=
    ⟨"p((a, Y)).", .inl (by decide +kernel)⟩
  have ruleParsed : (Clause.mk (.app "p" [.both (.atom "a") (.var "Y")]) [.atom "r"]).Parsed :=
    ⟨"p((a, Y)) :- r.", .inl (by decide +kernel)⟩
  have atomParsed : (Clause.mk (.atom "r") []).Parsed := ⟨"r.", .inl (by decide +kernel)⟩
  have found : Solution.FoundInTexts
      ⟨true, .ofList [("X", .both (.atom "a") (.var "Y#0"))]⟩ := by
    refine ⟨(KnowledgeBase.empty.addAll [⟨.app "p" [.both (.atom "a") (.var "Y")], []⟩]).1, {},
      wrappingNext, _, _, 0, 0, _, ?_, queryParsed, rfl, 20, _, rfl⟩
    simpa [KnowledgeBase.addAll, KnowledgeBase.add, KnowledgeBase.empty, Clause.signature?,
      Term.signature?] using factParsed
  have otherFound : Solution.FoundInTexts
      ⟨true, .ofList [("X", .both (.atom "a") (.var "Y#0"))]⟩ := by
    refine ⟨(KnowledgeBase.empty.addAll [⟨.app "p" [.both (.atom "a") (.var "Y")], [.atom "r"]⟩,
      ⟨.atom "r", []⟩]).1, {}, wrappingNext, _, _, 0, 0, _, ?_, queryParsed, rfl, 20, _, rfl⟩
    simpa [KnowledgeBase.addAll, KnowledgeBase.add, KnowledgeBase.empty, Clause.signature?,
      Term.signature?] using ⟨ruleParsed, atomParsed⟩
  have written : Solution.text ⟨true, .ofList [("X", .both (.atom "a") (.var "Y#0"))]⟩ =
      "X = a, Y#0" := by
    decide +kernel
  exact ⟨_, _, found, otherFound, written, written,
    text_determines_bindings found otherFound (written.trans written.symm), rfl⟩

end HornLogic
