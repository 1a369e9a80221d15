import HornLogic.Proofs.Search.Freshness
import HornLogic.Proofs.Search.Process
import HornLogic.Proofs.Search.Reporting
import HornLogic.Proofs.Search.Soundness
import HornLogic.Proofs.Term.RenamedApart

/-!
# Renamed clauses share no names with any search

Over parsed clauses, all searches of a process know only written names and names
that were made fresh with numbers used so far.  That stays so when queries are put
together from earlier solutions: a solution mentions only names that its search
knew.  A clause that is renamed with the next number therefore shares no variable
with any search of the process, at any moment of a call.
-/

namespace HornLogic

/-- All variables of the term have known names. -/
def Term.NamesKnown (fresh : Nat) (term : Term) : Prop :=
  ∀ name ∈ term.occurrences, KnownName fresh name

theorem Term.NamesKnown.mono {fresh later : Nat} {term : Term}
    (known : term.NamesKnown fresh) (enough : fresh ≤ later) : term.NamesKnown later :=
  fun name member => (known name member).mono enough

theorem namesKnown_termLaw {prover : Prover} (counts : prover.Counts) {clauses : List Clause}
    (parsed : ∀ clause ∈ clauses, clause.Parsed) :
    TermLaw prover clauses Term.NamesKnown where
  later {fresh} _ known := known.mono (counts fresh ▸ Nat.le_succ fresh)
  arg known member name occurs := known name (Term.occurrences_arg_subset member occurs)
  renamed fresh member inClause name occurs := by
    obtain ⟨original, originalMember, rfl⟩ := Term.mem_occurrences_rename.mp occurs
    have written := (parsed _ member).names _ inClause original originalMember
    exact .renamed written (counts fresh ▸ Nat.lt_succ_self fresh)

theorem namesKnown_branchLaw {prover : Prover} (counts : prover.Counts) {clauses : List Clause}
    (parsed : ∀ clause ∈ clauses, clause.Parsed) :
    BranchLaw prover clauses fun fresh => TermBranch (Term.NamesKnown fresh) :=
  (namesKnown_termLaw counts parsed).branchLaw

/-- The variables of goals, and the bound variables with the variables of their
values. -/
def branchNames (goals : List Goal) (bindings : Bindings) : List String :=
  (goals.flatMap fun goal => goal.term.occurrences) ++
    bindings.entries.flatMap fun entry => entry.1 :: entry.2.occurrences

def Choice.names (choice : Choice) : List String :=
  branchNames (⟨choice.goal, choice.depth⟩ :: choice.rest) choice.bindings

def Phase.names : Phase → List String
  | .proving goals bindings => branchNames goals bindings
  | .retrying => []
  | .finished => []

/-- The names in a cursor: those of its query, of the branch that it is proving and
of all its choices. -/
def Cursor.names (cursor : Cursor) : List String :=
  cursor.query.occurrences ++ cursor.search.reported ++ cursor.search.phase.names ++
    cursor.search.stack.flatMap Choice.names

theorem TermBranch.names {good : String → Prop} {goals : List Goal} {bindings : Bindings}
    (branch : TermBranch (fun term => ∀ name ∈ term.occurrences, good name) goals
      bindings) :
    ∀ name ∈ branchNames goals bindings, good name := by
  intro name member
  rcases List.mem_append.mp member with inGoals | inBindings
  · obtain ⟨goal, goalMember, occurs⟩ := List.mem_flatMap.mp inGoals
    exact branch.goals goal goalMember name occurs
  · obtain ⟨⟨bound, value⟩, entry, occurs⟩ := List.mem_flatMap.mp inBindings
    obtain ⟨boundGood, valueGood⟩ :=
      branch.values bound value (Bindings.get?_eq_some_iff.mpr entry)
    rcases List.mem_cons.mp occurs with rfl | inValue
    · exact boundGood name (by simp)
    · exact valueGood name inValue

/-- All names in a cursor are known. -/
structure Cursor.Knows (clauses : List Clause) (fresh : Nat) (cursor : Cursor) : Prop where
  query : cursor.query.NamesKnown fresh
  reported : ∀ name ∈ cursor.search.reported, KnownName fresh name
  search : cursor.search.Lawful clauses (TermBranch (Term.NamesKnown fresh))

namespace Cursor.Knows

variable {clauses : List Clause} {fresh later : Nat} {cursor : Cursor}

theorem names (knows : cursor.Knows clauses fresh) :
    ∀ name ∈ cursor.names, KnownName fresh name := by
  have inPhase : ∀ name ∈ cursor.search.phase.names, KnownName fresh name := by
    cases phase : cursor.search.phase with
    | proving goals bindings => exact (knows.search.present goals bindings phase).names
    | retrying => exact fun name member => absurd member List.not_mem_nil
    | finished => exact fun name member => absurd member List.not_mem_nil
  have inStack : ∀ name ∈ cursor.search.stack.flatMap Choice.names, KnownName fresh name := by
    intro name member
    obtain ⟨choice, choiceMember, occurs⟩ := List.mem_flatMap.mp member
    exact (knows.search.choices choice choiceMember).branch.names name occurs
  rw [Cursor.names]
  simp only [List.forall_mem_append]
  exact ⟨⟨⟨knows.query, knows.reported⟩, inPhase⟩, inStack⟩

theorem mono (knows : cursor.Knows clauses fresh) (enough : fresh ≤ later) :
    cursor.Knows clauses later where
  query := knows.query.mono enough
  reported name member := (knows.reported name member).mono enough
  search := knows.search.mono fun _ _ branch => branch.mono fun _ known => known.mono enough

/-- Steps of a search over parsed clauses bring up known names only. -/
theorem reaches {kb : KnowledgeBase}
    (parsed : ∀ clause ∈ kb.clauses.toList, clause.Parsed)
    (knows : cursor.Knows kb.clauses.toList fresh) {after : Search}
    (reached : (kb.prover cursor.config).Reaches fresh cursor.search later after) :
    Cursor.Knows kb.clauses.toList later { cursor with search := after } where
  query := knows.query.mono (reached.fresh_le (Prover.counts_of_knowledgeBase _ _))
  reported := by
    rw [reached.reported_eq]
    exact fun name member => (knows.reported name member).mono
      (reached.fresh_le (Prover.counts_of_knowledgeBase _ _))
  search := (namesKnown_branchLaw (Prover.counts_of_knowledgeBase _ _) parsed).reaches_of_lawful
    (fun _ _ => KnowledgeBase.mem_of_mem_clausesOf) knows.search reached

theorem solution {kb : KnowledgeBase}
    (parsed : ∀ clause ∈ kb.clauses.toList, clause.Parsed)
    (knows : cursor.Knows kb.clauses.toList fresh) {effort : Nat} {solution : Solution}
    {after : Search}
    (answered : (kb.prover cursor.config).next effort fresh cursor.search =
      .item (.ok solution) later after) :
    ∀ asked value, solution.get? asked = some value → value.NamesKnown later := by
  obtain ⟨bindings, reached, rfl⟩ := Prover.branch_of_next_solution answered
  have branch := (knows.reaches parsed reached).search.present _ _ rfl
  intro asked value found
  rw [Solution.get?, ← Solution.get?, Search.get?_solutionUnder] at found
  split at found
  · next reports =>
      cases found
      apply branch.values.substitute
      have known := (knows.reported asked reports.1).mono
        (reached.fresh_le (Prover.counts_of_knowledgeBase _ _))
      exact List.forall_mem_singleton.mpr known
  · cases found

end Cursor.Knows

theorem Search.start_knows {clauses : List Clause} {fresh : Nat} {query : Term}
    (known : query.NamesKnown fresh) {search : Search} (config : Config)
    (started : Search.start query = .ok search) :
    Cursor.Knows clauses fresh ⟨query, config, search⟩ := by
  obtain rfl := eq_of_start started
  refine ⟨known, ?_, lawful_proving (termBranch_start known) (by simp)⟩
  intro name member
  exact known name (occurs_of_reported member)

/-- The query is parsed, or it is parsed with some variables replaced by values that
solutions give, or by other terms with the variables of such a value. -/
def Term.ComposedFrom (solutions : List Solution) (query : Term) : Prop :=
  ∃ (written : Term) (assign : String → Term), written.Parsed ∧ query = written.subst assign ∧
    ∀ name ∈ written.occurrences, assign name = Term.var name ∨
      ∃ solution ∈ solutions, ∃ asked value,
        solution.get? asked = some value ∧
          (assign name).occurrences ⊆ value.occurrences

/-- Every query is put together from solutions that were given before it was
asked. -/
def QueriesComposed (events : List Event) : Prop :=
  ∀ before query config after, events = before ++ .opened query config :: after →
    query.ComposedFrom (solutionsOf before)

theorem QueriesComposed.of_append {events later : List Event}
    (composed : QueriesComposed (events ++ later)) : QueriesComposed events := by
  intro before query config after same
  apply composed before query config (after ++ later)
  rw [same, List.append_assoc, List.cons_append]

namespace Process

/-- All cursors of a process and all solutions that they gave know only names that
were made with numbers used so far. -/
structure KnowsNames (clauses : List Clause) (events : List Event) (process : Process) :
    Prop where
  cursors : ∀ cursor, some cursor ∈ process.cursors → cursor.Knows clauses process.fresh
  solutions : ∀ solution ∈ solutionsOf events, ∀ asked value,
    solution.get? asked = some value → value.NamesKnown process.fresh

theorem KnowsNames.query {clauses : List Clause} {events : List Event}
    {process : Process} (knows : process.KnowsNames clauses events) {query : Term}
    (composed : query.ComposedFrom (solutionsOf events)) :
    query.NamesKnown process.fresh := by
  obtain ⟨written, assign, parsed, rfl, replaced⟩ := composed
  intro name member
  obtain ⟨original, originalMember, occurs⟩ := Term.mem_occurrences_subst.mp member
  rcases replaced original originalMember with
    kept | ⟨solution, given, asked, value, found, within⟩
  · obtain rfl : name = original := by simpa [kept] using occurs
    exact .written (parsed.names name originalMember)
  · exact knows.solutions solution given asked value found name (within occurs)

variable {kb : KnowledgeBase} (parsed : ∀ clause ∈ kb.clauses.toList, clause.Parsed)
include parsed

/-- Also while a call is going on, all cursors know only such names. -/
theorem KnowsNames.during {events : List Event} {process during : Process} {key : Nat}
    (knows : process.KnowsNames kb.clauses.toList events)
    (call : process.During kb key during) :
    ∀ cursor, some cursor ∈ during.cursors →
      cursor.Knows kb.clauses.toList during.fresh := by
  obtain ⟨present, reached⟩ := call
  intro other member
  rcases List.mem_or_eq_of_mem_set member with old | new
  · exact (knows.cursors other old).mono
      (reached.fresh_le (Prover.counts_of_knowledgeBase _ _))
  · cases new
    exact (knows.cursors _ (List.mem_of_getElem? present)).reaches parsed reached

theorem Does.knowsNames {events : List Event} {process after : Process} {event : Event}
    (does : process.Does kb event after)
    (knows : process.KnowsNames kb.clauses.toList events)
    (composed : ∀ query config, event = .opened query config →
      query.ComposedFrom (solutionsOf events)) :
    after.KnowsNames kb.clauses.toList (events ++ [event]) := by
  have solutions : ∀ {fresh}, process.fresh ≤ fresh →
      (∀ solution, event.solution? = some solution → ∀ asked value,
        solution.get? asked = some value → value.NamesKnown fresh) →
      ∀ solution ∈ solutionsOf (events ++ [event]), ∀ asked value,
        solution.get? asked = some value → value.NamesKnown fresh := by
    intro fresh enough latest solution member asked value found
    rw [solutionsOf_concat, List.mem_append] at member
    rcases member with earlier | last
    · exact (knows.solutions solution earlier asked value found).mono enough
    · exact latest solution (by simpa using last) asked value found
  cases does with
  | opened started =>
      refine ⟨?_, solutions (Nat.le_refl _) (by simp [Event.solution?])⟩
      intro cursor member
      rcases List.mem_append.mp member with old | new
      · exact knows.cursors cursor old
      · cases List.mem_singleton.mp new
        exact Search.start_knows (knows.query (composed _ _ rfl)) _ started
  | dropped present =>
      refine ⟨?_, solutions (Nat.le_refl _) (by simp [Event.solution?])⟩
      intro cursor member
      rcases List.mem_or_eq_of_mem_set member with old | new
      · exact knows.cursors cursor old
      · cases new
  | @pulled key effort later cursor answer after present answered =>
      have run := Prover.runs_of_next_answer answered
      refine ⟨knows.during parsed ⟨present, _, run⟩, ?_⟩
      apply solutions (Prover.Reaches.fresh_le (Prover.counts_of_knowledgeBase _ _) ⟨_, run⟩)
      intro solution given
      obtain rfl : answer = some (.ok solution) := by
        unfold Event.solution? at given
        split at given <;> simp_all
      rcases Pull.answer?_eq_some_iff.mp answered with ⟨item, same, yielded⟩ | ⟨none, _⟩
      · cases same
        have openCursor := knows.cursors cursor (List.mem_of_getElem? present)
        exact openCursor.solution parsed yielded
      · cases none

theorem History.knowsNames {first : Nat} {events : List Event} {process : Process}
    (history : History kb first events process) (composed : QueriesComposed events) :
    process.KnowsNames kb.clauses.toList events := by
  induction history with
  | start =>
      constructor
      · intro cursor member
        cases member
      · intro solution member
        cases member
  | next earlier does induction =>
      apply does.knowsNames parsed (induction composed.of_append)
      intro query config same
      exact composed _ query config [] (by rw [same])

end Process

/-- Whenever a search of a process is about to try a clause, the clause renamed with
the next number shares no variable with any open search: the one that tries it, in
the middle of a call, or another one. -/
theorem KnowledgeBase.renamed_clause_apart {kb : KnowledgeBase}
    (parsed : ∀ clause ∈ kb.clauses, clause.Parsed) {first : Nat} {events : List Event}
    {process : Process} (history : Process.History kb first events process)
    (composed : QueriesComposed events) {key : Nat} {during : Process}
    (call : process.During kb key during) {cursor : Cursor}
    (calling : during.cursors[key]? = some (some cursor))
    {reported : List String} {choice : Choice} {below : List Choice}
    (trying : cursor.search = ⟨reported, .retrying, choice :: below⟩) {candidate : Clause}
    {candidates : List Clause} (next : choice.candidates = candidate :: candidates) :
    ∀ name ∈ (candidate.freshen during.fresh).names,
      ∀ other, some other ∈ during.cursors → name ∉ other.names := by
  have stored : ∀ clause ∈ kb.clauses.toList, clause.Parsed := by simpa using parsed
  have knows := (history.knowsNames stored composed).during stored call
  intro name renamed other present occurs
  have known := (knows other present).names name occurs
  have choices := (knows cursor (List.mem_of_getElem? calling)).search.choices
  have tried : candidate ∈ kb.clauses.toList := by
    apply (choices choice (by simp [trying])).stored
    simp [next]
  obtain ⟨term, inClause, occursThere⟩ := List.mem_flatMap.mp renamed
  obtain ⟨original, originalMember, rfl⟩ :
      ∃ original ∈ candidate.head :: candidate.body, original.freshen during.fresh = term := by
    simpa [Clause.freshen, Clause.rename, Term.freshen, eq_comm] using inClause
  obtain ⟨written, member, rfl⟩ := Term.mem_occurrences_rename.mp occursThere
  exact ((stored candidate tried).names original originalMember written
    member).freshName_unknown _ known

/-- The query `p(B, C)` in which `B` is replaced by the value `f(X#0, Y#0)` that an
answer to `p(A, B)` gave shares no variable with the clause that is tried for it. -/
theorem KnowledgeBase.renamed_clause_apart_from_composed_query :
    ∃ kb events process during cursor,
      kb = (KnowledgeBase.empty.addAll
        [⟨.app "p" [.var "X", .app "f" [.var "X", .var "Y"]], []⟩]).1 ∧
      Process.History kb 0 events process ∧ QueriesComposed events ∧
      process.During kb 1 during ∧ during.cursors[1]? = some (some cursor) ∧
      cursor.query = .app "p" [.app "f" [.var "X#0", .var "Y#0"], .var "C"] ∧
      ∀ name ∈ ["X#1", "Y#1"], ∀ other, some other ∈ during.cursors → name ∉ other.names := by
  have parsed : (Clause.mk (.app "p" [.var "X", .app "f" [.var "X", .var "Y"]]) []).Parsed :=
    ⟨"p(X, f(X, Y)).", .inl (by decide +kernel)⟩
  have firstParsed : (Term.app "p" [.var "A", .var "B"]).Parsed :=
    ⟨"p(A, B)", .inl (by decide +kernel)⟩
  have secondParsed : (Term.app "p" [.var "B", .var "C"]).Parsed :=
    ⟨"p(B, C)", .inl (by decide +kernel)⟩
  obtain ⟨kb, built⟩ : ∃ kb, kb = (KnowledgeBase.empty.addAll
    [⟨.app "p" [.var "X", .app "f" [.var "X", .var "Y"]], []⟩]).1 := ⟨_, rfl⟩
  obtain ⟨solution, after, answered, value⟩ : ∃ solution after,
      ((kb.prover {}).next 20 0
        ⟨["A", "B"], .proving [⟨.app "p" [.var "A", .var "B"], 0⟩] .empty, []⟩).answer? =
          some (some (.ok solution), 1, after) ∧
        solution.get? "B" = some (.app "f" [.var "X#0", .var "Y#0"]) := by
    subst built
    exact ⟨_, _, rfl, rfl⟩
  have history : Process.History kb 0
      [.opened (.app "p" [.var "A", .var "B"]) {}, .pulled 0 (some (.ok solution)),
        .opened (.app "p" [.app "f" [.var "X#0", .var "Y#0"], .var "C"]) {}]
      ⟨1, [some ⟨.app "p" [.var "A", .var "B"], {}, after⟩,
        some ⟨.app "p" [.app "f" [.var "X#0", .var "Y#0"], .var "C"], {},
          ⟨["X#0", "Y#0", "C"],
            .proving [⟨.app "p" [.app "f" [.var "X#0", .var "Y#0"], .var "C"], 0⟩] .empty,
            []⟩⟩]⟩ :=
    ((Process.History.start.next
      (@Process.Does.opened kb ⟨0, []⟩ (.app "p" [.var "A", .var "B"]) {} _ rfl)).next
      (@Process.Does.pulled kb _ 0 20 1 _ _ after rfl answered)).next (.opened rfl)
  have composed : QueriesComposed
      [.opened (.app "p" [.var "A", .var "B"]) {}, .pulled 0 (some (.ok solution)),
        .opened (.app "p" [.app "f" [.var "X#0", .var "Y#0"], .var "C"]) {}] := by
    intro before query config later same
    rcases before with _ | ⟨_, _ | ⟨_, _ | ⟨_, beyond⟩⟩⟩
    · obtain ⟨⟨rfl, _⟩, _⟩ := by simpa using same
      exact ⟨_, Term.var, firstParsed, by simp, fun _ _ => .inl rfl⟩
    · simp at same
    · obtain ⟨rfl, rfl, ⟨rfl, _⟩, _⟩ := by simpa using same
      refine ⟨_, fun name => if name = "B" then .app "f" [.var "X#0", .var "Y#0"]
        else .var name, secondParsed, by simp, ?_⟩
      refine List.forall_mem_cons.mpr ⟨.inr ?_, List.forall_mem_singleton.mpr (.inl rfl)⟩
      exact ⟨solution, List.mem_singleton_self solution, "B", _, value, by simp⟩
    · simp at same
  have found : (kb.prover {}).candidates ⟨"p", 2⟩ =
      [⟨.app "p" [.var "X", .app "f" [.var "X", .var "Y"]], []⟩] := by
    subst built
    rfl
  have stored : ∀ clause ∈ kb.clauses, clause.Parsed := by
    subst built
    simpa [KnowledgeBase.addAll, KnowledgeBase.add, KnowledgeBase.empty, Clause.signature?,
      Term.signature?] using parsed
  have call := @Process.During.intro kb
    ⟨1, [some ⟨.app "p" [.var "A", .var "B"], {}, after⟩,
      some ⟨.app "p" [.app "f" [.var "X#0", .var "Y#0"], .var "C"], {},
        ⟨["X#0", "Y#0", "C"],
          .proving [⟨.app "p" [.app "f" [.var "X#0", .var "Y#0"], .var "C"], 0⟩] .empty,
          []⟩⟩]⟩
    1 _ 1 _ rfl
    ⟨_, .single 0 (@SearchStep.called (kb.prover {}) 0 1 _ _ _ _ _ ⟨"p", 2⟩ rfl rfl
      (by simp [found]))⟩
  have renamed : (Clause.freshen 1
      ⟨.app "p" [.var "X", .app "f" [.var "X", .var "Y"]], []⟩).names =
        ["X#1", "X#1", "Y#1"] := by
    decide
  refine ⟨kb, _, _, _, _, built, history, composed, call, rfl, rfl, ?_⟩
  have apart := KnowledgeBase.renamed_clause_apart stored history composed call rfl rfl found
  intro name member
  apply apart name
  rw [renamed]
  exact List.mem_cons_of_mem _ member

end HornLogic
