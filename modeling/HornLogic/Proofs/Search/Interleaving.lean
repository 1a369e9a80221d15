import HornLogic.Proofs.Search.Freshness
import HornLogic.Proofs.Search.Process
import HornLogic.Proofs.Search.Renumbering
import HornLogic.Proofs.Search.Soundness

/-!
# Interleaved searches do not disturb each other

A cursor takes some numbers from the shared counter, in increasing order, and other
cursors take the numbers in between.  The answers of a cursor are those that its search
gives alone, from any counter, when the numbers that it took are replaced by
consecutive ones.  The names of the query have no such number in them.
-/

namespace HornLogic

/-- The renaming turns clauses that are renamed with these numbers into clauses that
are renamed with consecutive ones. -/
def Prover.Lines (prover : Prover) (change : String → String) (taken : List Nat)
    (start : Nat) : Prop :=
  ∀ index number, taken[index]? = some number →
    ∀ signature, ∀ clause ∈ prover.candidates signature,
      (clause.freshen number).rename change = clause.freshen (start + index)

namespace Prover.Lines

variable {prover : Prover} {change : String → String} {taken : List Nat} {start : Nat}

theorem of_append {more : List Nat} (lines : prover.Lines change (taken ++ more) start) :
    prover.Lines change taken start := by
  intro index number found
  apply lines index number
  rw [List.getElem?_append_left (List.getElem?_eq_some_iff.mp found).1]
  exact found

/-- The numbers that a call takes are consecutive anyway. -/
theorem renumbers (counts : prover.Counts) {fresh later : Nat}
    (lines : prover.Lines change (taken ++ List.range' fresh (later - fresh)) start)
    {number : Nat} (beyond : fresh ≤ number) (below : number < later) :
    prover.Renumbers prover.nextNumber change
      (fun number => start + taken.length + (number - fresh)) number := by
  constructor
  · simp only [counts number, counts (start + taken.length + (number - fresh))]
    omega
  · have found : (taken ++ List.range' fresh (later - fresh))[
        taken.length + (number - fresh)]? = some number := by
      rw [List.getElem?_append_right (by omega), List.getElem?_range' (by omega)]
      exact congrArg some (by omega)
    simpa only [Nat.add_assoc] using lines _ number found

theorem answer?_rename (counts : prover.Counts) {change : String ↪ String}
    {effort fresh later : Nat} {search after : Search} {answer : Option Item}
    (lines : prover.Lines change (taken ++ List.range' fresh (later - fresh)) start)
    (stocks : prover.Stocks search)
    (answered : (prover.next effort fresh search).answer? = some (answer, later, after)) :
    (prover.next effort (start + taken.length) (search.rename change)).answer? =
      some (answer.map (Item.rename change), start + taken.length + (later - fresh),
        after.rename change) := by
  have first : (prover.nthNext effort 0 fresh search).answer? = some (answer, later, after) :=
    answered
  have renamed := Prover.answer?_rename change counts stocks
    (fun number beyond below => lines.renumbers counts beyond below) first
  rwa [withCounter_self, Nat.sub_self, Nat.add_zero] at renamed

end Prover.Lines

/-- The cursor in this place gave these answers and took these numbers.  Under every
renaming that makes the numbers consecutive its search gives the renamed answers alone
and is left in the renamed state. -/
structure Process.Runs (kb : KnowledgeBase) (config : Config) (initial : Search)
    (key : Nat) (answers : List (Option Item)) (taken : List Nat) (process : Process) :
    Prop where
  placed : key < process.cursors.length
  used : ∀ number ∈ taken, number < process.fresh
  distinct : taken.Nodup
  present : ∀ cursor, process.cursors[key]? = some (some cursor) →
    cursor.config = config ∧ (kb.prover config).Stocks cursor.search
  alone : ∀ (change : String ↪ String) (start : Nat), initial.rename change = initial →
    (kb.prover config).Lines change taken start →
    ∃ after, (kb.prover config).Answers start initial
        (answers.map (Option.map (Item.rename change))) (start + taken.length) after ∧
      ∀ cursor, process.cursors[key]? = some (some cursor) →
        after = cursor.search.rename change

namespace Process.Runs

variable {kb : KnowledgeBase} {config : Config} {initial : Search} {key : Nat}
  {answers : List (Option Item)} {taken : List Nat} {process : Process}

theorem keep (runs : process.Runs kb config initial key answers taken) {fresh : Nat}
    {cursors : List (Option Cursor)} (later : process.fresh ≤ fresh)
    (placed : key < cursors.length)
    (same : ∀ cursor, cursors[key]? = some (some cursor) →
      process.cursors[key]? = some (some cursor)) :
    Process.Runs kb config initial key answers taken ⟨fresh, cursors⟩ where
  placed := placed
  used number member := (runs.used number member).trans_le later
  distinct := runs.distinct
  present cursor there := runs.present cursor (same cursor there)
  alone change start fixed lines := by
    obtain ⟨state, answered, states⟩ := runs.alone change start fixed lines
    exact ⟨state, answered, fun cursor there => states cursor (same cursor there)⟩

theorem pull (runs : process.Runs kb config initial key answers taken) {effort later : Nat}
    {cursor : Cursor} {answer : Option Item} {after : Search}
    (present : process.cursors[key]? = some (some cursor))
    (answered : ((kb.prover cursor.config).next effort process.fresh cursor.search).answer? =
      some (answer, later, after)) :
    Process.Runs kb config initial key (answers ++ [answer])
      (taken ++ List.range' process.fresh (later - process.fresh))
      ⟨later, process.cursors.set key (some { cursor with search := after })⟩ := by
  obtain ⟨rfl, stocks⟩ := runs.present cursor present
  have reached : (kb.prover cursor.config).Reaches process.fresh cursor.search later after :=
    ⟨_, Prover.runs_of_next_answer answered⟩
  have grows : process.fresh ≤ later := reached.fresh_le (Prover.counts_of_knowledgeBase _ _)
  have renewed : ∀ other, (process.cursors.set key (some { cursor with search := after }))[key]? =
      some (some other) → other = { cursor with search := after } := by
    intro other there
    rw [List.getElem?_set_self runs.placed] at there
    exact (Option.some.inj (Option.some.inj there)).symm
  constructor
  · simpa using runs.placed
  · intro number member
    rcases List.mem_append.mp member with old | new
    · exact (runs.used number old).trans_le grows
    · have bounds := List.mem_range'_1.mp new
      simp only
      omega
  · refine List.nodup_append.mpr ⟨runs.distinct, List.nodup_range', ?_⟩
    intro number old other new same
    have before := runs.used number old
    have bounds := List.mem_range'_1.mp new
    omega
  · intro other there
    rw [renewed other there]
    exact ⟨rfl, stocks.reaches reached⟩
  · intro change start fixed lines
    obtain ⟨state, before, states⟩ := runs.alone change start fixed lines.of_append
    obtain rfl := states cursor present
    refine ⟨after.rename change, ?_, ?_⟩
    · rw [List.map_append, List.length_append, List.length_range', ← Nat.add_assoc]
      exact before.more (lines.answer?_rename (Prover.counts_of_knowledgeBase _ _) stocks
        answered)
    · intro other there
      rw [renewed other there]

end Process.Runs

namespace Process

variable {kb : KnowledgeBase}

/-- Every event keeps what is known of a cursor, up to the answer that it gives and the
numbers that it takes in this event. -/
theorem Does.runs {config : Config} {initial : Search} {key : Nat}
    {answers : List (Option Item)} {taken : List Nat} {process after : Process}
    {event : Event} (does : process.Does kb event after)
    (runs : process.Runs kb config initial key answers taken) :
    ∃ more, after.Runs kb config initial key (answers ++ (event.answerOf? key).toList)
      (taken ++ more) := by
  cases does with
  | opened started =>
      refine ⟨[], ?_⟩
      simp only [Event.answerOf?, Option.toList_none, List.append_nil]
      apply runs.keep (Nat.le_refl _)
      · rw [List.length_append]
        exact Nat.lt_add_right _ runs.placed
      · intro cursor there
        rwa [List.getElem?_append_left runs.placed] at there
  | @dropped other cursor present =>
      refine ⟨[], ?_⟩
      simp only [Event.answerOf?, Option.toList_none, List.append_nil]
      apply runs.keep (Nat.le_refl _) (by simpa using runs.placed)
      intro cursor there
      by_cases same : other = key
      · subst same
        rw [List.getElem?_set_self runs.placed] at there
        cases there
      · rwa [List.getElem?_set_ne same] at there
  | @pulled other effort later cursor answer final present answered =>
      by_cases same : other = key
      · subst same
        rw [Event.answerOf?, if_pos rfl]
        exact ⟨_, runs.pull present answered⟩
      · refine ⟨[], ?_⟩
        simp only [Event.answerOf?, if_neg same, Option.toList_none, List.append_nil]
        have reached : (kb.prover cursor.config).Reaches process.fresh cursor.search later final :=
          ⟨_, Prover.runs_of_next_answer answered⟩
        apply runs.keep (reached.fresh_le (Prover.counts_of_knowledgeBase _ _))
          (by simpa using runs.placed)
        intro cursor there
        rwa [List.getElem?_set_ne same] at there

theorem runs_of_start {query : Term} {config : Config} {initial : Search}
    (started : Search.start query = .ok initial) (process : Process) :
    Process.Runs kb config initial process.cursors.length [] []
      ⟨process.fresh, process.cursors ++ [some ⟨query, config, initial⟩]⟩ := by
  have found : ∀ cursor, (process.cursors ++ [some (Cursor.mk query config initial)])[
      process.cursors.length]? = some (some cursor) → cursor = ⟨query, config, initial⟩ := by
    intro cursor there
    rw [List.getElem?_concat_length] at there
    exact (Option.some.inj (Option.some.inj there)).symm
  constructor
  · simp
  · simp
  · exact List.nodup_nil
  · intro cursor there
    obtain rfl := found cursor there
    obtain rfl := eq_of_start started
    exact ⟨rfl, Prover.stocks_of_no_choice⟩
  · intro change start fixed _
    refine ⟨initial, .none, ?_⟩
    intro cursor there
    obtain rfl := found cursor there
    exact fixed.symm

theorem History.runs {first : Nat} {events : List Event} {process : Process}
    (history : History kb first events process) {key : Nat} {query : Term} {config : Config}
    (opened : (openings events)[key]? = some (query, config)) :
    ∃ initial taken, Search.start query = .ok initial ∧
      process.Runs kb config initial key (answersOf key events) taken := by
  induction history with
  | start => simp [openings] at opened
  | @next events process after event earlier does induction =>
      rw [answersOf_concat]
      rw [openings_concat] at opened
      by_cases before : key < (openings events).length
      · rw [List.getElem?_append_left before] at opened
        obtain ⟨initial, taken, started, runs⟩ := induction opened
        obtain ⟨more, runsAfter⟩ := does.runs runs
        exact ⟨initial, taken ++ more, started, runsAfter⟩
      · rw [List.getElem?_append_right (Nat.le_of_not_lt before)] at opened
        cases does with
        | pulled present answered => simp [Event.opening?] at opened
        | dropped present => simp [Event.opening?] at opened
        | @opened otherQuery otherConfig search started =>
            rw [earlier.length_openings] at before opened
            have atEnd : key - process.cursors.length = 0 := by
              have bound := (List.getElem?_eq_some_iff.mp opened).1
              simp [Event.opening?] at bound
              omega
            obtain ⟨rfl, rfl⟩ : otherQuery = query ∧ otherConfig = config := by
              simpa [atEnd, Event.opening?] using opened
            obtain rfl : key = process.cursors.length := by omega
            refine ⟨search, [], started, ?_⟩
            rw [earlier.answersOf_eq_nil (Nat.le_refl _)]
            exact runs_of_start started process

end Process

/-- However the cursors of a process are opened, asked and dropped, the answers that a
cursor for a parsed query gives are those that the search for its query gives alone,
from any next free number, when other numbers are put into the fresh names; the
variables of the query keep their names. -/
theorem KnowledgeBase.interleaved_cursor_answers_as_alone {kb : KnowledgeBase}
    (parsed : ∀ clause ∈ kb.clauses, clause.Parsed) {first : Nat} {events : List Event}
    {process : Process} (history : Process.History kb first events process) {key : Nat}
    {query : Term} {config : Config}
    (opened : (openings events)[key]? = some (query, config)) (written : query.Parsed)
    (start : Nat) :
    ∃ search numbering, Search.start query = .ok search ∧
      (∀ name ∈ query.occurrences, renumberBy numbering name = name) ∧
      ∀ calls answer, (answersOf key events)[calls]? = some answer →
        ∃ effort next later,
          ((kb.prover config).nthNext effort calls start search).answer? =
            some (answer.map (Item.rename (renumberBy numbering)), next, later) := by
  obtain ⟨search, taken, started, runs⟩ := history.runs opened
  -- The numbers that the cursor took become the numbers from `start` on.
  have injective : Set.InjOn (fun number => start + taken.idxOf number)
      {number | number ∈ taken} := by
    intro number member other otherMember same
    exact (List.idxOf_inj member).mp (Nat.add_left_cancel same)
  obtain ⟨numbering, consecutive, _⟩ := exists_permutation_extending injective
  have lines : (kb.prover config).Lines (renumberBy numbering) taken start := by
    intro index number found signature clause stored
    obtain ⟨bound, rfl⟩ := List.getElem?_eq_some_iff.mp found
    have inBase := KnowledgeBase.mem_of_mem_clausesOf stored
    rw [(parsed clause (Array.mem_toList_iff.mp inBase)).freshen_renumberBy,
      Equiv.coe_toEmbedding, consecutive _ (List.getElem_mem bound), runs.distinct.idxOf_getElem]
  obtain ⟨after, answered, _⟩ := runs.alone (renumberBy numbering) start
    (Search.start_renumberBy written started numbering) lines
  refine ⟨search, numbering, started, ?_, ?_⟩
  · intro name member
    exact renumberBy_of_written numbering.toEmbedding (written.names name member)
  · intro calls answer found
    apply answered.getElem?
    rw [List.getElem?_map, found]
    rfl

/-- Two cursors for the query `p(A)` over the clauses `p(f(Y))` and `p(g(Y))` are asked in
turn.  The second answer `A = g(Y#2)` of the first cursor is the one that its search
gives alone from the number 5, up to the number. -/
theorem KnowledgeBase.answer_after_call_of_other_cursor :
    ∃ kb events process first solution,
      kb = (KnowledgeBase.empty.addAll
        [⟨.app "p" [.app "f" [.var "Y"]], []⟩, ⟨.app "p" [.app "g" [.var "Y"]], []⟩]).1 ∧
      Process.History kb 0 events process ∧
      answersOf 0 events = [first, some (.ok solution)] ∧
      solution.get? "A" = some (.app "g" [.var "Y#2"]) ∧
      ∃ search numbering, Search.start (.app "p" [.var "A"]) = .ok search ∧
        ∃ effort next later, ((kb.prover {}).nthNext effort 1 5 search).answer? =
          some (some (.ok (solution.rename (renumberBy numbering))), next, later) := by
  have firstParsed : (Clause.mk (.app "p" [.app "f" [.var "Y"]]) []).Parsed :=
    ⟨"p(f(Y)).", .inl (by decide +kernel)⟩
  have secondParsed : (Clause.mk (.app "p" [.app "g" [.var "Y"]]) []).Parsed :=
    ⟨"p(g(Y)).", .inl (by decide +kernel)⟩
  have queryParsed : (Term.app "p" [.var "A"]).Parsed :=
    ⟨"p(A)", .inl (by decide +kernel)⟩
  obtain ⟨kb, built⟩ : ∃ kb, kb = (KnowledgeBase.empty.addAll
    [⟨.app "p" [.app "f" [.var "Y"]], []⟩, ⟨.app "p" [.app "g" [.var "Y"]], []⟩]).1 :=
    ⟨_, rfl⟩
  obtain ⟨first, afterFirst, other, afterOther, solution, afterSecond, firstAnswered,
      otherAnswered, secondAnswered, value⟩ :
      ∃ first afterFirst other afterOther solution afterSecond,
        ((kb.prover {}).next 20 0
          ⟨["A"], .proving [⟨.app "p" [.var "A"], 0⟩] .empty, []⟩).answer? =
            some (first, 1, afterFirst) ∧
        ((kb.prover {}).next 20 1
          ⟨["A"], .proving [⟨.app "p" [.var "A"], 0⟩] .empty, []⟩).answer? =
            some (other, 2, afterOther) ∧
        ((kb.prover {}).next 20 2 afterFirst).answer? =
          some (some (.ok solution), 3, afterSecond) ∧
        solution.get? "A" = some (.app "g" [.var "Y#2"]) := by
    subst built
    exact ⟨_, _, _, _, _, _, rfl, rfl, rfl, rfl⟩
  have stored : ∀ clause ∈ kb.clauses, clause.Parsed := by
    subst built
    simpa [KnowledgeBase.addAll, KnowledgeBase.add, KnowledgeBase.empty, Clause.signature?,
      Term.signature?] using ⟨firstParsed, secondParsed⟩
  have twoOpened := (Process.History.start.next
    (@Process.Does.opened kb ⟨0, []⟩ (.app "p" [.var "A"]) {} _ rfl)).next
    (@Process.Does.opened kb _ (.app "p" [.var "A"]) {} _ rfl)
  have history := ((twoOpened.next
    (@Process.Does.pulled kb _ 0 20 1 _ _ afterFirst rfl firstAnswered)).next
    (@Process.Does.pulled kb _ 1 20 2 _ _ afterOther rfl otherAnswered)).next
    (@Process.Does.pulled kb _ 0 20 3 _ _ afterSecond rfl secondAnswered)
  obtain ⟨search, numbering, started, _, alone⟩ :=
    @KnowledgeBase.interleaved_cursor_answers_as_alone kb stored 0 _ _ history 0 _ _ rfl
      queryParsed 5
  exact ⟨kb, _, _, first, solution, built, history, rfl, value, search, numbering, started,
    alone 1 _ rfl⟩

end HornLogic
