import HornLogic.Proofs.KnowledgeBase
import HornLogic.Proofs.Search.Calls
import HornLogic.Proofs.Search.Freshness

/-!
# A finished search is complete

An instance of the query that can be derived from the clauses is covered by
some branch of the search, until the search answers with bindings that the
instance is an instance of: a derivation of the goals of a branch says which
clause to try for the first of them, and no clause is left out.  A search that
has ended covers nothing any more.
-/

namespace HornLogic

section

variable {clauses : List Clause} {query : Term} {target : String → Term}

/-- The substitution solves the bindings and gives the target's instance of the
query. -/
structure Matches (query : Term) (target : String → Term) (bindings : Bindings)
    (assign : String → Term) : Prop where
  agrees : ∀ name ∈ query.occurrences, assign name = target name
  solves : bindings.SolvedBy assign

/-- The target's instance of the query can be reached by a derivation of these
goals. -/
def Covers (clauses : List Clause) (query : Term) (target : String → Term)
    (goals : List Goal) (bindings : Bindings) : Prop :=
  ∃ assign, Matches query target bindings assign ∧
    ∀ goal ∈ goals, ClauseDerivable clauses (goal.term.subst assign)

/-- The target's instance of the query can be reached by a clause that is left at
the choice. -/
def Choice.Covers (clauses : List Clause) (query : Term) (target : String → Term)
    (choice : Choice) : Prop :=
  ∃ assign, Matches query target choice.bindings assign ∧
    (∀ goal ∈ choice.rest, ClauseDerivable clauses (goal.term.subst assign)) ∧
    ∃ candidate ∈ choice.candidates, ∃ inner,
      choice.goal.subst assign = candidate.head.subst inner ∧
        ∀ condition ∈ candidate.body,
          ClauseDerivable clauses (condition.subst inner)

theorem Covers.walked {goal : Goal} {rest : List Goal} {bindings : Bindings}
    (covers : Covers clauses query target (goal :: rest) bindings) :
    Covers clauses query target (⟨bindings.walk goal.term, goal.depth⟩ :: rest)
      bindings := by
  obtain ⟨assign, found, derivable⟩ := covers
  obtain ⟨first, others⟩ := List.forall_mem_cons.mp derivable
  refine ⟨assign, found, List.forall_mem_cons.mpr ⟨?_, others⟩⟩
  rw [found.solves.subst_walk]
  exact first

theorem Covers.both {left right : Term} {depth : Nat} {rest : List Goal}
    {bindings : Bindings}
    (covers : Covers clauses query target (⟨.both left right, depth⟩ :: rest) bindings) :
    Covers clauses query target (⟨left, depth⟩ :: ⟨right, depth⟩ :: rest)
      bindings := by
  obtain ⟨assign, found, derivable⟩ := covers
  obtain ⟨first, others⟩ := List.forall_mem_cons.mp derivable
  rw [Term.subst_both] at first
  obtain ⟨leftDerivable, rightDerivable⟩ := first.of_both
  exact ⟨assign, found, List.forall_mem_cons.mpr
    ⟨leftDerivable, List.forall_mem_cons.mpr ⟨rightDerivable, others⟩⟩⟩

theorem Covers.called {goal : Goal} {rest : List Goal} {bindings : Bindings}
    {signature : Signature}
    (covers : Covers clauses query target (goal :: rest) bindings)
    (form : goal.term.goalForm = .call signature)
    (callable : ∀ clause ∈ clauses, clause.signature?.isSome) :
    Choice.Covers clauses query target
      ⟨goal.term, goal.depth, rest, bindings,
        clauses.filter fun clause => clause.signature? = some signature⟩ := by
  obtain ⟨assign, found, derivable⟩ := covers
  obtain ⟨first, others⟩ := List.forall_mem_cons.mp derivable
  obtain ⟨clause, member, named, inner, same, body⟩ :=
    first.of_call (Term.goalForm_subst form assign) callable
  refine ⟨assign, found, others, clause, ?_, inner, same, body⟩
  exact List.mem_filter.mpr ⟨member, by simpa using named⟩

/-- If not by a later clause, an instance is covered by the clause that is tried
next: some substitution makes the goal equal to the renamed head. -/
theorem Choice.Covers.tried {goal : Term} {depth fresh : Nat} {rest : List Goal}
    {bindings : Bindings} {candidate : Clause} {candidates : List Clause}
    (covers : Choice.Covers clauses query target
      ⟨goal, depth, rest, bindings, candidate :: candidates⟩)
    (branch : KnownBranch fresh (⟨goal, depth⟩ :: rest) bindings)
    (queryKnown : query.Known fresh) (plain : candidate.Plain) :
    Choice.Covers clauses query target ⟨goal, depth, rest, bindings, candidates⟩ ∨
      ∃ assign, Matches query target bindings assign ∧
        goal.subst assign = (candidate.freshen fresh).head.subst assign ∧
        ∀ next ∈ (candidate.freshen fresh).body.map (⟨·, depth + 1⟩) ++ rest,
          ClauseDerivable clauses (Term.subst assign (Goal.term next)) := by
  obtain ⟨outer, found, others, chosen, chosenMember, inner, same, body⟩ := covers
  rcases List.mem_cons.mp chosenMember with rfl | later
  · -- The branch does not know the variables of the renamed clause, so the
    -- clause's substitution can be laid over that of the branch.
    obtain ⟨goalKnown, restKnown⟩ := List.forall_mem_cons.mp branch.goals
    refine .inr ⟨overlay fresh inner outer, ⟨?_, ?_⟩, ?_, ?_⟩
    · intro name member
      rw [overlay_of_known inner outer (queryKnown.known name member)]
      exact found.agrees name member
    · exact solvedBy_overlay inner outer branch.values found.solves
    · rw [subst_overlay_of_known inner outer goalKnown, same]
      exact (subst_overlay_of_renamed inner outer plain.head).symm
    · apply forall_mem_entered fun term =>
        ClauseDerivable clauses (term.subst (overlay fresh inner outer))
      · intro condition member
        rw [subst_overlay_of_renamed inner outer (plain.body condition member)]
        exact body condition member
      · intro next member
        rw [subst_overlay_of_known inner outer (restKnown next member)]
        exact others next member
  · exact .inl ⟨outer, found, others, chosen, later, inner, same, body⟩

/-- A renamed head that does not unify with the goal covers nothing, and one that
does covers what its clause covers. -/
theorem Choice.Covers.unified {goal : Term} {depth effort fresh : Nat}
    {rest : List Goal} {bindings extended : Bindings} {candidate : Clause}
    {candidates : List Clause}
    (covers : Choice.Covers clauses query target
      ⟨goal, depth, rest, bindings, candidate :: candidates⟩)
    (branch : KnownBranch fresh (⟨goal, depth⟩ :: rest) bindings)
    (queryKnown : query.Known fresh) (plain : candidate.Plain)
    (unifies : unify true effort goal (candidate.freshen fresh).head bindings =
      .unified extended) :
    Choice.Covers clauses query target ⟨goal, depth, rest, bindings, candidates⟩ ∨
      HornLogic.Covers clauses query target
        ((candidate.freshen fresh).body.map (⟨·, depth + 1⟩) ++ rest) extended := by
  rcases covers.tried branch queryKnown plain with
    later | ⟨assign, found, same, derivable⟩
  · exact .inl later
  · obtain ⟨_, _, solutions⟩ := unified_solutions branch.acyclic unifies
    have solved := (solutions assign).mpr ⟨found.solves, same⟩
    exact .inr ⟨assign, ⟨found.agrees, solved⟩, derivable⟩

theorem Choice.Covers.clashed {goal : Term} {depth effort fresh : Nat}
    {rest : List Goal} {bindings : Bindings} {candidate : Clause}
    {candidates : List Clause}
    (covers : Choice.Covers clauses query target
      ⟨goal, depth, rest, bindings, candidate :: candidates⟩)
    (branch : KnownBranch fresh (⟨goal, depth⟩ :: rest) bindings)
    (queryKnown : query.Known fresh) (plain : candidate.Plain)
    (clashes : unify true effort goal (candidate.freshen fresh).head bindings =
      .clash) :
    Choice.Covers clauses query target
      ⟨goal, depth, rest, bindings, candidates⟩ := by
  rcases covers.tried branch queryKnown plain with
    later | ⟨assign, found, same, _⟩
  · exact later
  · exact absurd same (no_solution_of_clash branch.acyclic clashes found.solves)

/-- The target's instance of the query is covered by the goals that a search is
proving or by one of its choices. -/
inductive Search.Covers (clauses : List Clause) (query : Term)
    (target : String → Term) : Search → Prop where
  | present {reported : List String} {goals : List Goal} {bindings : Bindings}
      {stack : List Choice} :
      HornLogic.Covers clauses query target goals bindings →
      Search.Covers clauses query target ⟨reported, .proving goals bindings, stack⟩
  | choice {reported : List String} {phase : Phase} {stack : List Choice}
      {choice : Choice} :
      phase ≠ .finished → choice ∈ stack → choice.Covers clauses query target →
      Search.Covers clauses query target ⟨reported, phase, stack⟩

/-- A step keeps an instance covered, unless it answers with bindings that the
instance is an instance of. -/
theorem Search.Covers.step {config : Config} (checked : config.occursCheck = true)
    (callable : ∀ clause ∈ clauses, clause.signature?.isSome)
    (plain : ∀ clause ∈ clauses, clause.Plain) (queryPlain : query.Plain)
    {effort fresh later : Nat} {search after : Search} {item : Option Item}
    (lawful : search.Lawful clauses (KnownBranch fresh))
    (covers : search.Covers clauses query target)
    (stepped : SearchStep (Prover.scanning clauses config) effort fresh search later
      after item)
    (faultless : ∀ cause, item ≠ some (.error cause)) :
    after.Covers clauses query target ∨
      ∃ bindings assign, search.phase = .proving [] bindings ∧
        Matches query target bindings assign := by
  cases covers with
  | @present reported goals bindings stack covers =>
      have branch := lawful.present _ _ rfl
      cases stepped with
      | answer =>
          obtain ⟨assign, found, _⟩ := covers
          exact .inr ⟨bindings, assign, rfl, found⟩
      | tooDeep exceeded => exact absurd rfl (faultless _)
      | notCallable allowed form => exact absurd rfl (faultless _)
      | both allowed form =>
          have walked := covers.walked
          rw [Term.eq_both_of_goalForm form] at walked
          exact .inl (.present walked.both)
      | refuted allowed form unifies =>
          have known := (List.forall_mem_cons.mp branch.goals).1
          exact absurd form (not_notUnifiable_of_known (branch.values.walk known))
      | passed allowed form clashes =>
          have known := (List.forall_mem_cons.mp branch.goals).1
          exact absurd form (not_notUnifiable_of_known (branch.values.walk known))
      | @noClauses _ _ _ _ _ signature allowed form noCandidates =>
          have none : clauses.filter (fun clause => clause.signature? = some signature) =
              [] := noCandidates
          obtain ⟨_, _, _, candidate, member, _⟩ := covers.walked.called form callable
          rw [none] at member
          cases member
      | called allowed form someCandidates =>
          refine .inl (.choice (by simp) List.mem_cons_self ?_)
          exact covers.walked.called form callable
  | @choice reported phase stack choice unfinished member covers =>
      cases stepped with
      | idle => exact absurd rfl unfinished
      | tooDeep exceeded => exact absurd rfl (faultless _)
      | notCallable allowed form => exact absurd rfl (faultless _)
      | answer => exact .inl (.choice (by simp) member covers)
      | both allowed form => exact .inl (.choice (by simp) member covers)
      | refuted allowed form unifies => exact .inl (.choice (by simp) member covers)
      | passed allowed form clashes => exact .inl (.choice (by simp) member covers)
      | noClauses allowed form noCandidates =>
          exact .inl (.choice (by simp) member covers)
      | called allowed form someCandidates =>
          exact .inl (.choice (by simp) (List.mem_cons_of_mem _ member) covers)
      | ended => cases member
      | dropped =>
          rcases List.mem_cons.mp member with rfl | below
          · obtain ⟨_, _, _, candidate, none, _⟩ := covers
            cases none
          · exact .inl (.choice (by simp) below covers)
      | entered unifies =>
          rcases List.mem_cons.mp member with rfl | below
          · obtain ⟨⟨branch, _, stored⟩, _⟩ := List.forall_mem_cons.mp lawful.choices
            have candidatePlain := plain _ (stored _ List.mem_cons_self)
            rw [Prover.scanning, checked] at unifies
            rcases covers.unified branch (queryPlain.known fresh) candidatePlain
              unifies with later | entered
            · exact .inl (.choice (by simp) List.mem_cons_self later)
            · exact .inl (.present entered)
          · exact .inl (.choice (by simp) (List.mem_cons_of_mem _ below) covers)
      | skipped clashes =>
          rcases List.mem_cons.mp member with rfl | below
          · obtain ⟨⟨branch, _, stored⟩, _⟩ := List.forall_mem_cons.mp lawful.choices
            have candidatePlain := plain _ (stored _ List.mem_cons_self)
            rw [Prover.scanning, checked] at clashes
            have later := covers.clashed branch (queryPlain.known fresh) candidatePlain
              clashes
            exact .inl (.choice (by simp) List.mem_cons_self later)
          · exact .inl (.choice (by simp) (List.mem_cons_of_mem _ below) covers)

theorem covers_start (derivable : ClauseDerivable clauses (query.subst target)) :
    Search.Covers clauses query target
      ⟨Search.reportedVariables query, .proving [⟨query, 0⟩] .empty, []⟩ := by
  apply Search.Covers.present
  refine ⟨target, ⟨?_, Bindings.solvedBy_empty target⟩, ?_⟩
  · intro name _
    rfl
  · exact List.forall_mem_singleton.mpr derivable

theorem Search.Covers.not_finished {search : Search}
    (covers : search.Covers clauses query target) : search.phase ≠ .finished := by
  cases covers with
  | present _ => simp
  | choice unfinished _ _ => exact unfinished

/-- A run to the end of a search comes past bindings that a covered instance is
an instance of, if it yields no fault. -/
theorem Search.Covers.answered {config : Config} (checked : config.occursCheck = true)
    (callable : ∀ clause ∈ clauses, clause.signature?.isSome)
    (plain : ∀ clause ∈ clauses, clause.Plain) (queryPlain : query.Plain)
    {fresh last : Nat} {search after : Search} {items : List (Item × Nat)}
    (lawful : search.Lawful clauses (KnownBranch fresh))
    (covers : search.Covers clauses query target)
    (run : (Prover.scanning clauses config).Runs fresh search items last after)
    (faultless : ∀ cause number, (.error cause, number) ∉ items)
    (ended : after.phase = .finished) :
    ∃ before middle stack bindings assign,
      (Prover.scanning clauses config).Runs fresh search before middle
        ⟨search.reported, .proving [] bindings, stack⟩ ∧
      before.length < items.length ∧ Matches query target bindings assign := by
  -- The instance stays covered along the run until a step answers with it; it
  -- cannot be covered at the end.
  induction run with
  | refl => exact absurd ended covers.not_finished
  | @step effort fresh second last search next after item items stepped run induction =>
      have itemFaultless : ∀ cause, item ≠ some (.error cause) := by
        rintro cause rfl
        exact faultless cause second (List.mem_append_left _ List.mem_cons_self)
      rcases covers.step checked callable plain queryPlain lawful stepped itemFaultless
        with nextCovers | ⟨bindings, assign, phase, found⟩
      · have stored : ∀ signature,
            ∀ candidate ∈ (Prover.scanning clauses config).candidates signature,
              candidate ∈ clauses :=
          fun _ _ member => (List.mem_filter.mp member).1
        have nextLawful :=
          (knownBranch_branchLaw (fun _ => rfl) checked plain).step stored lawful stepped
        have restFaultless : ∀ cause number, (.error cause, number) ∉ items :=
          fun cause number member =>
            faultless cause number (List.mem_append_right _ member)
        obtain ⟨before, middle, stack, bindings, assign, onwards, fewer, found⟩ :=
          induction nextLawful nextCovers restFaultless ended
        have same : next.reported = search.reported :=
          Prover.Reaches.reported_eq ⟨_, .single effort stepped⟩
        rw [same] at onwards
        refine ⟨_, middle, stack, bindings, assign, .step stepped onwards, ?_, found⟩
        rw [List.length_append, List.length_append]
        omega
      · obtain ⟨reported, _, stack⟩ := search
        obtain rfl : _ = Phase.proving [] bindings := phase
        cases stepped with
        | answer =>
            refine ⟨[], fresh, stack, bindings, assign, .refl _ _, ?_, found⟩
            simp [Prover.emitted]

end

/-- If a search over parsed clauses for a parsed query, both without tests, comes
to its end without a fault, then every derivable instance of the query is an
instance of what some solution gives. -/
theorem KnowledgeBase.Built.finished_search_complete {kb : KnowledgeBase}
    (built : kb.Built)
    (parsed : ∀ clause ∈ kb.clauses.toList, clause.Parsed)
    (untested : ∀ clause ∈ kb.clauses.toList, clause.Untested)
    {query : Term} (queryParsed : query.Parsed) (queryUntested : query.Untested)
    {config : Config} (checked : config.occursCheck = true)
    {search : Search} (started : Search.start query = .ok search)
    {effort calls fresh last : Nat} {finished : Search}
    (exhausted : (kb.prover config).nthNext effort calls fresh search =
      .exhausted last finished)
    (faultless : ∀ earlier effort cause next later, earlier < calls →
      (kb.prover config).nthNext effort earlier fresh search ≠
        .item (.error cause) next later)
    {target : String → Term}
    (derivable : ClauseDerivable kb.clauses.toList (query.subst target)) :
    ∃ earlier effort solution next later bindings general, earlier < calls ∧
      (kb.prover config).nthNext effort earlier fresh search =
        .item (.ok solution) next later ∧
      (kb.prover config).Reaches fresh search next
        { later with phase := .proving [] bindings } ∧
      solution = Search.solutionUnder (Search.reportedVariables query) bindings ∧
      ∀ name ∈ query.occurrences,
        target name = ((Term.var name).substitute bindings).subst general := by
  rw [built.prover_eq config] at *
  have plain : ∀ clause ∈ kb.clauses.toList, clause.Plain :=
    fun clause member => (parsed clause member).plain (untested clause member)
  have queryPlain : query.Plain := ⟨queryParsed.names, queryUntested⟩
  have callable : ∀ clause ∈ kb.clauses.toList, clause.signature?.isSome :=
    fun clause member => built.indexed.callable clause (Array.mem_toList_iff.mp member)
  obtain ⟨items, after, few, ended, run⟩ :=
    Prover.nthNext_exhausted_iff.mp ⟨effort, finished, exhausted⟩
  have itemsFaultless := Prover.faultless_of_nthNext run few faultless
  cases eq_of_start started
  have lawful : Search.Lawful kb.clauses.toList (KnownBranch fresh)
      ⟨Search.reportedVariables query, .proving [⟨query, 0⟩] .empty, []⟩ :=
    lawful_proving (knownBranch_start queryPlain) (by simp)
  obtain ⟨before, middle, stack, bindings, general, toAnswer, fewer, found⟩ :=
    (covers_start derivable).answered checked callable plain queryPlain lawful run
      itemsFaultless ended
  obtain ⟨larger, answered⟩ := Prover.nthNext_item_of_runs 0 toAnswer .answer
  refine ⟨before.length, larger, _, middle, _, bindings, general, by omega, answered,
    ⟨before, toAnswer⟩, rfl, ?_⟩
  intro name member
  rw [found.solves.subst_substitute, Term.subst_var]
  exact (found.agrees name member).symm

/-- The instance `p(f(a))` of the query `p(Y)` is one of the answer that the
clause `p(f(X))` gives. -/
theorem KnowledgeBase.finished_search_covers_instance :
    ∃ search, Search.start (.app "p" [.var "Y"]) = .ok search ∧
      ∃ effort solution next later bindings general,
        ((KnowledgeBase.empty.addAll
          [⟨.app "p" [.app "f" [.var "X"]], []⟩]).1.prover).nthNext effort 0 5 search =
            .item (.ok solution) next later ∧
        solution = Search.solutionUnder ["Y"] bindings ∧
        .app "f" [.atom "a"] =
          ((Term.var "Y").substitute bindings).subst general := by
  have parsed : (Clause.mk (.app "p" [.app "f" [.var "X"]]) []).Parsed :=
    ⟨"p(f(X)).", .inl (by decide +kernel)⟩
  have queryParsed : (Term.app "p" [.var "Y"]).Parsed :=
    ⟨"p(Y)", .inl (by decide +kernel)⟩
  have derivable : ClauseDerivable [⟨.app "p" [.app "f" [.var "X"]], []⟩]
      (.app "p" [.app "f" [.atom "a"]]) :=
    @ClauseDerivable.clause _ _ _ (fun _ => .atom "a") (by simp [Term.both])
      List.mem_cons_self (by simp) (by simp)
  have faultless : ∀ earlier effort cause next later, earlier < 1 →
      ((KnowledgeBase.empty.addAll
        [⟨.app "p" [.app "f" [.var "X"]], []⟩]).1.prover).nthNext effort earlier 5
          ⟨["Y"], .proving [⟨.app "p" [.var "Y"], 0⟩] .empty, []⟩ ≠
        .item (.error cause) next later := by
    intro earlier effort cause next later first faulty
    obtain rfl : earlier = 0 := by omega
    obtain ⟨solution, number, state, answered⟩ : ∃ solution number state,
        ((KnowledgeBase.empty.addAll
          [⟨.app "p" [.app "f" [.var "X"]], []⟩]).1.prover).nthNext 10 0 5
            ⟨["Y"], .proving [⟨.app "p" [.var "Y"], 0⟩] .empty, []⟩ =
          .item (.ok solution) number state :=
      ⟨_, _, _, rfl⟩
    cases Prover.nthNext_unique faulty answered (by simp) (by simp)
  obtain ⟨earlier, effort, solution, next, later, bindings, general, first, answered,
      _, found, same⟩ :=
    @KnowledgeBase.Built.finished_search_complete _
      (.addAll [⟨.app "p" [.app "f" [.var "X"]], []⟩] .empty)
      (List.forall_mem_singleton.mpr parsed)
      (List.forall_mem_singleton.mpr (by decide))
      _ queryParsed (by decide) {} rfl _ rfl 10 1 5 _ _ rfl faultless
      (fun _ => .app "f" [.atom "a"]) derivable
  obtain rfl : earlier = 0 := by omega
  exact ⟨_, rfl, effort, solution, next, later, bindings, general, answered, found,
    same "Y" (by simp)⟩

end HornLogic
