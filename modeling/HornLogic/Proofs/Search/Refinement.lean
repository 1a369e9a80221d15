import HornLogic.Proofs.KnowledgeBase
import HornLogic.Proofs.Search.Calls
import HornLogic.Proofs.Search.Exploration

/-!
# A search explores the tree of its query

The choices of a search and the goals that it is proving stand for the part of
the tree that is still to be explored: the goals first, then the clauses that
are left at each choice, from the newest choice to the oldest.  Every step of
the search moves forward in this rest of the exploration, and an exploration
of goals can be run from any search that proves them, without a look at the
choices below.  So the calls for the next item yield the leaves of the tree.
-/

namespace HornLogic

namespace Exploration

def items (exploration : Exploration) (reported : List String) : List (Item × Nat) :=
  exploration.leaves.map fun leaf => (leaf.1.item reported, leaf.2)

@[simp] theorem failure_andThen (fresh : Nat) (further : Nat → Exploration) :
    (failure fresh).andThen further = further fresh := by
  simp [failure, andThen]

@[simp] theorem andThen_failure (exploration : Exploration) :
    exploration.andThen failure = exploration := by
  obtain ⟨leaves, ending⟩ := exploration
  cases ending <;> simp [failure, andThen]

theorem items_cons (reported : List String) (leaf : Leaf) (fresh : Nat)
    (rest : Exploration) :
    items ⟨(leaf, fresh) :: rest.leaves, rest.ending⟩ reported =
      (leaf.item reported, fresh) :: rest.items reported :=
  rfl

theorem Begins.items {earlier later : Exploration} (begins : earlier.Begins later)
    (reported : List String) : earlier.items reported <+: later.items reported :=
  begins.leaves.map _

theorem Begins.eq_of_ended {earlier later : Exploration} {fresh : Nat}
    (begins : earlier.Begins later) (ended : earlier.ending.fresh? = some fresh) :
    earlier = later := by
  rcases begins with same | ⟨interrupted, _⟩
  · exact same
  · simp [interrupted, Ending.fresh?] at ended

theorem andThen_assoc (exploration : Exploration) (second third : Nat → Exploration) :
    (exploration.andThen second).andThen third =
      exploration.andThen fun fresh => (second fresh).andThen third := by
  obtain ⟨leaves, ending⟩ := exploration
  cases ending with
  | faulted fresh => simp [andThen]
  | interrupted => simp [andThen]
  | complete fresh =>
      cases ended : (second fresh).ending <;> simp [andThen, ended]

end Exploration

namespace Prover

variable {prover : Prover}

/-- The exploration is run from a search: the run yields its items, and if the
exploration is complete the run comes to the choices below; a fault ends the
search. -/
def RunsFrom (prover : Prover) (reported : List String) (fresh : Nat) (search : Search)
    (below : List Choice) (exploration : Exploration) : Prop :=
  ∃ later after, prover.Runs fresh search (exploration.items reported) later after ∧
    match exploration.ending with
    | .complete last => later = last ∧ after = ⟨reported, .retrying, below⟩
    | .faulted last => later = last ∧ after = ⟨reported, .finished, []⟩
    | .interrupted => True

variable {reported : List String} {fresh : Nat} {search : Search} {below : List Choice}

theorem RunsFrom.of_silent (effort : Nat) {middle : Nat} {between : Search}
    {exploration : Exploration}
    (stepped : SearchStep prover effort fresh search middle between none)
    (runs : prover.RunsFrom reported middle between below exploration) :
    prover.RunsFrom reported fresh search below exploration := by
  obtain ⟨later, after, run, ends⟩ := runs
  exact ⟨later, after, .silent stepped run, ends⟩

theorem runsFrom_failure :
    prover.RunsFrom reported fresh ⟨reported, .retrying, below⟩ below
      (.failure fresh) :=
  ⟨fresh, _, .refl _ _, rfl, rfl⟩

theorem runsFrom_interrupted :
    prover.RunsFrom reported fresh search below .interrupted :=
  ⟨fresh, search, .refl _ _, trivial⟩

theorem RunsFrom.andThen (choices : List Choice) {exploration : Exploration}
    {further : Nat → Exploration}
    (runs : prover.RunsFrom reported fresh search choices exploration)
    (onwards : ∀ last, prover.RunsFrom reported last ⟨reported, .retrying, choices⟩ below
      (further last)) :
    prover.RunsFrom reported fresh search below (exploration.andThen further) := by
  obtain ⟨leaves, ending⟩ := exploration
  obtain ⟨later, after, run, ends⟩ := runs
  cases ending with
  | interrupted => exact ⟨later, after, run, trivial⟩
  | faulted last => exact ⟨later, after, run, ends⟩
  | complete last =>
      obtain ⟨rfl, rfl⟩ := ends
      obtain ⟨final, end_, furtherRun, furtherEnds⟩ := onwards later
      refine ⟨final, end_, ?_, furtherEnds⟩
      simpa [Exploration.andThen, Exploration.items] using run.trans furtherRun

/-- The clauses left at a choice are run one after the other, if every branch
is. -/
theorem runsFrom_followEach {effort : Nat}
    {explore : List Goal → Bindings → Nat → Exploration}
    (explored : ∀ goals bindings fresh choices,
      prover.RunsFrom reported fresh ⟨reported, .proving goals bindings, choices⟩ choices
        (explore goals bindings fresh))
    (goal : Term) (depth : Nat) (rest : List Goal) (bindings : Bindings)
    (candidates : List Clause) (fresh : Nat) :
    prover.RunsFrom reported fresh
      ⟨reported, .retrying, ⟨goal, depth, rest, bindings, candidates⟩ :: below⟩ below
      (.followEach (prover.follow effort explore goal depth rest bindings)
        candidates fresh) := by
  induction candidates generalizing fresh with
  | nil => exact .of_silent effort .dropped runsFrom_failure
  | cons candidate candidates induction =>
      refine .andThen (⟨goal, depth, rest, bindings, candidates⟩ :: below) ?_ induction
      unfold follow
      cases attempt : unify prover.config.occursCheck effort goal
          (candidate.freshen fresh).head bindings with
      | unfinished => exact runsFrom_interrupted
      | clash => exact .of_silent effort (.skipped attempt) runsFrom_failure
      | unified extended => exact .of_silent effort (.entered attempt) (explored _ _ _ _)

theorem runsFrom_explore (reported : List String) (effort : Nat) (goals : List Goal)
    (bindings : Bindings) (fresh : Nat) (choices : List Choice) :
    prover.RunsFrom reported fresh ⟨reported, .proving goals bindings, choices⟩ choices
      (prover.explore effort goals bindings fresh) := by
  -- The choices below are arbitrary: a branch that is explored puts its own
  -- choices on top of them and takes them off again.
  induction effort generalizing goals bindings fresh choices with
  | zero => exact runsFrom_interrupted
  | succ effort induction =>
      cases goals with
      | nil =>
          exact ⟨fresh, _, .single effort .answer, rfl, rfl⟩
      | cons goal rest =>
          obtain ⟨term, depth⟩ := goal
          simp only [explore]
          cases allowed : prover.config.exceededAt depth with
          | some limit =>
              exact ⟨fresh, _, .single effort (.tooDeep allowed), rfl, rfl⟩
          | none =>
              cases form : (bindings.walk term).goalForm with
              | notCallable =>
                  exact ⟨fresh, _, .single effort (.notCallable allowed form), rfl, rfl⟩
              | both left right =>
                  exact .of_silent effort (.both allowed form)
                    (induction _ _ _ _)
              | notUnifiable left right =>
                  cases attempt : unify prover.config.occursCheck effort
                      (left.substitute bindings) (right.substitute bindings) .empty with
                  | unfinished =>
                      simp only [attempt]
                      exact runsFrom_interrupted
                  | unified extended =>
                      simp only [attempt]
                      exact .of_silent effort (.refuted allowed form attempt) runsFrom_failure
                  | clash =>
                      simp only [attempt]
                      exact .of_silent effort (.passed allowed form attempt) (induction _ _ _ _)
              | call signature =>
                  by_cases candidates : prover.candidates signature = []
                  · simp only [candidates]
                    exact .of_silent effort
                      (.noClauses allowed form candidates) runsFrom_failure
                  · exact .of_silent effort
                      (.called allowed form candidates)
                      (runsFrom_followEach induction _ _ _ _ _ _)

/-- Explores what is left at choices, from the newest choice to the oldest. -/
def exploreStack (prover : Prover) (effort : Nat) : List Choice → Nat → Exploration
  | [], fresh => .failure fresh
  | choice :: below, fresh =>
      (Exploration.followEach
        (prover.follow effort (prover.explore effort) choice.goal choice.depth choice.rest
          choice.bindings)
        choice.candidates fresh).andThen (prover.exploreStack effort below)

def exploreRest (prover : Prover) (effort fresh : Nat) (search : Search) : Exploration :=
  match search.phase with
  | .finished => .failure fresh
  | .retrying => prover.exploreStack effort search.stack fresh
  | .proving goals bindings =>
      (prover.explore effort goals bindings fresh).andThen
        (prover.exploreStack effort search.stack)

theorem exploreStack_begins {effort larger : Nat} (enough : effort ≤ larger)
    (stack : List Choice) (fresh : Nat) :
    (prover.exploreStack effort stack fresh).Begins
      (prover.exploreStack larger stack fresh) := by
  induction stack generalizing fresh with
  | nil => exact .refl _
  | cons choice below induction =>
      apply Exploration.Begins.andThen
      · apply Exploration.Begins.followEach
        intro clause fresh
        exact follow_begins enough (explore_begins enough) _ _ _ _ _ _
      · exact induction

/-- What is left after goals were explored begins what was left before, if more
effort is spent on the goals. -/
theorem exploreRest_begins {effort larger fresh : Nat} {goals : List Goal}
    {bindings : Bindings} {stack : List Choice} {exploration : Exploration}
    (enough : effort ≤ larger)
    (begins : exploration.Begins (prover.explore larger goals bindings fresh)) :
    (exploration.andThen (prover.exploreStack effort stack)).Begins
      (prover.exploreRest larger fresh ⟨reported, .proving goals bindings, stack⟩) := by
  apply begins.andThen
  exact exploreStack_begins enough stack

theorem exploreRest_of_silent {stepEffort middle : Nat} {between : Search}
    (stepped : SearchStep prover stepEffort fresh search middle between none)
    (effort : Nat) :
    ∃ larger, (prover.exploreRest effort middle between).Begins
      (prover.exploreRest larger fresh search) := by
  -- A step that unifies was taken with an effort of its own, so the exploration
  -- before it needs the larger of the two.
  cases stepped with
  | idle => exact ⟨effort, .refl _⟩
  | ended => exact ⟨effort, .refl _⟩
  | both allowed form =>
      refine ⟨effort + 1, exploreRest_begins (Nat.le_succ effort) ?_⟩
      simp only [explore, allowed, form]
      exact .refl _
  | @refuted _ stack _ _ _ _ _ _ allowed form unifies =>
      have again := unify_eq_of_answered unifies (by simp) (Nat.le_max_left stepEffort effort)
      refine ⟨max stepEffort effort + 1, ?_⟩
      have left := @exploreStack_begins prover _ _
        (Nat.le_succ_of_le (Nat.le_max_right stepEffort effort)) stack fresh
      simpa [exploreRest, explore, allowed, form, again] using left
  | passed allowed form clashes =>
      have again := unify_eq_of_answered clashes (by simp) (Nat.le_max_left stepEffort effort)
      have enough := Nat.le_max_right stepEffort effort
      refine ⟨max stepEffort effort + 1, exploreRest_begins (by omega) ?_⟩
      simp only [explore, allowed, form, again]
      exact explore_begins enough _ _ _
  | @noClauses _ stack _ _ _ _ allowed form noCandidates =>
      refine ⟨effort + 1, ?_⟩
      have left := @exploreStack_begins prover _ _ (Nat.le_succ effort) stack fresh
      simpa [exploreRest, explore, allowed, form, noCandidates,
        Exploration.followEach] using left
  | called allowed form someCandidates =>
      refine ⟨effort + 1, exploreRest_begins (Nat.le_succ effort) ?_⟩
      simp only [explore, allowed, form]
      exact .refl _
  | dropped =>
      refine ⟨effort, ?_⟩
      simp only [exploreRest, exploreStack, Exploration.followEach,
        Exploration.failure_andThen]
      exact .refl _
  | @entered _ stack goal depth rest bindings extended candidate candidates unifies =>
      have again := unify_eq_of_answered unifies (by simp) (Nat.le_max_left stepEffort effort)
      have enough := Nat.le_max_right stepEffort effort
      refine ⟨max stepEffort effort, ?_⟩
      simp only [exploreRest, exploreStack, Exploration.followEach, follow, again,
        Exploration.andThen_assoc]
      apply (explore_begins enough _ _ _).andThen
      exact exploreStack_begins enough
        (⟨goal, depth, rest, bindings, candidates⟩ :: stack)
  | @skipped _ stack goal depth rest bindings candidate candidates clashes =>
      have again := unify_eq_of_answered clashes (by simp) (Nat.le_max_left stepEffort effort)
      have enough := Nat.le_max_right stepEffort effort
      refine ⟨max stepEffort effort, ?_⟩
      simp only [exploreRest, exploreStack, Exploration.followEach, follow, again,
        Exploration.failure_andThen]
      exact exploreStack_begins enough
        (⟨goal, depth, rest, bindings, candidates⟩ :: stack) (prover.nextNumber fresh)

theorem exploreRest_of_answer {stepEffort middle : Nat} {between : Search}
    {solution : Solution}
    (stepped : SearchStep prover stepEffort fresh search middle between
      (some (.ok solution)))
    (effort : Nat) :
    ∃ bindings rest,
      .ok (Search.solutionUnder search.reported bindings) = (.ok solution : Item) ∧
      (prover.exploreRest effort middle between).Begins rest ∧
      prover.exploreRest (effort + 1) fresh search =
        ⟨(.success bindings, middle) :: rest.leaves, rest.ending⟩ := by
  cases stepped with
  | @answer reported stack bindings =>
      refine ⟨bindings, prover.exploreStack (effort + 1) stack fresh, rfl, ?_, ?_⟩
      · exact exploreStack_begins (Nat.le_succ effort) stack fresh
      · simp [exploreRest, explore, Exploration.success, Exploration.andThen]

theorem exploreRest_of_fault {stepEffort middle : Nat} {between : Search}
    {cause : Fault}
    (stepped : SearchStep prover stepEffort fresh search middle between
      (some (.error cause))) :
    between.phase = .finished ∧
      prover.exploreRest 1 fresh search = .fault cause middle := by
  cases stepped with
  | tooDeep exceeded =>
      exact ⟨rfl, by simp [exploreRest, explore, exceeded, Exploration.fault,
        Exploration.andThen]⟩
  | notCallable allowed form =>
      exact ⟨rfl, by simp [exploreRest, explore, allowed, form, Exploration.fault,
        Exploration.andThen]⟩

/-- The items of a run are the first ones of the exploration, and all of them if
the run has come to the end of the search. -/
theorem Runs.explored {last : Nat} {after : Search} {items : List (Item × Nat)}
    (run : prover.Runs fresh search items last after) :
    ∃ effort,
      items <+: (prover.exploreRest effort fresh search).items search.reported ∧
      (after.phase = .finished →
        (prover.exploreRest effort fresh search).items search.reported = items ∧
          (prover.exploreRest effort fresh search).ending.fresh? = some last) := by
  induction run with
  | refl fresh search =>
      refine ⟨0, List.nil_prefix, ?_⟩
      intro ended
      simp [exploreRest, ended, Exploration.failure, Exploration.items, Ending.fresh?]
  | @step stepEffort fresh middle last search between after item items stepped run
      induction =>
      obtain ⟨effort, first, atEnd⟩ := induction
      have same : between.reported = search.reported :=
        Reaches.reported_eq ⟨_, .single stepEffort stepped⟩
      rw [same] at first atEnd
      cases item with
      | none =>
          obtain ⟨larger, begins⟩ := exploreRest_of_silent stepped effort
          refine ⟨larger, first.trans (begins.items _), ?_⟩
          intro ended
          obtain ⟨all, known⟩ := atEnd ended
          rw [← begins.eq_of_ended known]
          exact ⟨all, known⟩
      | some item =>
          cases item with
          | ok solution =>
              obtain ⟨bindings, rest, told, begins, explored⟩ :=
                exploreRest_of_answer stepped effort
              refine ⟨effort + 1, ?_, ?_⟩
              · rw [explored, Exploration.items_cons, Leaf.item, told]
                exact List.cons_prefix_cons.mpr ⟨rfl, first.trans (begins.items _)⟩
              · intro ended
                obtain ⟨all, known⟩ := atEnd ended
                obtain rfl := begins.eq_of_ended known
                rw [explored, Exploration.items_cons, Leaf.item, told, all]
                exact ⟨rfl, known⟩
          | error cause =>
              obtain ⟨ended, explored⟩ := exploreRest_of_fault stepped
              obtain ⟨rfl, rfl, rfl⟩ := run.eq_of_finished ended
              exact ⟨1, by rw [explored]; exact List.prefix_refl _,
                fun _ => by rw [explored]; exact ⟨rfl, rfl⟩⟩

/-! ## The calls of a search -/

def exploreQuery (prover : Prover) (effort fresh : Nat) (query : Term) : Exploration :=
  prover.explore effort [⟨query, 0⟩] .empty fresh

theorem exploreRest_start (effort : Nat) (query : Term) (reported : List String) :
    prover.exploreRest effort fresh ⟨reported, .proving [⟨query, 0⟩] .empty, []⟩ =
      prover.exploreQuery effort fresh query :=
  Exploration.andThen_failure _

/-- The call with a number yields the leaf with this number. -/
theorem nthNext_item_iff_leaf {calls next : Nat} {query : Term} {item : Item} :
    (∃ effort later, prover.nthNext effort calls fresh
        ⟨reported, .proving [⟨query, 0⟩] .empty, []⟩ = .item item next later) ↔
      ∃ effort leaf,
        (prover.exploreQuery effort fresh query).leaves[calls]? = some (leaf, next) ∧
          leaf.item reported = item := by
  apply nthNext_item_iff.trans
  constructor
  · rintro ⟨items, last, after, found, run⟩
    obtain ⟨effort, first, _⟩ := run.explored
    rw [exploreRest_start] at first
    obtain ⟨further, all⟩ := first
    have met : ((prover.exploreQuery effort fresh query).items reported)[calls]? =
        some (item, next) := by
      rw [← all]
      exact List.getElem?_append_left (List.getElem?_eq_some_iff.mp found).1 ▸ found
    rw [Exploration.items, List.getElem?_map, Option.map_eq_some_iff] at met
    obtain ⟨⟨leaf, number⟩, present, told⟩ := met
    obtain ⟨rfl, rfl⟩ := Prod.mk.inj told
    exact ⟨effort, leaf, present, rfl⟩
  · rintro ⟨effort, leaf, present, rfl⟩
    obtain ⟨last, after, run, _⟩ :=
      prover.runsFrom_explore reported effort [⟨query, 0⟩] .empty fresh []
    refine ⟨_, last, after, ?_, run⟩
    rw [exploreQuery] at present
    simp [Exploration.items, present]

theorem nthNext_exhausted_iff_explored {calls next : Nat} {query : Term} :
    (∃ effort later, prover.nthNext effort calls fresh
        ⟨reported, .proving [⟨query, 0⟩] .empty, []⟩ = .exhausted next later) ↔
      ∃ effort,
        (prover.exploreQuery effort fresh query).leaves.length ≤ calls ∧
          (prover.exploreQuery effort fresh query).ending.fresh? = some next := by
  apply nthNext_exhausted_iff.trans
  constructor
  · rintro ⟨items, after, length, ended, run⟩
    obtain ⟨effort, _, atEnd⟩ := run.explored
    obtain ⟨all, known⟩ := atEnd ended
    rw [exploreRest_start] at all known
    refine ⟨effort, ?_, known⟩
    rw [← all] at length
    simpa [Exploration.items] using length
  · rintro ⟨effort, length, known⟩
    obtain ⟨last, after, run, ends⟩ :=
      prover.runsFrom_explore reported effort [⟨query, 0⟩] .empty fresh []
    rw [exploreQuery] at length known
    have few : ((prover.explore effort [⟨query, 0⟩] .empty fresh).items reported).length ≤
        calls := by
      simpa [Exploration.items] using length
    cases ending : (prover.explore effort [⟨query, 0⟩] .empty fresh).ending with
    | interrupted => simp [ending, Ending.fresh?] at known
    | faulted number =>
        rw [ending] at known ends
        obtain ⟨rfl, rfl⟩ := ends
        obtain rfl : last = next := by simpa [Ending.fresh?] using known
        exact ⟨_, _, few, rfl, run⟩
    | complete number =>
        rw [ending] at known ends
        obtain ⟨rfl, rfl⟩ := ends
        obtain rfl : last = next := by simpa [Ending.fresh?] using known
        have toTheEnd := run.trans (.single effort .ended)
        rw [emitted, Option.map_none, Option.toList_none, List.append_nil] at toTheEnd
        exact ⟨_, _, few, rfl, toTheEnd⟩

end Prover

/-- The calls for the next item of a search over a knowledge base yield the
leaves of the tree of the query, in order and with the same numbers consumed,
and then nothing; a fault is the last item.  So it is with every counter, also
with one that starts over. -/
theorem KnowledgeBase.Built.search_explores_tree {kb : KnowledgeBase} (built : kb.Built)
    (config : Config) (nextNumber : Nat → Nat) {query : Term}
    (callable : query.isVar = false) (fresh : Nat) :
    ∃ search, Search.start query = .ok search ∧
      (∀ calls item next,
        (∃ effort later, (kb.prover config nextNumber).nthNext effort calls fresh search =
            .item item next later) ↔
          ∃ effort leaf,
            ((Prover.scanning kb.clauses.toList config nextNumber).exploreQuery effort fresh
                query).leaves[calls]? = some (leaf, next) ∧
              leaf.item (Search.reportedVariables query) = item) ∧
      (∀ calls next,
        (∃ effort later, (kb.prover config nextNumber).nthNext effort calls fresh search =
            .exhausted next later) ↔
          ∃ effort,
            ((Prover.scanning kb.clauses.toList config nextNumber).exploreQuery effort fresh
                query).leaves.length ≤ calls ∧
              ((Prover.scanning kb.clauses.toList config nextNumber).exploreQuery effort fresh
                query).ending.fresh? = some next) ∧
      ∀ effort calls cause next later,
        (kb.prover config nextNumber).nthNext effort calls fresh search =
            .item (.error cause) next later →
          ∀ more, calls < more → ∃ effort last,
            (kb.prover config nextNumber).nthNext effort more fresh search =
              .exhausted next last := by
  rw [built.prover_eq config nextNumber]
  refine ⟨_, by simp [Search.start, callable]; rfl, ?_, ?_, ?_⟩
  · intro calls item next
    exact Prover.nthNext_item_iff_leaf
  · intro calls next
    exact Prover.nthNext_exhausted_iff_explored
  · intro effort calls cause next later answered more afterwards
    exact Prover.nthNext_after_fault answered afterwards

/-- The counter starts over after the first clause: the second item is `A = g(Y#0)`.
The body of the third clause is deeper than the limit, which is the third item. -/
theorem KnowledgeBase.leaves_met_after_counter_starts_over :
    ∃ kb search, kb = (KnowledgeBase.empty.addAll
        [⟨.app "p" [.app "f" [.var "X"]], []⟩, ⟨.app "p" [.app "g" [.var "Y"]], []⟩,
          ⟨.app "p" [.atom "b"], [.atom "q"]⟩]).1 ∧
      kb.Built ∧ Search.start (.app "p" [.var "A"]) = .ok search ∧
      (∃ effort later,
        (kb.prover { maxDepth := some 0 } wrappingNext).nthNext effort 1 (UInt64.size - 1) search =
          .item (.ok ⟨true, .ofList [("A", .app "g" [.var "Y#0"])]⟩) 1 later) ∧
      ∃ effort later,
        (kb.prover { maxDepth := some 0 } wrappingNext).nthNext effort 2 (UInt64.size - 1) search =
          .item (.error (.depthLimit 0)) 2 later := by
  obtain ⟨kb, known⟩ : ∃ kb, kb = (KnowledgeBase.empty.addAll
      [⟨.app "p" [.app "f" [.var "X"]], []⟩, ⟨.app "p" [.app "g" [.var "Y"]], []⟩,
        ⟨.app "p" [.atom "b"], [.atom "q"]⟩]).1 :=
    ⟨_, rfl⟩
  have built : kb.Built := known ▸ .addAll _ .empty
  obtain ⟨search, started, yields, _, _⟩ :=
    @KnowledgeBase.Built.search_explores_tree kb built { maxDepth := some 0 } wrappingNext
      (.app "p" [.var "A"]) rfl (UInt64.size - 1)
  refine ⟨kb, search, known, built, started, (yields 1 _ 1).mpr ?_, (yields 2 _ 2).mpr ?_⟩
  · exact ⟨5, _, by subst known; rfl, rfl⟩
  · exact ⟨5, .fault (.depthLimit 0), by subst known; rfl, rfl⟩

end HornLogic
