import HornLogic.Proofs.Search.Calls
import HornLogic.Proofs.Search.Derivability
import HornLogic.Proofs.Unification.Renaming

/-!
# Renamed searches

A search sees the names of variables only through whether they are the same.  An
injective renaming of all names in it therefore renames what its steps lead to, if it
also turns the clauses that are renamed with the search's numbers into those renamed
with the numbers of the renamed search.  The renamed search may count in another way.
-/

namespace HornLogic

def Goal.rename (change : String → String) (goal : Goal) : Goal where
  term := goal.term.rename change
  depth := goal.depth

def GoalForm.rename (change : String → String) : GoalForm → GoalForm
  | .both left right => .both (left.rename change) (right.rename change)
  | .notUnifiable left right => .notUnifiable (left.rename change) (right.rename change)
  | .call signature => .call signature
  | .notCallable => .notCallable

theorem Term.goalForm_rename (change : String → String) (term : Term) :
    (term.rename change).goalForm = term.goalForm.rename change := by
  rcases term.goalForm_cases with ⟨name, rfl, _⟩ | ⟨left, right, rfl, form⟩ |
    ⟨left, right, rfl, form⟩ | ⟨signature, _, form⟩
  · rfl
  · rw [form, Term.rename, subst_both, goalForm_both]
    rfl
  · rw [form, Term.rename, subst_notUnifiable, goalForm_notUnifiable]
    rfl
  · rw [form, Term.rename, goalForm_subst form]
    rfl

def Fault.rename (change : String → String) : Fault → Fault
  | .notCallable term => .notCallable (term.rename change)
  | .depthLimit limit => .depthLimit limit
  | .unreadable cause rest => .unreadable cause rest

def Solution.rename (change : String ↪ String) (solution : Solution) : Solution where
  success := solution.success
  bindings := solution.bindings.rename change

def Item.rename (change : String ↪ String) : Item → Item
  | .ok solution => .ok (solution.rename change)
  | .error cause => .error (cause.rename change)

def Note.rename (change : String ↪ String) : Note → Note
  | .solving goal => .solving (goal.rename change)
  | .noClauses signature => .noClauses signature
  | .trying goal clause => .trying (goal.rename change) (clause.rename change)
  | .found solution => .found (solution.rename change)

/-- The clauses that were not tried have no names in common with the search yet, so
they stay as they are. -/
def Choice.rename (change : String ↪ String) (choice : Choice) : Choice where
  goal := choice.goal.rename change
  depth := choice.depth
  rest := choice.rest.map (Goal.rename change)
  bindings := choice.bindings.rename change
  candidates := choice.candidates

def Phase.rename (change : String ↪ String) : Phase → Phase
  | .proving goals bindings =>
      .proving (goals.map (Goal.rename change)) (bindings.rename change)
  | .retrying => .retrying
  | .finished => .finished

def Search.rename (change : String ↪ String) (search : Search) : Search where
  reported := search.reported.map change
  phase := search.phase.rename change
  stack := search.stack.map (Choice.rename change)

/-- The renamed search uses other numbers. -/
def Turn.rename (change : String ↪ String) (renumber : Nat → Nat) (turn : Turn) : Turn where
  search := turn.search.rename change
  fresh := renumber turn.fresh
  item := turn.item.map (Item.rename change)
  note := turn.note.map (Note.rename change)

def Pull.rename (change : String ↪ String) (renumber : Nat → Nat) : Pull → Pull
  | .item yielded fresh search =>
      .item (yielded.rename change) (renumber fresh) (search.rename change)
  | .exhausted fresh search => .exhausted (renumber fresh) (search.rename change)
  | .interrupted => .interrupted

namespace Pull

variable {change : String ↪ String} {pull : Pull} {next : Nat} {later : Search}

theorem rename_eq_item_iff {item : Item} :
    pull.rename change id = .item item next later ↔
      ∃ original after, pull = .item original next after ∧
        item = original.rename change ∧ later = after.rename change := by
  constructor
  · intro renamed
    cases pull with
    | item original fresh after =>
        cases renamed
        exact ⟨original, after, rfl, rfl, rfl⟩
    | exhausted fresh after => cases renamed
    | interrupted => cases renamed
  · rintro ⟨original, after, rfl, rfl, rfl⟩
    rfl

theorem answer?_rename (pull : Pull) (change : String ↪ String) (renumber : Nat → Nat) :
    (pull.rename change renumber).answer? =
      pull.answer?.map fun (answer, fresh, search) =>
        (answer.map (Item.rename change), renumber fresh, search.rename change) := by
  cases pull with
  | item item fresh search => rfl
  | exhausted fresh search => rfl
  | interrupted => rfl

theorem rename_eq_exhausted_iff :
    pull.rename change id = .exhausted next later ↔
      ∃ after, pull = .exhausted next after ∧ later = after.rename change := by
  constructor
  · intro renamed
    cases pull with
    | item original fresh after => cases renamed
    | exhausted fresh after =>
        cases renamed
        exact ⟨after, rfl, rfl⟩
    | interrupted => cases renamed
  · rintro ⟨after, rfl, rfl⟩
    rfl

end Pull

namespace Search

variable (change : String ↪ String)

theorem reportedValue?_rename (bindings : Bindings) (name : String) :
    reportedValue? (bindings.rename change) (change name) =
      (reportedValue? bindings name).map fun entry =>
        (change entry.1, entry.2.rename change) := by
  have value := bindings.substitute_rename change (.var name)
  rw [Term.rename_var] at value
  simp only [reportedValue?, value, Term.rename_eq_var_iff change.injective]
  split <;> rfl

theorem solutionUnder_rename (reported : List String) (bindings : Bindings) :
    solutionUnder (reported.map change) (bindings.rename change) =
      (solutionUnder reported bindings).rename change := by
  have values : (reported.map change).filterMap (reportedValue? (bindings.rename change)) =
      (reported.filterMap (reportedValue? bindings)).map fun entry =>
        (change entry.1, entry.2.rename change) := by
    rw [List.filterMap_map, List.map_filterMap]
    exact List.filterMap_congr fun name _ => reportedValue?_rename change bindings name
  simp only [solutionUnder, Solution.rename, values, Bindings.ofList_rename]

end Search

theorem Search.Trying.rename (change : String ↪ String) {search : Search}
    (trying : search.Trying) : (search.rename change).Trying := by
  cases trying
  exact .intro

/-! ## Renamed steps -/

namespace Prover

def withCounter (prover : Prover) (nextNumber : Nat → Nat) : Prover :=
  { prover with nextNumber }

/-- The renaming turns the clauses that are renamed with a number into those renamed
with another number, and the number after it becomes the one that the other counter
gives after that. -/
def Renumbers (prover : Prover) (nextNumber : Nat → Nat) (change : String → String)
    (renumber : Nat → Nat) (number : Nat) : Prop :=
  renumber (prover.nextNumber number) = nextNumber (renumber number) ∧
    ∀ signature, ∀ clause ∈ prover.candidates signature,
      (clause.freshen number).rename change = clause.freshen (renumber number)

theorem withCounter_self (prover : Prover) : prover.withCounter prover.nextNumber = prover :=
  rfl

/-- All clauses that a search is still to try come from the prover. -/
def Stocks (prover : Prover) (search : Search) : Prop :=
  ∀ choice ∈ search.stack, ∀ candidate ∈ choice.candidates,
    ∃ signature, candidate ∈ prover.candidates signature

variable {prover : Prover}

theorem stocks_of_no_choice {reported : List String} {phase : Phase} :
    prover.Stocks ⟨reported, phase, []⟩ :=
  fun _ member => absurd member List.not_mem_nil

theorem Stocks.step {effort fresh later : Nat} {search after : Search}
    {item : Option Item} (stocks : prover.Stocks search)
    (stepped : SearchStep prover effort fresh search later after item) :
    prover.Stocks after := by
  cases stepped with
  | tooDeep exceeded => exact fun choice member => absurd member List.not_mem_nil
  | notCallable allowed form => exact fun choice member => absurd member List.not_mem_nil
  | called allowed form someCandidates =>
      exact List.forall_mem_cons.mpr ⟨fun candidate member => ⟨_, member⟩, stocks⟩
  | dropped => exact (List.forall_mem_cons.mp stocks).2
  | entered unifies =>
      obtain ⟨first, below⟩ := List.forall_mem_cons.mp stocks
      exact List.forall_mem_cons.mpr ⟨(List.forall_mem_cons.mp first).2, below⟩
  | skipped clashes =>
      obtain ⟨first, below⟩ := List.forall_mem_cons.mp stocks
      exact List.forall_mem_cons.mpr ⟨(List.forall_mem_cons.mp first).2, below⟩
  | _ => exact stocks

section

variable (nextNumber : Nat → Nat) (change : String ↪ String) (renumber : Nat → Nat)

theorem call_rename (fresh : Nat) (search : Search) (goal : Goal) (rest : List Goal)
    (bindings : Bindings) (signature : Signature) :
    (prover.withCounter nextNumber).call (renumber fresh) (search.rename change)
        (goal.rename change) (rest.map (Goal.rename change)) (bindings.rename change) signature =
      (prover.call fresh search goal rest bindings signature).rename change renumber := by
  simp only [call, withCounter]
  cases prover.candidates signature with
  | nil => rfl
  | cons candidate candidates => rfl

theorem select_rename (effort fresh : Nat) (search : Search) (goal : Goal)
    (rest : List Goal) (bindings : Bindings) :
    (prover.withCounter nextNumber).select effort (renumber fresh) (search.rename change)
        (goal.rename change) (rest.map (Goal.rename change)) (bindings.rename change) =
      (prover.select effort fresh search goal rest bindings).map
        (Turn.rename change renumber) := by
  have form := Term.goalForm_rename change goal.term
  simp only [select, withCounter, Goal.rename, form]
  cases goal.term.goalForm with
  | notCallable =>
      simp only [GoalForm.rename, Bindings.substitute_rename]
      rfl
  | both left right => rfl
  | call signature =>
      exact congrArg some (call_rename nextNumber change renumber fresh search goal rest bindings
        signature)
  | notUnifiable left right =>
      have tested := unify_rename change prover.config.occursCheck effort
        (left.substitute bindings) (right.substitute bindings) .empty
      rw [Bindings.rename_empty] at tested
      simp only [GoalForm.rename, Bindings.substitute_rename, tested]
      cases unify prover.config.occursCheck effort (left.substitute bindings)
          (right.substitute bindings) .empty with
      | unified extended => rfl
      | clash => rfl
      | unfinished => rfl

theorem retry_rename (effort : Nat) {fresh : Nat} {reported : List String}
    {stack : List Choice} (stocks : prover.Stocks ⟨reported, .retrying, stack⟩)
    (tried : Search.Trying ⟨reported, .retrying, stack⟩ →
      prover.Renumbers nextNumber change renumber fresh) :
    (prover.withCounter nextNumber).retry effort (renumber fresh)
        (Search.rename change ⟨reported, .retrying, stack⟩) =
      (prover.retry effort fresh ⟨reported, .retrying, stack⟩).map
        (Turn.rename change renumber) := by
  cases stack with
  | nil => rfl
  | cons choice below =>
      obtain ⟨goal, depth, rest, bindings, candidates⟩ := choice
      cases candidates with
      | nil => rfl
      | cons candidate candidates =>
          obtain ⟨next, renamed⟩ := tried .intro
          obtain ⟨signature, stored⟩ := stocks _ List.mem_cons_self _ List.mem_cons_self
          have clause := renamed signature candidate stored
          have head : (candidate.freshen fresh).head.rename change =
              (candidate.freshen (renumber fresh)).head :=
            congrArg Clause.head clause
          have body : ((candidate.freshen fresh).body.map fun term =>
                Goal.mk term (depth + 1)).map (Goal.rename change) =
              (candidate.freshen (renumber fresh)).body.map (⟨·, depth + 1⟩) := by
            rw [← clause, List.map_map, Clause.rename, List.map_map]
            rfl
          have unified := unify_rename change prover.config.occursCheck effort goal
            (candidate.freshen fresh).head bindings
          rw [head] at unified
          simp only [retry, withCounter, Search.rename, List.map_cons, Choice.rename, unified]
          cases unify prover.config.occursCheck effort goal
              (candidate.freshen fresh).head bindings with
          | unfinished => rfl
          | clash =>
              simp [Attempt.rename, Turn.rename, Search.rename, Phase.rename, Choice.rename,
                Note.rename, next, clause]
          | unified extended =>
              simp [Attempt.rename, Turn.rename, Search.rename, Phase.rename, Choice.rename,
                Note.rename, next, clause, ← body]

theorem step_rename (effort : Nat) {fresh : Nat} {search : Search}
    (stocks : prover.Stocks search)
    (tried : search.Trying → prover.Renumbers nextNumber change renumber fresh) :
    (prover.withCounter nextNumber).step effort (renumber fresh) (search.rename change) =
      (prover.step effort fresh search).map (Turn.rename change renumber) := by
  obtain ⟨reported, phase, stack⟩ := search
  cases phase with
  | finished => rfl
  | retrying => exact retry_rename nextNumber change renumber effort stocks tried
  | proving goals bindings =>
      cases goals with
      | nil =>
          have solution := Search.solutionUnder_rename change reported bindings
          simp [step, Search.rename, Phase.rename, Turn.rename, Item.rename, Note.rename,
            solution]
      | cons goal rest =>
          simp only [step, withCounter, Search.rename, Phase.rename, List.map_cons]
          cases exceeded : prover.config.exceededAt goal.depth with
          | some limit =>
              simp [Goal.rename, exceeded, Turn.stop, Turn.rename, Search.rename,
                Phase.rename, Item.rename, Fault.rename]
          | none =>
              have selected := @select_rename prover nextNumber change renumber effort fresh
                ⟨reported, .proving (goal :: rest) bindings, stack⟩
                { goal with term := bindings.walk goal.term } rest bindings
              simp only [Goal.rename, exceeded, Bindings.walk_rename]
              exact selected

end

/-! ## Renamed calls -/

theorem Stocks.reaches {fresh later : Nat} {search after : Search}
    (stocks : prover.Stocks search) (reached : prover.Reaches fresh search later after) :
    prover.Stocks after :=
  reached.preserves (fun _ current => prover.Stocks current)
    (fun current stepped => current.step stepped) stocks

end Prover

namespace Prover

variable {prover : Prover}

/-- Before it yields anything, a call with this effort tries a candidate with this number. -/
inductive Tries (prover : Prover) : (effort fresh : Nat) → Search → (number : Nat) → Prop where
  | now {effort fresh : Nat} {search : Search} (trying : search.Trying) :
      Tries prover (effort + 1) fresh search fresh
  | later {effort fresh middle number : Nat} {search between : Search}
      (unfinished : search.phase ≠ .finished)
      (stepped : SearchStep prover effort fresh search middle between none)
      (tries : Tries prover effort middle between number) :
      Tries prover (effort + 1) fresh search number

theorem exists_iterate_of_step {effort fresh later : Nat} {search after : Search}
    {item : Option Item} (stepped : SearchStep prover effort fresh search later after item) :
    ∃ trials ≤ 1, later = prover.nextNumber^[trials] fresh := by
  by_cases trying : search.Trying
  · exact ⟨1, Nat.le_refl 1, stepped.later_of_trying trying⟩
  · exact ⟨0, Nat.zero_le 1, stepped.later_of_not_trying trying⟩

theorem Tries.exists_iterate {effort fresh number : Nat} {search : Search}
    (tries : prover.Tries effort fresh search number) :
    ∃ trials < effort, number = prover.nextNumber^[trials] fresh := by
  induction tries with
  | now trying => exact ⟨0, Nat.succ_pos _, rfl⟩
  | later unfinished stepped tries induction =>
      obtain ⟨before, few, rfl⟩ := exists_iterate_of_step stepped
      obtain ⟨trials, fewer, rfl⟩ := induction
      exact ⟨trials + before, by omega, (Function.iterate_add_apply _ _ _ _).symm⟩

/-- A call takes at most as many numbers as it makes steps. -/
theorem exists_iterate_of_next {effort fresh later : Nat} {search after : Search}
    {answer : Option Item}
    (answered : (prover.next effort fresh search).answer? = some (answer, later, after)) :
    ∃ trials ≤ effort, later = prover.nextNumber^[trials] fresh := by
  induction effort generalizing fresh search with
  | zero => cases answered
  | succ effort induction =>
      rcases prover.next_cases effort fresh search with
        ⟨ended, exhausted⟩ | interrupted | ⟨middle, between, item, unfinished, stepped⟩
      · rw [exhausted] at answered
        cases answered
        exact ⟨0, Nat.zero_le _, rfl⟩
      · rw [interrupted] at answered
        cases answered
      · obtain ⟨before, few, rfl⟩ := exists_iterate_of_step stepped
        rw [next_of_searchStep unfinished stepped] at answered
        cases item with
        | some item =>
            cases answered
            exact ⟨before, by omega, rfl⟩
        | none =>
            obtain ⟨trials, fewer, rfl⟩ := induction answered
            exact ⟨trials + before, by omega, (Function.iterate_add_apply _ _ _ _).symm⟩

/-- A call that returns leaves a number beyond those of its trials. -/
theorem Tries.lt (counts : prover.Counts) {effort fresh number later : Nat}
    {search after : Search} {answer : Option Item}
    (tries : prover.Tries effort fresh search number)
    (answered : (prover.next effort fresh search).answer? = some (answer, later, after)) :
    number < later := by
  induction tries with
  | @now effort fresh search trying =>
      rcases prover.next_cases effort fresh search with
        ⟨ended, _⟩ | interrupted | ⟨middle, between, item, unfinished, stepped⟩
      · cases trying
        cases ended
      · rw [interrupted] at answered
        cases answered
      · obtain rfl : item = none := by
          cases trying
          cases stepped <;> rfl
        have moved := stepped.later_of_trying trying
        rw [next_of_searchStep unfinished stepped] at answered
        have onwards := Reaches.fresh_le counts ⟨_, runs_of_next_answer answered⟩
        rwa [moved, counts] at onwards
  | later unfinished stepped _ induction =>
      rw [next_of_searchStep unfinished stepped] at answered
      exact induction answered

section

variable (nextNumber : Nat → Nat) (change : String ↪ String) (renumber : Nat → Nat)

theorem phase_rename_eq_finished_iff {search : Search} :
    (search.rename change).phase = .finished ↔ search.phase = .finished := by
  cases phase : search.phase <;> simp [Search.rename, Phase.rename, phase]

theorem next_rename (effort : Nat) {fresh : Nat} {search : Search}
    (stocks : prover.Stocks search)
    (renumbers : ∀ number, prover.Tries effort fresh search number →
      prover.Renumbers nextNumber change renumber number) :
    (prover.withCounter nextNumber).next effort (renumber fresh) (search.rename change) =
      (prover.next effort fresh search).rename change renumber := by
  induction effort generalizing fresh search with
  | zero => rfl
  | succ effort induction =>
      have renamed := step_rename nextNumber change renumber effort stocks fun trying =>
        renumbers fresh (.now trying)
      by_cases ended : search.phase = .finished
      · have endedAfter := (phase_rename_eq_finished_iff change).mpr ended
        simp [next, ended, endedAfter, Pull.rename]
      · have unfinished := mt (phase_rename_eq_finished_iff change).mp ended
        cases taken : prover.step effort fresh search with
        | none =>
            rw [taken] at renamed
            rw [next_of_no_step taken, next_of_no_step renamed]
            rfl
        | some turn =>
            rw [taken] at renamed
            have stepped := searchStep_of_step taken
            have steppedAfter := searchStep_of_step renamed
            obtain ⟨between, middle, yielded, note⟩ := turn
            rw [next_of_searchStep ended stepped, next_of_searchStep unfinished steppedAfter]
            cases yielded with
            | some item => rfl
            | none =>
                exact induction (stocks.step stepped)
                  fun number tries => renumbers number (.later ended stepped tries)

/-- If the renaming fits as many numbers as the calls can take, then all of them give the
renamed answers. -/
theorem nthNext_rename (effort calls fresh : Nat) {search : Search}
    (stocks : prover.Stocks search)
    (renumbers : ∀ trials < effort * (calls + 1),
      prover.Renumbers nextNumber change renumber (prover.nextNumber^[trials] fresh)) :
    (prover.withCounter nextNumber).nthNext effort calls (renumber fresh)
        (search.rename change) =
      (prover.nthNext effort calls fresh search).rename change renumber := by
  induction calls generalizing fresh search with
  | zero =>
      refine next_rename nextNumber change renumber effort stocks fun number tries => ?_
      obtain ⟨trials, few, rfl⟩ := tries.exists_iterate
      exact renumbers trials (by omega)
  | succ calls induction =>
      rw [Nat.mul_succ] at renumbers
      have first := next_rename nextNumber change renumber effort stocks fun number tries => by
        obtain ⟨trials, few, rfl⟩ := tries.exists_iterate
        exact renumbers trials (few.trans_le (Nat.le_add_left effort _))
      have onwards : ∀ {answer middle between},
          (prover.next effort fresh search).answer? = some (answer, middle, between) →
          (prover.withCounter nextNumber).nthNext effort calls (renumber middle)
              (between.rename change) =
            (prover.nthNext effort calls middle between).rename change renumber := by
        intro answer middle between returned
        have reached : prover.Reaches fresh search middle between :=
          ⟨_, runs_of_next_answer returned⟩
        obtain ⟨before, few, rfl⟩ := exists_iterate_of_next returned
        refine induction _ (stocks.reaches reached) fun trials fewer => ?_
        rw [← Function.iterate_add_apply]
        exact renumbers (trials + before) (Nat.add_lt_add_of_lt_of_le fewer few)
      simp only [nthNext, first]
      cases outcome : prover.next effort fresh search with
      | interrupted => rfl
      | item item middle between => exact onwards (by rw [outcome]; rfl)
      | exhausted middle between => exact onwards (by rw [outcome]; rfl)

variable {nextNumber renumber} in
/-- For a call that returns it is enough that the renaming fits the numbers that were taken
before. -/
theorem answer?_rename (counts : prover.Counts) {effort calls fresh last : Nat}
    {search after : Search} {answer : Option Item} (stocks : prover.Stocks search)
    (renumbers : ∀ number, fresh ≤ number → number < last →
      prover.Renumbers nextNumber change renumber number)
    (answered : (prover.nthNext effort calls fresh search).answer? =
      some (answer, last, after)) :
    ((prover.withCounter nextNumber).nthNext effort calls (renumber fresh)
        (search.rename change)).answer? =
      some (answer.map (Item.rename change), renumber last, after.rename change) := by
  -- A first call that returns is renamed if the search goes on to the last number.
  have first : ∀ {fresh middle : Nat} {search between : Search} {given : Option Item},
      prover.Stocks search → (∀ number, fresh ≤ number → number < last →
        prover.Renumbers nextNumber change renumber number) → middle ≤ last →
      (prover.next effort fresh search).answer? = some (given, middle, between) →
      (prover.withCounter nextNumber).next effort (renumber fresh) (search.rename change) =
        (prover.next effort fresh search).rename change renumber := by
    intro fresh middle search between given stocks renumbers onwards returned
    refine next_rename nextNumber change renumber effort stocks fun number tries => ?_
    obtain ⟨trials, _, made⟩ := tries.exists_iterate
    rw [counts.iterate_eq] at made
    exact renumbers number (by omega) ((tries.lt counts returned).trans_le onwards)
  induction calls generalizing fresh search with
  | zero =>
      simp only [nthNext] at answered ⊢
      rw [first stocks renumbers (Nat.le_refl last) answered, Pull.answer?_rename, answered]
      rfl
  | succ calls induction =>
      obtain ⟨given, middle, between, returned, onwards⟩ := first_of_nthNext_succ answered
      have reached : prover.Reaches fresh search middle between :=
        ⟨_, runs_of_next_answer returned⟩
      have firstRenamed := first stocks renumbers
        ((reaches_of_nthNext onwards).fresh_le counts) returned
      have returnedToo : ((prover.withCounter nextNumber).next effort (renumber fresh)
          (search.rename change)).answer? =
            some (given.map (Item.rename change), renumber middle, between.rename change) := by
        rw [firstRenamed, Pull.answer?_rename, returned]
        rfl
      rw [nthNext_succ_eq returnedToo]
      exact induction (stocks.reaches reached)
        (fun number beyond => renumbers number ((reached.fresh_le counts).trans beyond)) onwards

end

end Prover

end HornLogic
