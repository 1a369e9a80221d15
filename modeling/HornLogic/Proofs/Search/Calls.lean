import HornLogic.Proofs.Search.Run

/-!
# Successive calls for the next item

A search is asked for its next item any number of times.  The call with a
given number yields the item with that number of the search's runs, and it
finds the search exhausted once a run with fewer items has come to the end.
Every solution comes from a state in which all goals of a branch are proved.
-/

namespace HornLogic

/-- The answer to a call that returns: the item, or none if the search has ended,
with the next free number and the search after the call. -/
def Pull.answer? : Pull → Option (Option Item × Nat × Search)
  | .item yielded fresh search => some (some yielded, fresh, search)
  | .exhausted fresh search => some (none, fresh, search)
  | .interrupted => none

theorem Pull.answer?_eq_some_iff {pull : Pull} {later : Nat} {answer : Option Item}
    {after : Search} :
    pull.answer? = some (answer, later, after) ↔
      (∃ item, answer = some item ∧ pull = .item item later after) ∨
        answer = none ∧ pull = .exhausted later after := by
  constructor
  · intro answered
    cases pull with
    | item yielded fresh search =>
        cases answered
        exact .inl ⟨yielded, rfl, rfl⟩
    | exhausted fresh search =>
        cases answered
        exact .inr ⟨rfl, rfl⟩
    | interrupted => cases answered
  · rintro (⟨item, rfl, rfl⟩ | ⟨rfl, rfl⟩)
    · rfl
    · rfl

namespace Prover

/-- What a call for the next item gives after this number of calls before it. -/
def nthNext (prover : Prover) (effort : Nat) : (calls fresh : Nat) → Search → Pull
  | 0, fresh, search => prover.next effort fresh search
  | calls + 1, fresh, search =>
      match prover.next effort fresh search with
      | .item _ fresh search => prover.nthNext effort calls fresh search
      | .exhausted fresh search => prover.nthNext effort calls fresh search
      | .interrupted => .interrupted

variable {prover : Prover}

theorem nthNext_eq_of_answered {effort larger calls fresh : Nat} {search : Search}
    (answered : prover.nthNext effort calls fresh search ≠ .interrupted)
    (enough : effort ≤ larger) :
    prover.nthNext larger calls fresh search =
      prover.nthNext effort calls fresh search := by
  induction calls generalizing fresh search with
  | zero => exact next_eq_of_answered answered enough
  | succ calls induction =>
      have firstAnswered : prover.next effort fresh search ≠ .interrupted := by
        intro interrupted
        simp [nthNext, interrupted] at answered
      have first := next_eq_of_answered firstAnswered enough
      cases answer : prover.next effort fresh search with
      | interrupted => exact absurd answer firstAnswered
      | item item later after =>
          simp only [nthNext, first, answer] at answered ⊢
          exact induction answered
      | exhausted later after =>
          simp only [nthNext, first, answer] at answered ⊢
          exact induction answered

theorem runs_of_next_answer {effort fresh later : Nat} {search after : Search}
    {answer : Option Item}
    (answered : (prover.next effort fresh search).answer? = some (answer, later, after)) :
    prover.Runs fresh search (emitted answer later) later after := by
  rcases Pull.answer?_eq_some_iff.mp answered with ⟨item, rfl, yielded⟩ | ⟨rfl, ended⟩
  · exact runs_of_next_item yielded
  · exact (runs_of_next_exhausted ended).1

theorem nthNext_unique {first second calls fresh : Nat} {search : Search}
    {answer other : Pull}
    (firstAnswered : prover.nthNext first calls fresh search = answer)
    (secondAnswered : prover.nthNext second calls fresh search = other)
    (finished : answer ≠ .interrupted) (otherFinished : other ≠ .interrupted) :
    answer = other := by
  subst firstAnswered
  subst secondAnswered
  rw [← nthNext_eq_of_answered finished (Nat.le_max_left first second)]
  exact nthNext_eq_of_answered otherFinished (Nat.le_max_right first second)

/-- Efforts for the first call and for the calls after it make an effort for all
of them. -/
theorem nthNext_succ_of_answer {first rest calls fresh middle : Nat}
    {search between : Search} {firstAnswer : Option Item} {answer : Pull}
    (firstAnswered : (prover.next first fresh search).answer? =
      some (firstAnswer, middle, between))
    (restAnswered : prover.nthNext rest calls middle between = answer)
    (answered : answer ≠ .interrupted) :
    prover.nthNext (max first rest) (calls + 1) fresh search = answer := by
  have enough : prover.nthNext (max first rest) calls middle between = answer := by
    rw [nthNext_eq_of_answered (by rwa [restAnswered]) (Nat.le_max_right first rest),
      restAnswered]
  rcases Pull.answer?_eq_some_iff.mp firstAnswered with ⟨item, _, outcome⟩ | ⟨_, outcome⟩
  · have firstAgain : prover.next (max first rest) fresh search =
        .item item middle between := by
      rw [next_eq_of_answered (by simp [outcome]) (Nat.le_max_left first rest), outcome]
    simpa only [nthNext, firstAgain] using enough
  · have firstAgain : prover.next (max first rest) fresh search =
        .exhausted middle between := by
      rw [next_eq_of_answered (by simp [outcome]) (Nat.le_max_left first rest), outcome]
    simpa only [nthNext, firstAgain] using enough

theorem nthNext_succ {first rest calls fresh middle : Nat} {search between : Search}
    {item : Item} {answer : Pull}
    (firstAnswered : prover.next first fresh search = .item item middle between)
    (restAnswered : prover.nthNext rest calls middle between = answer)
    (answered : answer ≠ .interrupted) :
    prover.nthNext (max first rest) (calls + 1) fresh search = answer :=
  nthNext_succ_of_answer (Pull.answer?_eq_some_iff.mpr (.inl ⟨item, rfl, firstAnswered⟩))
    restAnswered answered

theorem nthNext_succ_eq {effort fresh middle : Nat} {search between : Search}
    {answer : Option Item}
    (first : (prover.next effort fresh search).answer? = some (answer, middle, between))
    (calls : Nat) :
    prover.nthNext effort (calls + 1) fresh search =
      prover.nthNext effort calls middle between := by
  rcases Pull.answer?_eq_some_iff.mp first with ⟨item, _, outcome⟩ | ⟨_, outcome⟩
  · simp only [nthNext, outcome]
  · simp only [nthNext, outcome]

theorem first_of_nthNext_succ {effort calls fresh later : Nat} {search after : Search}
    {answer : Option Item}
    (answered : (prover.nthNext effort (calls + 1) fresh search).answer? =
      some (answer, later, after)) :
    ∃ given middle between,
      (prover.next effort fresh search).answer? = some (given, middle, between) ∧
        (prover.nthNext effort calls middle between).answer? =
          some (answer, later, after) := by
  cases first : (prover.next effort fresh search).answer? with
  | some outcome => exact ⟨_, _, _, rfl, nthNext_succ_eq first calls ▸ answered⟩
  | none =>
      cases outcome : prover.next effort fresh search with
      | interrupted =>
          simp only [nthNext, outcome] at answered
          cases answered
      | item item middle between => simp [outcome, Pull.answer?] at first
      | exhausted middle between => simp [outcome, Pull.answer?] at first

theorem nthNext_of_finished {effort calls fresh : Nat} {search : Search}
    (ended : search.phase = .finished) :
    prover.nthNext (effort + 1) calls fresh search = .exhausted fresh search := by
  have first : prover.next (effort + 1) fresh search = .exhausted fresh search := by
    simp [next, ended]
  induction calls with
  | zero => exact first
  | succ calls induction => simp [nthNext, first, induction]

theorem reaches_of_nthNext {effort calls fresh later : Nat} {search after : Search}
    {answer : Option Item}
    (answered : (prover.nthNext effort calls fresh search).answer? =
      some (answer, later, after)) :
    prover.Reaches fresh search later after := by
  induction calls generalizing fresh search with
  | zero => exact ⟨_, runs_of_next_answer answered⟩
  | succ calls induction =>
      obtain ⟨given, middle, between, first, onwards⟩ := first_of_nthNext_succ answered
      exact .trans ⟨_, runs_of_next_answer first⟩ (induction onwards)

theorem runs_of_nthNext_item {effort calls fresh later : Nat}
    {search after : Search} {item : Item}
    (answered : prover.nthNext effort calls fresh search = .item item later after) :
    ∃ items, items.length = calls ∧
      prover.Runs fresh search (items ++ [(item, later)]) later after := by
  induction calls generalizing fresh search with
  | zero => exact ⟨[], rfl, runs_of_next_item answered⟩
  | succ calls induction =>
      cases first : prover.next effort fresh search with
      | interrupted => simp [nthNext, first] at answered
      | item firstItem middle between =>
          simp only [nthNext, first] at answered
          obtain ⟨items, length, run⟩ := induction answered
          refine ⟨(firstItem, middle) :: items, by simp [length], ?_⟩
          exact (runs_of_next_item first).trans run
      | exhausted middle between =>
          simp only [nthNext, first] at answered
          obtain ⟨items, length, run⟩ := induction answered
          have ended := (runs_of_next_exhausted first).2
          simpa using (run.eq_of_finished ended).1

/-- The call with a number yields the item with this number of a run. -/
theorem nthNext_item_iff {calls fresh later : Nat} {search : Search} {item : Item} :
    (∃ effort after, prover.nthNext effort calls fresh search = .item item later after) ↔
      ∃ items last after, items[calls]? = some (item, later) ∧
        prover.Runs fresh search items last after := by
  constructor
  · rintro ⟨effort, after, answered⟩
    obtain ⟨items, rfl, run⟩ := runs_of_nthNext_item answered
    exact ⟨_, later, after, by simp, run⟩
  · rintro ⟨items, last, after, found, run⟩
    induction calls generalizing fresh search items with
    | zero =>
        cases items with
        | nil => simp at found
        | cons firstItem items =>
            obtain rfl : firstItem = (item, later) := by simpa using found
            obtain ⟨effort, between, answered, _⟩ := next_item_of_runs run
            exact ⟨effort, between, answered⟩
    | succ calls induction =>
        cases items with
        | nil => simp at found
        | cons firstItem items =>
            obtain ⟨firstItem, middle⟩ := firstItem
            obtain ⟨first, between, firstAnswered, onwards⟩ := next_item_of_runs run
            obtain ⟨rest, final, restAnswered⟩ :=
              induction items (by simpa using found) onwards
            exact ⟨max first rest, final,
              nthNext_succ firstAnswered restAnswered (by simp)⟩

/-- If no call before this many yields a fault, a run with no more items has none
among them. -/
theorem faultless_of_nthNext {calls fresh last : Nat} {search after : Search}
    {items : List (Item × Nat)} (run : prover.Runs fresh search items last after)
    (few : items.length ≤ calls)
    (faultless : ∀ earlier effort cause next later, earlier < calls →
      prover.nthNext effort earlier fresh search ≠ .item (.error cause) next later) :
    ∀ cause number, (.error cause, number) ∉ items := by
  intro cause number member
  obtain ⟨earlier, inItems, found⟩ := List.getElem_of_mem member
  obtain ⟨effort, later, answered⟩ := nthNext_item_iff.mpr
    ⟨items, last, after, List.getElem?_eq_some_iff.mpr ⟨inItems, found⟩, run⟩
  exact faultless earlier effort cause number later (by omega) answered

theorem nthNext_item_of_runs (effort : Nat) {fresh middle later : Nat}
    {search between after : Search} {items : List (Item × Nat)} {item : Item}
    (run : prover.Runs fresh search items middle between)
    (stepped : SearchStep prover effort middle between later after (some item)) :
    ∃ larger, prover.nthNext larger items.length fresh search =
      .item item later after := by
  induction items generalizing fresh search with
  | nil => exact next_item_of_silent run stepped
  | cons firstItem items induction =>
      obtain ⟨firstItem, second⟩ := firstItem
      obtain ⟨first, next, firstAnswered, onwards⟩ := next_item_of_runs run
      obtain ⟨rest, restAnswered⟩ := induction onwards
      exact ⟨max first rest, nthNext_succ firstAnswered restAnswered (by simp)⟩

theorem nthNext_exhausted_iff {calls fresh later : Nat} {search : Search} :
    (∃ effort after, prover.nthNext effort calls fresh search = .exhausted later after) ↔
      ∃ items after, items.length ≤ calls ∧ after.phase = .finished ∧
        prover.Runs fresh search items later after := by
  constructor
  · rintro ⟨effort, after, answered⟩
    induction calls generalizing fresh search with
    | zero =>
        obtain ⟨run, ended⟩ := runs_of_next_exhausted answered
        exact ⟨[], after, Nat.le_refl _, ended, run⟩
    | succ calls induction =>
        cases first : prover.next effort fresh search with
        | interrupted => simp [nthNext, first] at answered
        | item firstItem middle between =>
            simp only [nthNext, first] at answered
            obtain ⟨items, last, length, ended, run⟩ := induction answered
            refine ⟨(firstItem, middle) :: items, last, by simpa using length, ended, ?_⟩
            exact (runs_of_next_item first).trans run
        | exhausted middle between =>
            simp only [nthNext, first] at answered
            obtain ⟨items, last, length, ended, run⟩ := induction answered
            have firstRun := (runs_of_next_exhausted first).1
            exact ⟨items, last, by omega, ended, firstRun.trans run⟩
  · rintro ⟨items, after, length, ended, run⟩
    induction calls generalizing fresh search items with
    | zero =>
        obtain rfl := List.length_eq_zero_iff.mp (Nat.le_zero.mp length)
        obtain ⟨effort, answered⟩ := next_exhausted_of_runs run ended
        exact ⟨effort, after, answered⟩
    | succ calls induction =>
        cases items with
        | nil =>
            obtain ⟨effort, answered⟩ := next_exhausted_of_runs run ended
            refine ⟨effort + 1, after, ?_⟩
            have again := (next_eq_of_answered (by simp [answered])
              (Nat.le_succ effort)).trans answered
            simp only [nthNext, again]
            exact nthNext_of_finished ended
        | cons firstItem items =>
            obtain ⟨firstItem, middle⟩ := firstItem
            obtain ⟨first, between, firstAnswered, onwards⟩ := next_item_of_runs run
            obtain ⟨rest, last, restAnswered⟩ :=
              induction items (by simpa using length) onwards
            exact ⟨max first rest, last,
              nthNext_succ firstAnswered restAnswered (by simp)⟩

/-- The call with this number returns this answer and leaves this next free number. -/
def Gives (prover : Prover) (fresh : Nat) (search : Search) (calls : Nat)
    (answer : Option Item) (next : Nat) : Prop :=
  ∃ effort after, (prover.nthNext effort calls fresh search).answer? =
    some (answer, next, after)

theorem Gives.unique {fresh calls next otherNext : Nat} {search : Search}
    {answer other : Option Item} (gives : prover.Gives fresh search calls answer next)
    (otherGives : prover.Gives fresh search calls other otherNext) :
    answer = other ∧ next = otherNext := by
  obtain ⟨effort, after, answered⟩ := gives
  obtain ⟨otherEffort, otherAfter, otherAnswered⟩ := otherGives
  have returns : prover.nthNext effort calls fresh search ≠ .interrupted := by
    intro interrupted
    rw [interrupted] at answered
    cases answered
  have otherReturns : prover.nthNext otherEffort calls fresh search ≠ .interrupted := by
    intro interrupted
    rw [interrupted] at otherAnswered
    cases otherAnswered
  rw [nthNext_unique rfl rfl returns otherReturns, otherAnswered] at answered
  cases answered
  exact ⟨rfl, rfl⟩

/-- The answer to a call is an item of a run, or the end of one. -/
theorem gives_iff {fresh calls next : Nat} {search : Search} {answer : Option Item} :
    prover.Gives fresh search calls answer next ↔
      (∃ item items last after, answer = some item ∧ items[calls]? = some (item, next) ∧
        prover.Runs fresh search items last after) ∨
      answer = none ∧ ∃ items after, items.length ≤ calls ∧ after.phase = .finished ∧
        prover.Runs fresh search items next after := by
  constructor
  · rintro ⟨effort, after, answered⟩
    rcases Pull.answer?_eq_some_iff.mp answered with ⟨item, rfl, yielded⟩ | ⟨rfl, ended⟩
    · obtain ⟨items, last, final, found, run⟩ := nthNext_item_iff.mp ⟨effort, after, yielded⟩
      exact .inl ⟨item, items, last, final, rfl, found, run⟩
    · exact .inr ⟨rfl, nthNext_exhausted_iff.mp ⟨effort, after, ended⟩⟩
  · rintro (⟨item, items, last, final, rfl, run⟩ | ⟨rfl, run⟩)
    · obtain ⟨effort, after, yielded⟩ := nthNext_item_iff.mpr ⟨items, last, final, run⟩
      exact ⟨effort, after, Pull.answer?_eq_some_iff.mpr (.inl ⟨item, rfl, yielded⟩)⟩
    · obtain ⟨effort, after, ended⟩ := nthNext_exhausted_iff.mpr run
      exact ⟨effort, after, Pull.answer?_eq_some_iff.mpr (.inr ⟨rfl, ended⟩)⟩

/-- The answers to a number of calls, with the next free number and the search after
them. -/
inductive Answers (prover : Prover) (fresh : Nat) (search : Search) :
    List (Option Item) → Nat → Search → Prop where
  | none : Answers prover fresh search [] fresh search
  | more {effort middle later : Nat} {between after : Search}
      {answers : List (Option Item)} {answer : Option Item} :
      Answers prover fresh search answers middle between →
      (prover.next effort middle between).answer? = some (answer, later, after) →
      Answers prover fresh search (answers ++ [answer]) later after

theorem Answers.nthNext {fresh middle : Nat} {search between : Search}
    {answers : List (Option Item)}
    (answered : prover.Answers fresh search answers middle between) {effort calls : Nat}
    {pull : Pull} (onwards : prover.nthNext effort calls middle between = pull)
    (returns : pull ≠ .interrupted) :
    ∃ larger, prover.nthNext larger (answers.length + calls) fresh search = pull := by
  induction answered generalizing effort calls with
  | none => exact ⟨effort, by simpa using onwards⟩
  | @more lastEffort _ _ _ _ answers answer _ last induction =>
      obtain ⟨larger, same⟩ := induction (nthNext_succ_of_answer last onwards returns)
      refine ⟨larger, ?_⟩
      rwa [List.length_append, List.length_singleton, Nat.add_assoc, Nat.add_comm 1 calls]

theorem Answers.getElem? {fresh later : Nat} {search after : Search}
    {answers : List (Option Item)}
    (answered : prover.Answers fresh search answers later after) {calls : Nat}
    {answer : Option Item} (found : answers[calls]? = some answer) :
    ∃ effort number state,
      (prover.nthNext effort calls fresh search).answer? = some (answer, number, state) := by
  induction answered with
  | none => simp at found
  | @more effort middle next between state earlier latest before last induction =>
      by_cases inside : calls < earlier.length
      · exact induction (by rwa [List.getElem?_append_left inside] at found)
      · obtain ⟨rfl, rfl⟩ : calls = earlier.length ∧ latest = answer := by
          rw [List.getElem?_append_right (Nat.le_of_not_lt inside)] at found
          have bound := (List.getElem?_eq_some_iff.mp found).1
          have atEnd : calls = earlier.length := by
            simp at bound
            omega
          exact ⟨atEnd, by simpa [atEnd] using found⟩
        have returns : prover.next effort middle between ≠ .interrupted := by
          intro interrupted
          rw [interrupted] at last
          cases last
        obtain ⟨larger, same⟩ := @Answers.nthNext _ _ _ _ _ _ before effort 0 _ rfl returns
        exact ⟨larger, next, state, by rw [← last]; exact congrArg Pull.answer? same⟩

theorem step_of_next_item {effort fresh later : Nat} {search after : Search} {item : Item}
    (answered : prover.next effort fresh search = .item item later after) :
    ∃ effort middle between, prover.Reaches fresh search middle between ∧
      SearchStep prover effort middle between later after (some item) := by
  induction effort generalizing fresh search with
  | zero => simp [next] at answered
  | succ effort induction =>
      rcases prover.next_cases effort fresh search with
        ⟨_, exhausted⟩ | interrupted | ⟨middle, between, yielded, unfinished, stepped⟩
      · simp [exhausted] at answered
      · simp [interrupted] at answered
      · rw [next_of_searchStep unfinished stepped] at answered
        cases yielded with
        | none =>
            obtain ⟨lastEffort, last, before, reached, lastStep⟩ := induction answered
            have firstStep : prover.Reaches fresh search middle between :=
              ⟨[], .silent stepped (.refl _ _)⟩
            exact ⟨lastEffort, last, before, firstStep.trans reached, lastStep⟩
        | some yielded =>
            cases answered
            exact ⟨effort, fresh, search, ⟨[], .refl _ _⟩, stepped⟩

theorem step_of_nthNext_item {effort calls fresh later : Nat} {search after : Search}
    {item : Item}
    (answered : prover.nthNext effort calls fresh search = .item item later after) :
    ∃ effort middle between, prover.Reaches fresh search middle between ∧
      SearchStep prover effort middle between later after (some item) := by
  induction calls generalizing fresh search with
  | zero => exact step_of_next_item answered
  | succ calls induction =>
      have onwards : ∀ {middle : Nat} {between : Search},
          prover.Reaches fresh search middle between →
          prover.nthNext effort calls middle between = .item item later after →
          ∃ effort middle between, prover.Reaches fresh search middle between ∧
            SearchStep prover effort middle between later after (some item) := by
        intro middle between firstRun answered
        obtain ⟨lastEffort, last, before, reached, lastStep⟩ := induction answered
        exact ⟨lastEffort, last, before, firstRun.trans reached, lastStep⟩
      cases first : prover.next effort fresh search with
      | interrupted => simp [nthNext, first] at answered
      | item firstItem middle between =>
          simp only [nthNext, first] at answered
          exact onwards ⟨_, runs_of_next_item first⟩ answered
      | exhausted middle between =>
          simp only [nthNext, first] at answered
          exact onwards ⟨_, (runs_of_next_exhausted first).1⟩ answered

/-- A solution is that of the bindings with which the search has just proved
all goals of a branch. -/
theorem branch_of_nthNext_solution {effort calls fresh later : Nat}
    {search after : Search} {solution : Solution}
    (answered : prover.nthNext effort calls fresh search =
      .item (.ok solution) later after) :
    ∃ bindings,
      prover.Reaches fresh search later { after with phase := .proving [] bindings } ∧
        solution = Search.solutionUnder search.reported bindings := by
  obtain ⟨_, _, _, reached, lastStep⟩ := step_of_nthNext_item answered
  cases lastStep with
  | @answer reported stack bindings =>
      exact ⟨bindings, reached, by rw [← reached.reported_eq]⟩

theorem branch_of_next_solution {effort fresh later : Nat} {search after : Search}
    {solution : Solution}
    (answered : prover.next effort fresh search = .item (.ok solution) later after) :
    ∃ bindings,
      prover.Reaches fresh search later { after with phase := .proving [] bindings } ∧
        solution = Search.solutionUnder search.reported bindings :=
  @branch_of_nthNext_solution _ effort 0 _ _ _ _ _ answered

theorem finished_of_nthNext_fault {effort calls fresh later : Nat} {search after : Search}
    {fault : Fault}
    (answered : prover.nthNext effort calls fresh search =
      .item (.error fault) later after) :
    after.phase = .finished := by
  obtain ⟨_, _, _, _, lastStep⟩ := step_of_nthNext_item answered
  cases lastStep with
  | tooDeep => rfl
  | notCallable => rfl

/-- After a fault every call finds the search exhausted. -/
theorem nthNext_after_fault {effort calls fresh later : Nat} {search after : Search}
    {fault : Fault}
    (answered : prover.nthNext effort calls fresh search =
      .item (.error fault) later after) {more : Nat} (afterwards : calls < more) :
    ∃ effort last, prover.nthNext effort more fresh search = .exhausted later last := by
  have ended := finished_of_nthNext_fault answered
  obtain ⟨items, length, run⟩ := runs_of_nthNext_item answered
  apply nthNext_exhausted_iff.mpr
  exact ⟨_, after, by simp [length]; omega, ended, run⟩

end Prover

end HornLogic
