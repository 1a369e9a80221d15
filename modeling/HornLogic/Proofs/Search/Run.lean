import HornLogic.Proofs.Unification.Step
import HornLogic.Search.Stream
import Mathlib.Data.Nat.SuccPred

/-!
# Runs of a search

`SearchStep` lists everything that one step of a search can do, with the
conditions under which it does it.  A run is a sequence of steps; it yields
items, each with the next free number at that moment.  Asking a search again
and again for its next item gives the items of its runs, and then the end once
a run has come to it.
-/

namespace HornLogic

theorem Config.exceededAt_eq_none_iff {config : Config} {depth : Nat} :
    config.exceededAt depth = none ↔
      ∀ limit, config.maxDepth = some limit → depth ≤ limit := by
  unfold exceededAt
  cases config.maxDepth <;> simp

theorem Config.exceededAt_of_unlimited {config : Config} (unlimited : config.maxDepth = none)
    (depth : Nat) : config.exceededAt depth = none := by
  rw [exceededAt_eq_none_iff, unlimited]
  simp

/-- What a step with this effort and this next free number makes of a search:
the next free number after it, the search after it, and the item it yields. -/
inductive SearchStep (prover : Prover) (effort fresh : Nat) :
    Search → Nat → Search → Option Item → Prop where
  | idle {reported : List String} {stack : List Choice} :
      SearchStep prover effort fresh ⟨reported, .finished, stack⟩
        fresh ⟨reported, .finished, stack⟩ none
  /-- All goals of a branch are proved. -/
  | answer {reported : List String} {stack : List Choice} {bindings : Bindings} :
      SearchStep prover effort fresh ⟨reported, .proving [] bindings, stack⟩
        fresh ⟨reported, .retrying, stack⟩
        (some (.ok (Search.solutionUnder reported bindings)))
  | tooDeep {reported : List String} {stack : List Choice} {goal : Goal}
      {rest : List Goal} {bindings : Bindings} {limit : Nat}
      (exceeded : prover.config.exceededAt goal.depth = some limit) :
      SearchStep prover effort fresh
        ⟨reported, .proving (goal :: rest) bindings, stack⟩
        fresh ⟨reported, .finished, []⟩ (some (.error (.depthLimit limit)))
  | notCallable {reported : List String} {stack : List Choice} {goal : Goal}
      {rest : List Goal} {bindings : Bindings}
      (allowed : prover.config.exceededAt goal.depth = none)
      (form : (bindings.walk goal.term).goalForm = .notCallable) :
      SearchStep prover effort fresh
        ⟨reported, .proving (goal :: rest) bindings, stack⟩
        fresh ⟨reported, .finished, []⟩
        (some (.error (.notCallable ((bindings.walk goal.term).substitute bindings))))
  | both {reported : List String} {stack : List Choice} {goal : Goal}
      {rest : List Goal} {bindings : Bindings} {left right : Term}
      (allowed : prover.config.exceededAt goal.depth = none)
      (form : (bindings.walk goal.term).goalForm = .both left right) :
      SearchStep prover effort fresh
        ⟨reported, .proving (goal :: rest) bindings, stack⟩
        fresh
        ⟨reported, .proving (⟨left, goal.depth⟩ :: ⟨right, goal.depth⟩ :: rest) bindings,
          stack⟩
        none
  /-- The two terms of a test unify. -/
  | refuted {reported : List String} {stack : List Choice} {goal : Goal}
      {rest : List Goal} {bindings extended : Bindings} {left right : Term}
      (allowed : prover.config.exceededAt goal.depth = none)
      (form : (bindings.walk goal.term).goalForm = .notUnifiable left right)
      (unifies : unify prover.config.occursCheck effort (left.substitute bindings)
        (right.substitute bindings) .empty = .unified extended) :
      SearchStep prover effort fresh
        ⟨reported, .proving (goal :: rest) bindings, stack⟩
        fresh ⟨reported, .retrying, stack⟩ none
  /-- The two terms of a test do not unify. -/
  | passed {reported : List String} {stack : List Choice} {goal : Goal}
      {rest : List Goal} {bindings : Bindings} {left right : Term}
      (allowed : prover.config.exceededAt goal.depth = none)
      (form : (bindings.walk goal.term).goalForm = .notUnifiable left right)
      (clashes : unify prover.config.occursCheck effort (left.substitute bindings)
        (right.substitute bindings) .empty = .clash) :
      SearchStep prover effort fresh
        ⟨reported, .proving (goal :: rest) bindings, stack⟩
        fresh ⟨reported, .proving rest bindings, stack⟩ none
  | noClauses {reported : List String} {stack : List Choice} {goal : Goal}
      {rest : List Goal} {bindings : Bindings} {signature : Signature}
      (allowed : prover.config.exceededAt goal.depth = none)
      (form : (bindings.walk goal.term).goalForm = .call signature)
      (noCandidates : prover.candidates signature = []) :
      SearchStep prover effort fresh
        ⟨reported, .proving (goal :: rest) bindings, stack⟩
        fresh ⟨reported, .retrying, stack⟩ none
  | called {reported : List String} {stack : List Choice} {goal : Goal}
      {rest : List Goal} {bindings : Bindings} {signature : Signature}
      (allowed : prover.config.exceededAt goal.depth = none)
      (form : (bindings.walk goal.term).goalForm = .call signature)
      (someCandidates : prover.candidates signature ≠ []) :
      SearchStep prover effort fresh
        ⟨reported, .proving (goal :: rest) bindings, stack⟩
        fresh
        ⟨reported, .retrying,
          ⟨bindings.walk goal.term, goal.depth, rest, bindings,
            prover.candidates signature⟩ :: stack⟩
        none
  | ended {reported : List String} :
      SearchStep prover effort fresh ⟨reported, .retrying, []⟩
        fresh ⟨reported, .finished, []⟩ none
  | dropped {reported : List String} {stack : List Choice} {goal : Term}
      {depth : Nat} {rest : List Goal} {bindings : Bindings} :
      SearchStep prover effort fresh
        ⟨reported, .retrying, ⟨goal, depth, rest, bindings, []⟩ :: stack⟩
        fresh ⟨reported, .retrying, stack⟩ none
  /-- The head of a candidate unifies with the goal. -/
  | entered {reported : List String} {stack : List Choice} {goal : Term}
      {depth : Nat} {rest : List Goal} {bindings extended : Bindings}
      {candidate : Clause} {candidates : List Clause}
      (unifies : unify prover.config.occursCheck effort goal
        (candidate.freshen fresh).head bindings = .unified extended) :
      SearchStep prover effort fresh
        ⟨reported, .retrying,
          ⟨goal, depth, rest, bindings, candidate :: candidates⟩ :: stack⟩
        (prover.nextNumber fresh)
        ⟨reported,
          .proving ((candidate.freshen fresh).body.map (⟨·, depth + 1⟩) ++ rest) extended,
          ⟨goal, depth, rest, bindings, candidates⟩ :: stack⟩
        none
  /-- The head of a candidate does not unify with the goal. -/
  | skipped {reported : List String} {stack : List Choice} {goal : Term}
      {depth : Nat} {rest : List Goal} {bindings : Bindings}
      {candidate : Clause} {candidates : List Clause}
      (clashes : unify prover.config.occursCheck effort goal
        (candidate.freshen fresh).head bindings = .clash) :
      SearchStep prover effort fresh
        ⟨reported, .retrying,
          ⟨goal, depth, rest, bindings, candidate :: candidates⟩ :: stack⟩
        (prover.nextNumber fresh)
        ⟨reported, .retrying, ⟨goal, depth, rest, bindings, candidates⟩ :: stack⟩
        none

inductive Search.Trying : Search → Prop where
  | intro {reported : List String} {stack : List Choice} {goal : Term} {depth : Nat}
      {rest : List Goal} {bindings : Bindings} {candidate : Clause}
      {candidates : List Clause} :
      Trying ⟨reported, .retrying,
        ⟨goal, depth, rest, bindings, candidate :: candidates⟩ :: stack⟩

/-- Every trial takes a number. -/
theorem SearchStep.later_of_trying {prover : Prover} {effort fresh later : Nat}
    {search after : Search} {item : Option Item}
    (stepped : SearchStep prover effort fresh search later after item)
    (trying : search.Trying) : later = prover.nextNumber fresh := by
  cases trying
  cases stepped with
  | entered unifies => rfl
  | skipped clashes => rfl

theorem SearchStep.later_of_not_trying {prover : Prover} {effort fresh later : Nat}
    {search after : Search} {item : Option Item}
    (stepped : SearchStep prover effort fresh search later after item)
    (resting : ¬ search.Trying) : later = fresh := by
  cases stepped with
  | entered unifies => exact absurd .intro resting
  | skipped clashes => exact absurd .intro resting
  | _ => rfl

namespace Prover

variable {prover : Prover}

theorem searchStep_of_step {effort fresh : Nat} {search : Search} {turn : Turn}
    (stepped : prover.step effort fresh search = some turn) :
    SearchStep prover effort fresh search turn.fresh turn.search turn.item := by
  obtain ⟨reported, phase, stack⟩ := search
  cases phase with
  | finished =>
      obtain rfl : _ = turn := by simpa [step] using stepped
      exact .idle
  | retrying =>
      cases stack with
      | nil =>
          obtain rfl : _ = turn := by simpa [step, retry] using stepped
          exact .ended
      | cons choice below =>
          obtain ⟨goal, depth, rest, bindings, candidates⟩ := choice
          cases candidates with
          | nil =>
              obtain rfl : _ = turn := by simpa [step, retry] using stepped
              exact .dropped
          | cons candidate candidates =>
              cases attempt : unify prover.config.occursCheck effort goal
                  (candidate.freshen fresh).head bindings with
              | unfinished => simp [step, retry, attempt] at stepped
              | unified extended =>
                  obtain rfl : _ = turn := by simpa [step, retry, attempt] using stepped
                  exact .entered attempt
              | clash =>
                  obtain rfl : _ = turn := by simpa [step, retry, attempt] using stepped
                  exact .skipped attempt
  | proving goals bindings =>
      cases goals with
      | nil =>
          obtain rfl : _ = turn := by simpa [step] using stepped
          exact .answer
      | cons goal rest =>
          cases exceeded : prover.config.exceededAt goal.depth with
          | some limit =>
              obtain rfl : _ = turn := by simpa [step, exceeded] using stepped
              exact .tooDeep exceeded
          | none =>
              cases form : (bindings.walk goal.term).goalForm with
              | notCallable =>
                  obtain rfl : _ = turn := by
                    simpa [step, exceeded, select, form] using stepped
                  exact .notCallable exceeded form
              | both left right =>
                  obtain rfl : _ = turn := by
                    simpa [step, exceeded, select, form] using stepped
                  exact .both exceeded form
              | call signature =>
                  cases candidates : prover.candidates signature with
                  | nil =>
                      obtain rfl : _ = turn := by
                        simpa [step, exceeded, select, form, call, candidates]
                          using stepped
                      exact .noClauses exceeded form candidates
                  | cons first others =>
                      obtain rfl : _ = turn := by
                        simpa [step, exceeded, select, form, call, candidates]
                          using stepped
                      rw [← candidates]
                      exact .called exceeded form (by simp [candidates])
              | notUnifiable left right =>
                  cases attempt : unify prover.config.occursCheck effort
                      (left.substitute bindings) (right.substitute bindings) .empty with
                  | unfinished =>
                      simp [step, exceeded, select, form, attempt] at stepped
                  | unified extended =>
                      obtain rfl : _ = turn := by
                        simpa [step, exceeded, select, form, attempt] using stepped
                      exact .refuted exceeded form attempt
                  | clash =>
                      obtain rfl : _ = turn := by
                        simpa [step, exceeded, select, form, attempt] using stepped
                      exact .passed exceeded form attempt

theorem step_of_searchStep {effort fresh later : Nat} {search after : Search}
    {item : Option Item}
    (listed : SearchStep prover effort fresh search later after item) :
    ∃ note, prover.step effort fresh search = some ⟨after, later, item, note⟩ := by
  cases listed with
  | idle => exact ⟨_, rfl⟩
  | answer => exact ⟨_, rfl⟩
  | tooDeep exceeded => exact ⟨none, by simp [step, exceeded, Turn.stop]⟩
  | notCallable allowed form =>
      exact ⟨none, by simp [step, allowed, select, form, Turn.stop]⟩
  | both allowed form =>
      exact ⟨none, by simp [step, allowed, select, form, Turn.goOn]⟩
  | refuted allowed form unifies =>
      exact ⟨none, by simp [step, allowed, select, form, unifies, Turn.goOn]⟩
  | passed allowed form clashes =>
      exact ⟨none, by simp [step, allowed, select, form, clashes, Turn.goOn]⟩
  | noClauses allowed form noCandidates =>
      exact ⟨_, by simp [step, allowed, select, form, call, noCandidates]; rfl⟩
  | @called reported stack goal rest bindings signature allowed form someCandidates =>
      cases candidates : prover.candidates signature with
      | nil => exact absurd candidates someCandidates
      | cons first others =>
          exact ⟨none, by simp [step, allowed, select, form, call, candidates]⟩
  | ended => exact ⟨none, rfl⟩
  | dropped => exact ⟨none, rfl⟩
  | entered unifies => exact ⟨_, by simp [step, retry, unifies]; rfl⟩
  | skipped clashes => exact ⟨_, by simp [step, retry, clashes]; rfl⟩

end Prover

theorem SearchStep.mono {prover : Prover} {effort larger fresh later : Nat}
    {search after : Search} {item : Option Item}
    (stepped : SearchStep prover effort fresh search later after item)
    (enough : effort ≤ larger) :
    SearchStep prover larger fresh search later after item := by
  cases stepped with
  | idle => exact .idle
  | answer => exact .answer
  | tooDeep exceeded => exact .tooDeep exceeded
  | notCallable allowed form => exact .notCallable allowed form
  | both allowed form => exact .both allowed form
  | refuted allowed form unifies =>
      exact .refuted allowed form (unify_eq_of_answered unifies (by simp) enough)
  | passed allowed form clashes =>
      exact .passed allowed form (unify_eq_of_answered clashes (by simp) enough)
  | noClauses allowed form noCandidates => exact .noClauses allowed form noCandidates
  | called allowed form someCandidates => exact .called allowed form someCandidates
  | ended => exact .ended
  | dropped => exact .dropped
  | entered unifies =>
      exact .entered (unify_eq_of_answered unifies (by simp) enough)
  | skipped clashes =>
      exact .skipped (unify_eq_of_answered clashes (by simp) enough)

/-- A search takes one step only, whatever the effort. -/
theorem SearchStep.unique {prover : Prover} {effort other fresh later otherLater : Nat}
    {search after otherAfter : Search} {item otherItem : Option Item}
    (stepped : SearchStep prover effort fresh search later after item)
    (otherStepped : SearchStep prover other fresh search otherLater otherAfter otherItem) :
    later = otherLater ∧ after = otherAfter ∧ item = otherItem := by
  obtain ⟨note, taken⟩ := Prover.step_of_searchStep
    (stepped.mono (Nat.le_max_left effort other))
  obtain ⟨otherNote, otherTaken⟩ := Prover.step_of_searchStep
    (otherStepped.mono (Nat.le_max_right effort other))
  obtain ⟨rfl, rfl, rfl, _⟩ := Turn.mk.inj (Option.some.inj (taken.symm.trans otherTaken))
  exact ⟨rfl, rfl, rfl⟩

namespace Prover

variable {prover : Prover}

/-! ## Runs -/

/-- What a step yields, with the next free number. -/
def emitted (item : Option Item) (fresh : Nat) : List (Item × Nat) :=
  (item.map fun item => (item, fresh)).toList

/-- Steps from one search to another, with the items that they yield. -/
inductive Runs (prover : Prover) :
    Nat → Search → List (Item × Nat) → Nat → Search → Prop where
  | refl (fresh : Nat) (search : Search) : Runs prover fresh search [] fresh search
  | step {effort fresh middle last : Nat} {search between after : Search}
      {item : Option Item} {items : List (Item × Nat)} :
      SearchStep prover effort fresh search middle between item →
      Runs prover middle between items last after →
      Runs prover fresh search (emitted item middle ++ items) last after

/-- A search is reached from another one. -/
def Reaches (prover : Prover) (fresh : Nat) (search : Search) (later : Nat)
    (after : Search) : Prop :=
  ∃ items, prover.Runs fresh search items later after

theorem Runs.trans {fresh middle last : Nat} {search between after : Search}
    {first second : List (Item × Nat)}
    (firstRun : prover.Runs fresh search first middle between)
    (secondRun : prover.Runs middle between second last after) :
    prover.Runs fresh search (first ++ second) last after := by
  induction firstRun with
  | refl => exact secondRun
  | step stepped _ induction =>
      rw [List.append_assoc]
      exact .step stepped (induction secondRun)

theorem Runs.single (effort : Nat) {fresh middle : Nat} {search between : Search}
    {item : Option Item}
    (stepped : SearchStep prover effort fresh search middle between item) :
    prover.Runs fresh search (emitted item middle) middle between := by
  have run := Runs.step stepped (.refl middle between)
  rwa [List.append_nil] at run

theorem Runs.silent {effort fresh middle last : Nat} {search between after : Search}
    {items : List (Item × Nat)}
    (stepped : SearchStep prover effort fresh search middle between none)
    (run : prover.Runs middle between items last after) :
    prover.Runs fresh search items last after :=
  .step stepped run

/-- What every step keeps, a run keeps. -/
theorem Runs.preserves (kept : Nat → Search → Prop)
    (preserves : ∀ {effort fresh later : Nat} {search after : Search}
      {item : Option Item}, kept fresh search →
        SearchStep prover effort fresh search later after item → kept later after)
    {fresh last : Nat} {search after : Search} {items : List (Item × Nat)}
    (holds : kept fresh search)
    (run : prover.Runs fresh search items last after) : kept last after := by
  induction run with
  | refl => exact holds
  | step stepped _ induction => exact induction (preserves holds stepped)

theorem Reaches.preserves (kept : Nat → Search → Prop)
    (preserves : ∀ {effort fresh later : Nat} {search after : Search}
      {item : Option Item}, kept fresh search →
        SearchStep prover effort fresh search later after item → kept later after)
    {fresh last : Nat} {search after : Search} (holds : kept fresh search)
    (reached : prover.Reaches fresh search last after) : kept last after := by
  obtain ⟨items, run⟩ := reached
  exact run.preserves kept preserves holds

theorem Reaches.trans {fresh middle last : Nat} {search between after : Search}
    (first : prover.Reaches fresh search middle between)
    (second : prover.Reaches middle between last after) :
    prover.Reaches fresh search last after := by
  obtain ⟨firstItems, firstRun⟩ := first
  obtain ⟨secondItems, secondRun⟩ := second
  exact ⟨_, firstRun.trans secondRun⟩

theorem Reaches.reported_eq {fresh last : Nat} {search after : Search}
    (reached : prover.Reaches fresh search last after) :
    after.reported = search.reported := by
  refine reached.preserves (fun _ current => current.reported = search.reported)
    ?_ rfl
  intro effort current later before next item same stepped
  cases stepped <;> exact same

/-- The counter moves on once for every trial. -/
theorem Reaches.exists_iterate {fresh last : Nat} {search after : Search}
    (reached : prover.Reaches fresh search last after) :
    ∃ trials, last = prover.nextNumber^[trials] fresh := by
  refine reached.preserves (fun number _ => ∃ trials, number = prover.nextNumber^[trials] fresh)
    ?_ ⟨0, rfl⟩
  intro effort current later before next item moved stepped
  obtain ⟨trials, rfl⟩ := moved
  cases stepped with
  | entered _ => exact ⟨trials + 1, (Function.iterate_succ_apply' _ _ _).symm⟩
  | skipped _ => exact ⟨trials + 1, (Function.iterate_succ_apply' _ _ _).symm⟩
  | _ => exact ⟨trials, rfl⟩

/-- The counter adds one each time, so that no number comes back. -/
def Counts (prover : Prover) : Prop :=
  ∀ number, prover.nextNumber number = number + 1

theorem Counts.iterate_eq (counts : prover.Counts) (trials fresh : Nat) :
    prover.nextNumber^[trials] fresh = fresh + trials := by
  have same : prover.nextNumber = Nat.succ := funext counts
  rw [same, Nat.succ_iterate]

theorem counts_of_knowledgeBase (kb : KnowledgeBase) (config : Config) :
    (kb.prover config).Counts :=
  fun _ => rfl

/-- The numbers that are used are never given back. -/
theorem Reaches.fresh_le (counts : prover.Counts) {fresh last : Nat} {search after : Search}
    (reached : prover.Reaches fresh search last after) : fresh ≤ last := by
  obtain ⟨trials, rfl⟩ := reached.exists_iterate
  rw [counts.iterate_eq]
  exact Nat.le_add_right fresh trials

/-- Of two searches that are reached from one search, one is reached from the other. -/
theorem Reaches.linear {fresh middle last : Nat} {search between after : Search}
    (first : prover.Reaches fresh search middle between)
    (second : prover.Reaches fresh search last after) :
    prover.Reaches middle between last after ∨ prover.Reaches last after middle between := by
  obtain ⟨items, run⟩ := first
  obtain ⟨others, otherRun⟩ := second
  induction run generalizing others with
  | refl => exact .inl ⟨others, otherRun⟩
  | step stepped rest induction =>
      cases otherRun with
      | refl => exact .inr ⟨_, .step stepped rest⟩
      | step otherStepped otherRest =>
          obtain ⟨rfl, rfl, _⟩ := stepped.unique otherStepped
          exact induction _ otherRest

theorem Reaches.eq_of_trying (counts : prover.Counts) {number : Nat} {first second : Search}
    (reached : prover.Reaches number first number second) (trying : first.Trying) :
    first = second := by
  obtain ⟨items, run⟩ := reached
  cases run with
  | refl => rfl
  | step stepped rest =>
      have onwards := Reaches.fresh_le counts ⟨_, rest⟩
      rw [stepped.later_of_trying trying, counts] at onwards
      exact absurd onwards (Nat.not_succ_le_self number)

/-- No two trials are made with one number. -/
theorem Reaches.unique_of_trying (counts : prover.Counts) {fresh number : Nat}
    {search first second : Search}
    (firstReached : prover.Reaches fresh search number first)
    (secondReached : prover.Reaches fresh search number second)
    (firstTrying : first.Trying) (secondTrying : second.Trying) : first = second := by
  rcases firstReached.linear secondReached with onwards | onwards
  · exact onwards.eq_of_trying counts firstTrying
  · exact (onwards.eq_of_trying counts secondTrying).symm

/-! ## The next item -/

theorem next_of_searchStep {effort fresh later : Nat} {search after : Search}
    {item : Option Item} (unfinished : search.phase ≠ .finished)
    (stepped : SearchStep prover effort fresh search later after item) :
    prover.next (effort + 1) fresh search =
      match item with
      | some item => .item item later after
      | none => prover.next effort later after := by
  obtain ⟨note, taken⟩ := step_of_searchStep stepped
  obtain ⟨reported, phase, stack⟩ := search
  cases phase with
  | finished => exact absurd rfl unfinished
  | retrying => cases item <;> simp [next, taken]
  | proving goals bindings => cases item <;> simp [next, taken]

/-- Asking for the next item takes a step, unless the search has ended or the
effort does not suffice. -/
theorem next_cases (effort fresh : Nat) (search : Search) :
    (search.phase = .finished ∧
      prover.next (effort + 1) fresh search = .exhausted fresh search) ∨
    prover.next (effort + 1) fresh search = .interrupted ∨
    ∃ later after item, search.phase ≠ .finished ∧
      SearchStep prover effort fresh search later after item := by
  by_cases ended : search.phase = .finished
  · exact .inl ⟨ended, by simp [next, ended]⟩
  · cases taken : prover.step effort fresh search with
    | none =>
        obtain ⟨reported, phase, stack⟩ := search
        cases phase with
        | finished => exact absurd rfl ended
        | retrying => exact .inr (.inl (by simp [next, taken]))
        | proving goals bindings => exact .inr (.inl (by simp [next, taken]))
    | some turn => exact .inr (.inr ⟨_, _, _, ended, searchStep_of_step taken⟩)

theorem next_of_no_step {effort fresh : Nat} {search : Search}
    (stuck : prover.step effort fresh search = none) :
    prover.next (effort + 1) fresh search = .interrupted := by
  rcases prover.next_cases effort fresh search with
    ⟨ended, _⟩ | interrupted | ⟨later, after, item, _, stepped⟩
  · simp [step, ended] at stuck
  · exact interrupted
  · obtain ⟨note, taken⟩ := step_of_searchStep stepped
    simp [stuck] at taken

theorem next_eq_of_answered {effort larger fresh : Nat} {search : Search}
    (answered : prover.next effort fresh search ≠ .interrupted)
    (enough : effort ≤ larger) :
    prover.next larger fresh search = prover.next effort fresh search := by
  induction effort generalizing larger fresh search with
  | zero => simp [next] at answered
  | succ effort induction =>
      obtain ⟨larger, rfl⟩ : ∃ rest, larger = rest + 1 :=
        Nat.exists_eq_succ_of_ne_zero (by omega)
      rcases prover.next_cases effort fresh search with
        ⟨ended, _⟩ | interrupted | ⟨later, after, item, unfinished, stepped⟩
      · simp [next, ended]
      · exact absurd interrupted answered
      · rw [next_of_searchStep unfinished stepped] at answered ⊢
        rw [next_of_searchStep unfinished (stepped.mono (by omega))]
        cases item with
        | some item => rfl
        | none => exact induction answered (by omega)

theorem runs_of_next_item {effort fresh later : Nat} {search after : Search}
    {item : Item} (answered : prover.next effort fresh search = .item item later after) :
    prover.Runs fresh search [(item, later)] later after := by
  induction effort generalizing fresh search with
  | zero => simp [next] at answered
  | succ effort induction =>
      rcases prover.next_cases effort fresh search with
        ⟨_, exhausted⟩ | interrupted | ⟨middle, between, yielded, unfinished, stepped⟩
      · simp [exhausted] at answered
      · simp [interrupted] at answered
      · rw [next_of_searchStep unfinished stepped] at answered
        cases yielded with
        | some yielded =>
            obtain ⟨rfl, rfl, rfl⟩ : yielded = item ∧ middle = later ∧ between = after := by
              simpa using answered
            exact .step stepped (.refl _ _)
        | none => exact .silent stepped (induction answered)

theorem runs_of_next_exhausted {effort fresh later : Nat} {search after : Search}
    (answered : prover.next effort fresh search = .exhausted later after) :
    prover.Runs fresh search [] later after ∧ after.phase = .finished := by
  induction effort generalizing fresh search with
  | zero => simp [next] at answered
  | succ effort induction =>
      rcases prover.next_cases effort fresh search with
        ⟨ended, exhausted⟩ | interrupted | ⟨middle, between, yielded, unfinished, stepped⟩
      · obtain ⟨rfl, rfl⟩ : fresh = later ∧ search = after := by
          simpa [exhausted] using answered
        exact ⟨.refl _ _, ended⟩
      · simp [interrupted] at answered
      · rw [next_of_searchStep unfinished stepped] at answered
        cases yielded with
        | some yielded => simp at answered
        | none =>
            obtain ⟨run, ended⟩ := induction answered
            exact ⟨.silent stepped run, ended⟩

/-- After steps that yield nothing a search gives what it would have given. -/
theorem next_of_silent {fresh middle : Nat} {search between : Search}
    (run : prover.Runs fresh search [] middle between) (effort : Nat)
    (answered : prover.next effort middle between ≠ .interrupted) :
    ∃ larger, prover.next larger fresh search = prover.next effort middle between := by
  generalize yields : ([] : List (Item × Nat)) = items at run
  induction run with
  | refl => exact ⟨effort, rfl⟩
  | @step stepEffort fresh second last search next after item items stepped run
      induction =>
      obtain ⟨nothing, rfl⟩ := List.append_eq_nil_iff.mp yields.symm
      obtain ⟨rest, onwards⟩ := induction answered rfl
      by_cases ended : search.phase = .finished
      · cases stepped with
        | idle => exact ⟨rest, onwards⟩
        | _ => simp at ended
      · cases item with
        | some item => simp [emitted] at nothing
        | none =>
            have larger := stepped.mono (Nat.le_max_left stepEffort rest)
            refine ⟨max stepEffort rest + 1, ?_⟩
            rw [next_of_searchStep ended larger]
            rw [← onwards] at answered
            exact (next_eq_of_answered answered
              (Nat.le_max_right stepEffort rest)).trans onwards

theorem next_item_of_silent {effort fresh middle later : Nat}
    {search between after : Search} {item : Item}
    (run : prover.Runs fresh search [] middle between)
    (stepped : SearchStep prover effort middle between later after (some item)) :
    ∃ larger, prover.next larger fresh search = .item item later after := by
  have unfinished : between.phase ≠ .finished := by
    intro ended
    cases stepped <;> cases ended
  have answer : prover.next (effort + 1) middle between = .item item later after :=
    next_of_searchStep unfinished stepped
  obtain ⟨larger, same⟩ := next_of_silent run (effort + 1) (by simp [answer])
  exact ⟨larger, same.trans answer⟩

theorem Runs.first_item {fresh later last : Nat} {search after : Search} {item : Item}
    {items : List (Item × Nat)}
    (run : prover.Runs fresh search ((item, later) :: items) last after) :
    ∃ effort middle between next, prover.Runs fresh search [] middle between ∧
      SearchStep prover effort middle between later next (some item) ∧
      prover.Runs later next items last after := by
  generalize yields : (item, later) :: items = all at run
  induction run with
  | refl => cases yields
  | @step effort fresh second last search next after yielded others stepped run
      induction =>
      cases yielded with
      | some yielded =>
          obtain ⟨⟨rfl, rfl⟩, rfl⟩ :
              (item = yielded ∧ later = second) ∧ items = others := by
            simpa [emitted] using yields
          exact ⟨effort, fresh, search, next, .refl _ _, stepped, run⟩
      | none =>
          obtain ⟨rest, middle, between, beyond, silent, emits, onwards⟩ :=
            induction yields
          exact ⟨rest, middle, between, beyond, .silent stepped silent, emits, onwards⟩

/-- A run that yields items gives its first item when it is asked for the next
one, and goes on from there. -/
theorem next_item_of_runs {fresh later last : Nat} {search after : Search}
    {item : Item} {items : List (Item × Nat)}
    (run : prover.Runs fresh search ((item, later) :: items) last after) :
    ∃ effort between, prover.next effort fresh search = .item item later between ∧
      prover.Runs later between items last after := by
  obtain ⟨effort, middle, between, next, silent, emits, onwards⟩ := run.first_item
  obtain ⟨larger, answered⟩ := next_item_of_silent silent emits
  exact ⟨larger, next, answered, onwards⟩

theorem next_exhausted_of_runs {fresh last : Nat} {search after : Search}
    (run : prover.Runs fresh search [] last after) (ended : after.phase = .finished) :
    ∃ effort, prover.next effort fresh search = .exhausted last after := by
  have answer : prover.next 1 last after = .exhausted last after := by
    simp [next, ended]
  obtain ⟨larger, same⟩ := next_of_silent run 1 (by simp [answer])
  exact ⟨larger, same.trans answer⟩

theorem Runs.eq_of_finished {fresh last : Nat} {search after : Search}
    {items : List (Item × Nat)} (run : prover.Runs fresh search items last after)
    (ended : search.phase = .finished) : items = [] ∧ last = fresh ∧ after = search := by
  induction run with
  | refl => exact ⟨rfl, rfl, rfl⟩
  | step stepped _ induction =>
      cases stepped with
      | idle => exact induction ended
      | _ => simp at ended

end Prover

end HornLogic
