import HornLogic.Proofs.Search.Branches
import HornLogic.Proofs.Search.Calls

/-!
# A lower depth limit

A depth limit is looked at whenever a goal comes up, and for nothing else.  Two searches
that differ in their limits alone therefore take the same steps until the lower limit is
exceeded, and at this moment the search with the lower limit ends with a fault.
-/

namespace HornLogic

namespace Prover

/-- The same prover with another depth limit, or none. -/
def withLimit (prover : Prover) (limit : Option Nat) : Prover :=
  { prover with config := { prover.config with maxDepth := limit } }

def Exceeds (prover : Prover) (effort limit calls fresh : Nat) (search : Search) : Prop :=
  ∃ later after,
    prover.nthNext effort calls fresh search = .item (.error (.depthLimit limit)) later after

variable {prover : Prover} {limit : Nat} {wider : Option Nat}

theorem step_withLimit_cases (further : ∀ other ∈ wider, limit < other)
    (effort fresh : Nat) (search : Search) :
    (∃ after, SearchStep (prover.withLimit (some limit)) effort fresh search fresh after
      (some (.error (.depthLimit limit)))) ∨
    (prover.withLimit (some limit)).step effort fresh search =
      (prover.withLimit wider).step effort fresh search := by
  obtain ⟨reported, phase, stack⟩ := search
  cases phase with
  | finished => exact .inr rfl
  | retrying => exact .inr rfl
  | proving goals bindings =>
      cases goals with
      | nil => exact .inr rfl
      | cons goal rest =>
          by_cases deep : limit < goal.depth
          · exact .inl ⟨_, .tooDeep (by simp [withLimit, Config.exceededAt, deep])⟩
          · have allowed : (prover.withLimit (some limit)).config.exceededAt goal.depth =
                none := by
              simpa [withLimit, Config.exceededAt] using deep
            have allowedToo : (prover.withLimit wider).config.exceededAt goal.depth =
                none := by
              rw [Config.exceededAt_eq_none_iff]
              intro other limited
              exact (Nat.not_lt.mp deep).trans (further other limited).le
            refine .inr ?_
            simp only [step, allowed, allowedToo]
            rfl

theorem next_withLimit_cases (further : ∀ other ∈ wider, limit < other)
    (effort fresh : Nat) (search : Search) :
    (∃ later after, (prover.withLimit (some limit)).next effort fresh search =
      .item (.error (.depthLimit limit)) later after) ∨
    (prover.withLimit (some limit)).next effort fresh search =
      (prover.withLimit wider).next effort fresh search := by
  induction effort generalizing fresh search with
  | zero => exact .inr rfl
  | succ effort induction =>
      by_cases ended : search.phase = .finished
      · exact .inr (by simp [next, ended])
      · rcases @step_withLimit_cases prover limit wider further effort fresh search with
          ⟨after, exceeded⟩ | same
        · exact .inl ⟨_, _, next_of_searchStep ended exceeded⟩
        · cases taken : (prover.withLimit wider).step effort fresh search with
          | none =>
              refine .inr ?_
              rw [next_of_no_step taken, next_of_no_step (same.trans taken)]
          | some turn =>
              have stepped := searchStep_of_step taken
              have steppedAlike := searchStep_of_step (same.trans taken)
              obtain ⟨between, middle, yielded, note⟩ := turn
              cases yielded with
              | some item =>
                  refine .inr ?_
                  rw [next_of_searchStep ended stepped, next_of_searchStep ended steppedAlike]
              | none =>
                  rw [next_of_searchStep ended stepped, next_of_searchStep ended steppedAlike]
                  exact induction middle between

/-- The calls up to a number give the same under both limits, unless one of them exceeds
the lower one. -/
theorem nthNext_withLimit_cases (further : ∀ other ∈ wider, limit < other)
    (effort calls fresh : Nat) (search : Search) :
    (∃ earlier ≤ calls,
      (prover.withLimit (some limit)).Exceeds effort limit earlier fresh search) ∨
    (prover.withLimit (some limit)).nthNext effort calls fresh search =
      (prover.withLimit wider).nthNext effort calls fresh search := by
  induction calls generalizing fresh search with
  | zero =>
      rcases next_withLimit_cases further effort fresh search with exceeded | same
      · exact .inl ⟨0, Nat.le_refl 0, exceeded⟩
      · exact .inr same
  | succ calls induction =>
      rcases @next_withLimit_cases prover limit wider further effort fresh search with
        exceeded | same
      · exact .inl ⟨0, Nat.zero_le _, exceeded⟩
      · simp only [nthNext, ← same]
        cases first : (prover.withLimit (some limit)).next effort fresh search with
        | interrupted => exact .inr rfl
        | item item middle between =>
            rcases induction middle between with ⟨earlier, few, later, after, exceeded⟩ | onwards
            · refine .inl ⟨earlier + 1, Nat.succ_le_succ few, later, after, ?_⟩
              simp only [nthNext, first, exceeded]
            · exact .inr onwards
        | exhausted middle between =>
            rcases induction middle between with ⟨earlier, few, later, after, exceeded⟩ | onwards
            · refine .inl ⟨earlier + 1, Nat.succ_le_succ few, later, after, ?_⟩
              simp only [nthNext, first, exceeded]
            · exact .inr onwards

theorem not_item_after_fault {effort larger calls more fresh middle later : Nat}
    {search between after : Search} {cause : Fault} {item : Item}
    (faulted : prover.nthNext effort calls fresh search =
      .item (.error cause) middle between)
    (afterwards : calls < more) :
    prover.nthNext larger more fresh search ≠ .item item later after := by
  intro answered
  obtain ⟨enough, last, ended⟩ := nthNext_after_fault faulted afterwards
  cases nthNext_unique answered ended (by simp) (by simp)

/-- Before the lower limit is exceeded there are only solutions, and they are the same
under both limits. -/
theorem solution_before_exceeding (further : ∀ other ∈ wider, limit < other)
    {effort calls count fresh : Nat} {search : Search}
    (exceeds : (prover.withLimit (some limit)).Exceeds effort limit count fresh search)
    (before : calls < count) :
    ∃ solution next,
      (prover.withLimit (some limit)).Gives fresh search calls (some (.ok solution)) next ∧
      (prover.withLimit wider).Gives fresh search calls (some (.ok solution)) next := by
  obtain ⟨later, after, answered⟩ := exceeds
  obtain ⟨items, length, run⟩ := runs_of_nthNext_item answered
  obtain ⟨⟨item, next⟩, found⟩ : ∃ yielded, items[calls]? = some yielded :=
    ⟨_, List.getElem?_eq_getElem (length ▸ before)⟩
  obtain ⟨enough, state, yielded⟩ := nthNext_item_iff.mpr ⟨_, later, after,
    (List.getElem?_append_left (length ▸ before)).trans found, run⟩
  cases item with
  | error cause => exact absurd answered (not_item_after_fault yielded before)
  | ok solution =>
      have same : (prover.withLimit (some limit)).nthNext enough calls fresh search =
          (prover.withLimit wider).nthNext enough calls fresh search := by
        rcases nthNext_withLimit_cases further enough calls fresh search with
          ⟨earlier, few, _, _, exceeded⟩ | same
        · exact absurd answered (not_item_after_fault exceeded (few.trans_lt before))
        · exact same
      exact ⟨solution, next, ⟨enough, state, by rw [yielded]; rfl⟩,
        ⟨enough, state, by rw [← same, yielded]; rfl⟩⟩

/-- If no call exceeds the lower limit, all calls give the same under both limits. -/
theorem gives_iff_of_not_exceeding (further : ∀ other ∈ wider, limit < other)
    {fresh : Nat} {search : Search}
    (within : ∀ calls effort,
      ¬ (prover.withLimit (some limit)).Exceeds effort limit calls fresh search)
    (calls : Nat) (answer : Option Item) (next : Nat) :
    (prover.withLimit (some limit)).Gives fresh search calls answer next ↔
      (prover.withLimit wider).Gives fresh search calls answer next := by
  have same : ∀ effort, (prover.withLimit (some limit)).nthNext effort calls fresh search =
      (prover.withLimit wider).nthNext effort calls fresh search := by
    intro effort
    rcases nthNext_withLimit_cases further effort calls fresh search with
      ⟨earlier, _, exceeded⟩ | same
    · exact absurd exceeded (within earlier effort)
    · exact same
  simp only [Gives, same]

end Prover

/-- The search with the lower depth limit gives the answers of the search with the higher
one, or with none, or else their beginning and then the fault that the limit is exceeded.
So if there is no such fault no answer is missing.  The names in the answers are the same
with every counter. -/
theorem KnowledgeBase.lower_limit_yields_prefix (kb : KnowledgeBase) (config : Config)
    (nextNumber : Nat → Nat) {limit : Nat} {wider : Option Nat}
    (further : ∀ other ∈ wider, limit < other) {query : Term} (callable : query.isVar = false)
    (fresh : Nat) :
    ∃ search, Search.start query = .ok search ∧
      ((∀ calls answer next,
        (kb.prover { config with maxDepth := some limit } nextNumber).Gives fresh search calls
            answer next ↔
          (kb.prover { config with maxDepth := wider } nextNumber).Gives fresh search calls
            answer next) ∨
      ∃ count,
        (∀ calls < count, ∃ solution next,
          (kb.prover { config with maxDepth := some limit } nextNumber).Gives fresh search
              calls (some (.ok solution)) next ∧
            (kb.prover { config with maxDepth := wider } nextNumber).Gives fresh search
              calls (some (.ok solution)) next) ∧
        (∃ next,
          (kb.prover { config with maxDepth := some limit } nextNumber).Gives fresh search
            count (some (.error (.depthLimit limit))) next) ∧
        ∀ calls, count < calls → ∃ next,
          (kb.prover { config with maxDepth := some limit } nextNumber).Gives fresh search
            calls none next) ∧
      ((∀ calls next,
          ¬ (kb.prover { config with maxDepth := some limit } nextNumber).Gives fresh search
            calls (some (.error (.depthLimit limit))) next) →
        ∀ calls answer next,
          (kb.prover { config with maxDepth := some limit } nextNumber).Gives fresh search
              calls answer next ↔
            (kb.prover { config with maxDepth := wider } nextNumber).Gives fresh search
              calls answer next) := by
  refine ⟨_, by simp [Search.start, callable]; rfl, ?_, ?_⟩
  · by_cases exceeding : ∃ count effort,
        ((kb.prover config nextNumber).withLimit (some limit)).Exceeds effort limit count fresh
          ⟨Search.reportedVariables query, .proving [⟨query, 0⟩] .empty, []⟩
    · obtain ⟨count, effort, exceeds⟩ := exceeding
      refine .inr ⟨count, ?_, ?_, ?_⟩
      · intro calls before
        exact Prover.solution_before_exceeding further exceeds before
      · obtain ⟨later, after, answered⟩ := exceeds
        exact ⟨later, effort, after, Pull.answer?_eq_some_iff.mpr (.inl ⟨_, rfl, answered⟩)⟩
      · obtain ⟨later, after, answered⟩ := exceeds
        intro calls afterwards
        obtain ⟨enough, last, ended⟩ := Prover.nthNext_after_fault answered afterwards
        exact ⟨later, enough, last, Pull.answer?_eq_some_iff.mpr (.inr ⟨rfl, ended⟩)⟩
    · exact .inl (Prover.gives_iff_of_not_exceeding further fun calls effort exceeds =>
        exceeding ⟨calls, effort, exceeds⟩)
  · intro faultless
    refine @Prover.gives_iff_of_not_exceeding (kb.prover config nextNumber) limit wider further
      fresh _ ?_
    rintro calls effort ⟨later, after, answered⟩
    exact faultless calls later
      ⟨effort, after, Pull.answer?_eq_some_iff.mpr (.inl ⟨_, rfl, answered⟩)⟩

namespace KnowledgeBase

/-- `p(a).`, `p(X) :- q(X).` and `q(b).` -/
def linked : KnowledgeBase :=
  (empty.addAll
    [⟨.app "p" [.atom "a"], []⟩, ⟨.app "p" [.var "X"], [.app "q" [.var "X"]]⟩,
      ⟨.app "q" [.atom "b"], []⟩]).1

/-- The second answer to `p(X)` lies beyond a limit of 0 and within a limit of 1.  The
counter starts over before it. -/
theorem second_answer_beyond_lower_limit :
    (∀ other ∈ some 1, 0 < other) ∧ (Term.app "p" [.var "X"]).isVar = false ∧
      ∃ search, Search.start (.app "p" [.var "X"]) = .ok search ∧
        ∃ count,
          (∀ calls < count, ∃ solution next,
            (linked.prover { maxDepth := some 0 } wrappingNext).Gives (UInt64.size - 1) search
                calls (some (.ok solution)) next ∧
              (linked.prover { maxDepth := some 1 } wrappingNext).Gives (UInt64.size - 1) search
                calls (some (.ok solution)) next) ∧
          ∃ next, (linked.prover { maxDepth := some 0 } wrappingNext).Gives (UInt64.size - 1)
            search count (some (.error (.depthLimit 0))) next := by
  have further : ∀ other ∈ some 1, 0 < other := by simp
  refine ⟨further, rfl, ?_⟩
  obtain ⟨search, started, same | ⟨count, solutions, exceeded, _⟩, _⟩ :=
    lower_limit_yields_prefix linked {} wrappingNext further
      (show (Term.app "p" [.var "X"]).isVar = false from rfl) (UInt64.size - 1)
  · -- The answers are not the same: the second one is a fault under one limit only.
    obtain rfl : Search.mk ["X"] (.proving [⟨.app "p" [.var "X"], 0⟩] .empty) [] = search :=
      Except.ok.inj started
    have deep := (same 1 (some (.error (.depthLimit 0))) 1).mp ⟨20, _, rfl⟩
    obtain ⟨solution, found⟩ : ∃ solution,
        (linked.prover { maxDepth := some 1 } wrappingNext).Gives (UInt64.size - 1)
          ⟨["X"], .proving [⟨.app "p" [.var "X"], 0⟩] .empty, []⟩ 1
          (some (.ok solution)) 2 :=
      ⟨_, 20, _, rfl⟩
    cases (deep.unique found).1
  · exact ⟨search, started, count, solutions, exceeded⟩

end KnowledgeBase

end HornLogic
