import HornLogic.Proofs.Search.Derivability
import HornLogic.Proofs.Unification.Termination
import HornLogic.Search.Step

/-!
# Tests that terms do not unify

A search decides a test by unification of the resolved terms without any bindings.
The answer is the one that unification of the terms under the bindings would give,
although the two take different ways: both find out whether the bindings have a
solution that makes the terms equal.  More bindings have fewer solutions, so a
test that passed need not be looked at again.
-/

namespace HornLogic

/-- Unification ends, and the answer is whether it gives bindings. -/
def CanUnify (occursCheck : Bool) (left right : Term) (bindings : Bindings)
    (answer : Bool) : Prop :=
  ∃ attempt, UnifyEnds occursCheck left right bindings attempt ∧
    attempt.bindings?.isSome = answer

namespace Bindings

/-- Some solution of the bindings makes the terms equal. -/
def Unifiable (bindings : Bindings) (left right : Term) : Prop :=
  ∃ assign, bindings.SolvedBy assign ∧ left.subst assign = right.subst assign

variable {bindings : Bindings} {left right : Term}

theorem Unifiable.of_includes {later : Bindings} (unifiable : later.Unifiable left right)
    (inclusion : later.Includes bindings) : bindings.Unifiable left right := by
  obtain ⟨assign, solved, equal⟩ := unifiable
  exact ⟨assign, solved.of_includes inclusion, equal⟩

theorem Acyclic.solvedBy_instance (acyclic : bindings.Acyclic) (assign : String → Term) :
    bindings.SolvedBy fun name => (bindings.resolve name).subst assign := by
  intro name value bound
  calc
    (bindings.resolve name).subst assign = (value.subst bindings.resolve).subst assign := by
      rw [acyclic.resolve_of_bound bound]
    _ = value.subst fun inner => (bindings.resolve inner).subst assign :=
      Term.subst_subst _ _ _

/-- Resolved terms have a common instance exactly if a solution of the bindings makes
the terms equal. -/
theorem Acyclic.unifiable_substitute_iff (acyclic : bindings.Acyclic) :
    empty.Unifiable (left.substitute bindings) (right.substitute bindings) ↔
      bindings.Unifiable left right := by
  constructor
  · -- A substitution that knows nothing of the bindings solves them after resolution.
    rintro ⟨assign, _, equal⟩
    refine ⟨_, acyclic.solvedBy_instance assign, ?_⟩
    rw [← Term.subst_subst, ← Term.subst_subst]
    exact equal
  · rintro ⟨assign, solved, equal⟩
    refine ⟨assign, solvedBy_empty assign, ?_⟩
    rw [solved.subst_substitute, solved.subst_substitute, equal]

/-- With the occurs check, terms can be unified under acyclic bindings exactly if a
solution of the bindings makes them equal. -/
theorem Acyclic.canUnify_iff (acyclic : bindings.Acyclic) {answer : Bool} :
    CanUnify true left right bindings answer ↔
      (answer = true ↔ bindings.Unifiable left right) := by
  obtain ⟨found, ends⟩ := exists_unifyEnds left right acyclic
  have decided : (Attempt.ofOption found).bindings?.isSome = true ↔
      bindings.Unifiable left right := by
    cases found with
    | none =>
        refine iff_of_false (by simp [Attempt.ofOption, Attempt.bindings?]) ?_
        rintro ⟨assign, solved, equal⟩
        exact ends.no_solution acyclic solved equal
    | some extended =>
        obtain ⟨extendedAcyclic, _, solutions⟩ := ends.solutions acyclic
        refine iff_of_true rfl ⟨extended.resolve, ?_⟩
        exact (solutions extended.resolve).mp extendedAcyclic.solvedBy_resolve
  constructor
  · rintro ⟨other, otherEnds, rfl⟩
    rwa [otherEnds.unique ends]
  · intro known
    refine ⟨_, ends, ?_⟩
    rw [Bool.eq_iff_iff, decided, known]

theorem Acyclic.canUnify_substitute_iff (acyclic : bindings.Acyclic) {answer : Bool} :
    CanUnify true (left.substitute bindings) (right.substitute bindings) empty answer ↔
      CanUnify true left right bindings answer := by
  rw [acyclic_empty.canUnify_iff, acyclic.canUnify_iff, acyclic.unifiable_substitute_iff]

end Bindings

namespace Prover

variable {prover : Prover} {goal : Goal} {bindings : Bindings} {left right : Term}

/-- A search that is to prove this goal under these bindings selects a test of two
terms. -/
structure SelectsTest (prover : Prover) (goal : Goal) (bindings : Bindings)
    (left right : Term) : Prop where
  allowed : prover.config.exceededAt goal.depth = none
  selected : bindings.walk goal.term = .notUnifiable left right

/-- With enough effort, a search that is to prove this goal first takes no number,
yields nothing, and goes on with the goals behind it if the test passes, or with its
newest choice if not. -/
def DecidesTest (prover : Prover) (goal : Goal) (bindings : Bindings)
    (passes : Bool) : Prop :=
  ∃ enough, ∀ effort, enough ≤ effort → ∀ fresh reported rest stack,
    prover.step effort fresh ⟨reported, .proving (goal :: rest) bindings, stack⟩ =
      some
        { search := ⟨reported, if passes then .proving rest bindings else .retrying, stack⟩
          fresh }

theorem SelectsTest.later {later : Bindings}
    (selects : prover.SelectsTest goal bindings left right) (acyclic : later.Acyclic)
    (inclusion : later.Includes bindings) : prover.SelectsTest goal later left right := by
  refine ⟨selects.allowed, ?_⟩
  have ended : (bindings.walk goal.term).isVar = false := by
    rw [selects.selected]
    rfl
  rw [acyclic.walk_eq_of_includes inclusion ended]
  exact selects.selected

theorem SelectsTest.step_eq (selects : prover.SelectsTest goal bindings left right)
    (effort fresh : Nat) (reported : List String) (rest : List Goal)
    (stack : List Choice) :
    prover.step effort fresh ⟨reported, .proving (goal :: rest) bindings, stack⟩ =
      match unify prover.config.occursCheck effort (left.substitute bindings)
          (right.substitute bindings) .empty with
      | .unified _ => some { search := ⟨reported, .retrying, stack⟩, fresh }
      | .clash => some { search := ⟨reported, .proving rest bindings, stack⟩, fresh }
      | .unfinished => none := by
  simp only [step, selects.allowed, select, selects.selected, Term.goalForm_notUnifiable]
  rfl

theorem SelectsTest.decidesTest_iff
    (selects : prover.SelectsTest goal bindings left right) {passes : Bool} :
    prover.DecidesTest goal bindings passes ↔
      CanUnify prover.config.occursCheck (left.substitute bindings)
        (right.substitute bindings) .empty (!passes) := by
  constructor
  · rintro ⟨enough, decides⟩
    -- All searches take the same step, so the step of any one of them will do.
    have stepped := decides enough (Nat.le_refl enough) 0 [] [] []
    rw [selects.step_eq] at stepped
    cases attempt : unify prover.config.occursCheck enough (left.substitute bindings)
        (right.substitute bindings) .empty with
    | unfinished => simp [attempt] at stepped
    | clash =>
        refine ⟨.clash, unifyEnds_iff.mpr ⟨by simp, enough, attempt⟩, ?_⟩
        cases passes with
        | true => rfl
        | false => simp [attempt] at stepped
    | unified extended =>
        refine ⟨.unified extended, unifyEnds_iff.mpr ⟨by simp, enough, attempt⟩, ?_⟩
        cases passes with
        | true => simp [attempt] at stepped
        | false => rfl
  · rintro ⟨attempt, ⟨finished, enough, answers⟩, unifies⟩
    refine ⟨enough, fun effort more fresh reported rest stack => ?_⟩
    have answered : unify prover.config.occursCheck effort (left.substitute bindings)
        (right.substitute bindings) .empty = attempt := answers effort more
    rw [selects.step_eq, answered]
    cases attempt with
    | unfinished => exact absurd rfl finished
    | clash =>
        obtain rfl : passes = true := by simpa [Attempt.bindings?] using unifies
        rfl
    | unified extended =>
        obtain rfl : passes = false := by simpa [Attempt.bindings?] using unifies
        rfl

section Checked

variable (selects : prover.SelectsTest goal bindings left right)
  (checked : prover.config.occursCheck = true) (acyclic : bindings.Acyclic)
include selects checked acyclic

/-- With the occurs check and under acyclic bindings, a test passes exactly if no
solution of the bindings makes the terms equal. -/
theorem SelectsTest.passes_iff :
    prover.DecidesTest goal bindings true ↔ ¬ bindings.Unifiable left right := by
  rw [selects.decidesTest_iff, checked, acyclic.canUnify_substitute_iff,
    acyclic.canUnify_iff]
  simp

theorem SelectsTest.fails_iff :
    prover.DecidesTest goal bindings false ↔ bindings.Unifiable left right := by
  rw [selects.decidesTest_iff, checked, acyclic.canUnify_substitute_iff,
    acyclic.canUnify_iff]
  simp

end Checked

end Prover

/-- Unification of resolved terms succeeds exactly if unification of the terms under
the bindings does.  So a test passes exactly if no solution of the bindings makes
the terms equal, fails exactly if there is one, and if it passes it also passes
under all acyclic bindings that include these. -/
theorem test_is_decided_by_solutions (left right : Term) {bindings : Bindings}
    (acyclic : bindings.Acyclic) :
    (∃ answer, CanUnify true left right bindings answer ∧
      CanUnify true (left.substitute bindings) (right.substitute bindings) .empty answer) ∧
    ∀ (prover : Prover) (goal : Goal), prover.config.occursCheck = true →
      prover.SelectsTest goal bindings left right →
        (prover.DecidesTest goal bindings true ↔
          ∀ assign, bindings.SolvedBy assign → left.subst assign ≠ right.subst assign) ∧
        (prover.DecidesTest goal bindings false ↔
          ∃ assign, bindings.SolvedBy assign ∧ left.subst assign = right.subst assign) ∧
        ∀ later : Bindings, later.Acyclic → later.Includes bindings →
          prover.DecidesTest goal bindings true → prover.DecidesTest goal later true := by
  refine ⟨?_, fun prover goal checked selects => ⟨?_, ?_, ?_⟩⟩
  · obtain ⟨found, ends⟩ := exists_unifyEnds left right acyclic
    have answered : CanUnify true left right bindings
        (Attempt.ofOption found).bindings?.isSome := ⟨_, ends, rfl⟩
    exact ⟨_, answered, acyclic.canUnify_substitute_iff.mpr answered⟩
  · rw [selects.passes_iff checked acyclic, Bindings.Unifiable, not_exists]
    simp only [not_and, ne_eq]
  · exact selects.fails_iff checked acyclic
  · intro later laterAcyclic inclusion passes
    have laterSelects := selects.later laterAcyclic inclusion
    rw [laterSelects.passes_iff checked laterAcyclic]
    intro unifiable
    exact (selects.passes_iff checked acyclic).mp passes (unifiable.of_includes inclusion)

/-- With `G` bound to the test of `X` and `f(Z)`, and `X` to `g(Y)`, a search that is
to prove `G` passes the test, and it still does so when `Y` is bound to `a`. -/
theorem test_is_decided_by_solutions_of_value :
    ∃ bindings later : Bindings, bindings.Acyclic ∧ later.Acyclic ∧
      later.Includes bindings ∧
      bindings.toList = [("G", .notUnifiable (.var "X") (.app "f" [.var "Z"])),
        ("X", .app "g" [.var "Y"])] ∧
      later.toList = [("G", .notUnifiable (.var "X") (.app "f" [.var "Z"])),
        ("X", .app "g" [.var "Y"]), ("Y", .atom "a")] ∧
      KnowledgeBase.empty.prover.SelectsTest ⟨.var "G", 0⟩ bindings
        (.var "X") (.app "f" [.var "Z"]) ∧
      KnowledgeBase.empty.prover.DecidesTest ⟨.var "G", 0⟩ bindings true ∧
      KnowledgeBase.empty.prover.DecidesTest ⟨.var "G", 0⟩ later true := by
  let outer := Bindings.empty.bind "G" (.notUnifiable (.var "X") (.app "f" [.var "Z"]))
  let bindings := outer.bind "X" (.app "g" [.var "Y"])
  let later := bindings.bind "Y" (.atom "a")
  have outerAcyclic : outer.Acyclic :=
    (Bindings.acyclic_empty.bind_iff rfl).mpr (by decide)
  have acyclic : bindings.Acyclic := (outerAcyclic.bind_iff rfl).mpr (by decide)
  have laterAcyclic : later.Acyclic := (acyclic.bind_iff rfl).mpr (by decide)
  have inclusion : later.Includes bindings :=
    (Bindings.Extends.bind rfl (.atom "a")).includes
  have selects : KnowledgeBase.empty.prover.SelectsTest ⟨.var "G", 0⟩ bindings
      (.var "X") (.app "f" [.var "Z"]) := ⟨rfl, by decide⟩
  obtain ⟨passes_iff, _, stable⟩ := (test_is_decided_by_solutions (.var "X")
    (.app "f" [.var "Z"]) acyclic).2 KnowledgeBase.empty.prover ⟨.var "G", 0⟩ rfl selects
  have passes : KnowledgeBase.empty.prover.DecidesTest ⟨.var "G", 0⟩ bindings true := by
    refine passes_iff.mpr fun assign solved equal => ?_
    rw [Term.subst_var, solved "X" (.app "g" [.var "Y"]) rfl] at equal
    simp at equal
  exact ⟨bindings, later, acyclic, laterAcyclic, inclusion, by decide, by decide, selects,
    passes, stable later laterAcyclic inclusion passes⟩

end HornLogic
