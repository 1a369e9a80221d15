import HornLogic.Proofs.KnowledgeBase
import HornLogic.Proofs.Search.ExploredAnswers
import HornLogic.Proofs.Search.Renaming
import HornLogic.Proofs.Search.Renumbering
import HornLogic.Proofs.Term.RenamedApart
import HornLogic.Proofs.Unification.UnusedBinding

/-!
# Goals that are called through a variable

With the clause `run(G) :- G.` a goal can be called through the variable `G`.  The renamed
variable gets the goal as its value, is looked at once, and occurs nowhere afterwards.  So
the search for `run(t)` comes to a search for `t`, one clause deeper and with a binding
that nothing mentions.  Both meet the same leaves, with numbers that differ by a constant.
-/

namespace HornLogic

namespace Exploration

/-- The explorations meet leaves that tell the same about the reported variables, with the
same numbers, and end in the same way. -/
structure TellsSame (reported : List String) (first second : Exploration) : Prop where
  items : first.items reported = second.items reported
  ending : first.ending = second.ending

namespace TellsSame

variable {reported : List String} {first second : Exploration}

theorem refl (exploration : Exploration) : exploration.TellsSame reported exploration :=
  ⟨rfl, rfl⟩

theorem andThen {further otherFurther : Nat → Exploration}
    (same : first.TellsSame reported second)
    (furtherSame : ∀ middle, first.ending = .complete middle →
      (further middle).TellsSame reported (otherFurther middle)) :
    (first.andThen further).TellsSame reported (second.andThen otherFurther) := by
  obtain ⟨items, ending⟩ := same
  cases ended : first.ending with
  | complete middle =>
      obtain ⟨laterItems, laterEnding⟩ := furtherSame middle ended
      simp only [Exploration.andThen, ended, ← ending]
      constructor
      · simpa [Exploration.items] using congrArg₂ (· ++ ·) items laterItems
      · exact laterEnding
  | faulted last =>
      simp only [Exploration.andThen, ended, ← ending]
      exact ⟨items, ending⟩
  | interrupted =>
      simp only [Exploration.andThen, ended, ← ending]
      exact ⟨items, ending⟩

theorem followEach {follow other : Clause → Nat → Exploration}
    (numbers : ∀ clause fresh, (follow clause fresh).NumbersFrom fresh)
    {clauses : List Clause} {fresh : Nat}
    (each : ∀ clause number, fresh ≤ number →
      (follow clause number).TellsSame reported (other clause number)) :
    (Exploration.followEach follow clauses fresh).TellsSame reported
      (Exploration.followEach other clauses fresh) := by
  induction clauses generalizing fresh with
  | nil => exact .refl _
  | cons clause clauses induction =>
      apply (each clause fresh (Nat.le_refl fresh)).andThen
      intro middle ended
      apply induction
      intro later number beyond
      exact each later number ((numbers clause fresh middle ended).trans beyond)

theorem symm (same : first.TellsSame reported second) : second.TellsSame reported first :=
  ⟨same.items.symm, same.ending.symm⟩

theorem tells {calls next : Nat} {answer : Option Item}
    (same : first.TellsSame reported second)
    (told : first.Tells reported calls answer next) :
    second.Tells reported calls answer next := by
  obtain ⟨items, ending⟩ := same
  have found : first.leaves[calls]?.map (fun leaf => (leaf.1.item reported, leaf.2)) =
      second.leaves[calls]?.map fun leaf => (leaf.1.item reported, leaf.2) := by
    simpa [Exploration.items] using congrArg (·[calls]?) items
  cases told with
  | @leaf leaf _ met =>
      rw [met] at found
      obtain ⟨⟨other, number⟩, otherMet, both⟩ := Option.map_eq_some_iff.mp found.symm
      obtain ⟨sameItem, rfl⟩ := Prod.mk.inj both
      exact sameItem ▸ .leaf otherMet
  | ended few known =>
      have lengths : first.leaves.length = second.leaves.length := by
        simpa [Exploration.items] using congrArg List.length items
      exact .ended (lengths ▸ few) (ending ▸ known)

end TellsSame

end Exploration

/-- The other branch has the same goals, perhaps at other depths, and one more binding,
which nothing mentions. -/
structure BranchAddsUnused (occursCheck : Bool) (name : String) (value : Term)
    (goals : List Goal) (bindings : Bindings) (others : List Goal) (wider : Bindings) :
    Prop where
  terms : others.map Goal.term = goals.map Goal.term
  lacks : ∀ goal ∈ goals, goal.term.Lacks name
  adds : bindings.AddsUnused occursCheck name value wider

theorem Clause.lacks_freshen {number fresh : Nat} (differ : number ≠ fresh)
    (original : String) (clause : Clause) :
    ∀ term ∈ (clause.freshen fresh).head :: (clause.freshen fresh).body,
      term.Lacks (freshName number original) := by
  intro term member occurs
  have renamed : freshName number original ∈ (clause.freshen fresh).names :=
    List.mem_flatMap.mpr ⟨term, member, occurs⟩
  rw [freshens.names_eq] at renamed
  obtain ⟨name, _, same⟩ := List.mem_map.mp renamed
  exact differ (freshName_inj.mp same).2.symm

namespace BranchAddsUnused

variable {occursCheck : Bool} {name : String} {value : Term} {bindings wider : Bindings}
  {goal other : Goal} {rest otherRest : List Goal}

theorem rest_goals
    (branch : BranchAddsUnused occursCheck name value (goal :: rest) bindings
      (other :: otherRest) wider) :
    BranchAddsUnused occursCheck name value rest bindings otherRest wider :=
  ⟨(List.cons.inj branch.terms).2, (List.forall_mem_cons.mp branch.lacks).2, branch.adds⟩

theorem replace
    (branch : BranchAddsUnused occursCheck name value (goal :: rest) bindings
      (other :: otherRest) wider)
    {terms : List Term} (lack : ∀ term ∈ terms, term.Lacks name) (depth otherDepth : Nat)
    {extended widerExtended : Bindings}
    (adds : extended.AddsUnused occursCheck name value widerExtended) :
    BranchAddsUnused occursCheck name value (terms.map (⟨·, depth⟩) ++ rest) extended
      (terms.map (⟨·, otherDepth⟩) ++ otherRest) widerExtended where
  terms := by
    rw [List.map_append, List.map_append, branch.rest_goals.terms, List.map_map, List.map_map]
    rfl
  lacks := by
    intro goal member
    rcases List.mem_append.mp member with inFront | inRest
    · obtain ⟨term, termMember, rfl⟩ := List.mem_map.mp inFront
      exact lack term termMember
    · exact branch.rest_goals.lacks goal inRest
  adds := adds

end BranchAddsUnused

/-- Solutions do not tell of a binding that nothing mentions. -/
theorem Bindings.AddsUnused.solutionUnder_eq {occursCheck : Bool} {name : String}
    {value : Term} {bindings wider : Bindings}
    (adds : bindings.AddsUnused occursCheck name value wider) {reported : List String}
    (unreported : name ∉ reported) :
    Search.solutionUnder reported wider = Search.solutionUnder reported bindings := by
  have values : reported.filterMap (Search.reportedValue? wider) =
      reported.filterMap (Search.reportedValue? bindings) := by
    apply List.filterMap_congr
    intro other member
    have differs : other ≠ name := fun same => unreported (same ▸ member)
    simp only [Search.reportedValue?, adds.substitute_eq (Term.lacks_var.mpr differs)]
  simp only [Search.solutionUnder, values]

namespace Prover

variable {prover : Prover} (counts : prover.Counts) {number : Nat} {original : String}
  {value : Term} {reported : List String}
include counts

/-- Branches with the same goals are explored alike without a limit on the depth, if the
bindings of the one have an unused entry for a name with a number that was taken before. -/
theorem explore_tellsSame (unlimited : prover.config.maxDepth = none)
    (unreported : freshName number original ∉ reported) (effort : Nat)
    {goals others : List Goal} {bindings wider : Bindings} {fresh : Nat}
    (branch : BranchAddsUnused prover.config.occursCheck (freshName number original) value
      goals bindings others wider)
    (taken : number < fresh) :
    (prover.explore effort goals bindings fresh).TellsSame reported
      (prover.explore effort others wider fresh) := by
  have allowed := Config.exceededAt_of_unlimited unlimited
  induction effort generalizing goals others bindings wider fresh with
  | zero => exact .refl _
  | succ effort induction =>
      cases goals with
      | nil =>
          obtain rfl : others = [] := by simpa using branch.terms
          have solution := branch.adds.solutionUnder_eq unreported
          exact ⟨by simp [explore, Exploration.items, Exploration.success, Leaf.item, solution],
            rfl⟩
      | cons goal rest =>
          obtain ⟨_, depth⟩ := goal
          obtain ⟨⟨term, otherDepth⟩, otherRest, rfl, rfl, _⟩ :=
            List.map_eq_cons_iff.mp branch.terms
          have adds := branch.adds
          have lacks : term.Lacks (freshName number original) :=
            branch.lacks _ List.mem_cons_self
          have walkLacks := adds.lacks_walk lacks
          simp only [explore, allowed, adds.walk_eq lacks]
          cases form : (bindings.walk term).goalForm with
          | notCallable =>
              simp only [adds.substitute_eq walkLacks]
              exact .refl _
          | both left right =>
              rw [Term.eq_both_of_goalForm form] at walkLacks
              have inside : ∀ side ∈ [left, right], side.Lacks (freshName number original) :=
                fun side member => walkLacks.arg member
              exact induction (branch.replace inside depth otherDepth adds) taken
          | notUnifiable left right =>
              rw [Term.eq_notUnifiable_of_goalForm form] at walkLacks
              have leftLacks : left.Lacks (freshName number original) :=
                walkLacks.arg List.mem_cons_self
              have rightLacks : right.Lacks (freshName number original) :=
                walkLacks.arg (List.mem_cons_of_mem _ List.mem_cons_self)
              simp only [adds.substitute_eq leftLacks, adds.substitute_eq rightLacks]
              cases attempt : unify prover.config.occursCheck effort
                  (left.substitute bindings) (right.substitute bindings) .empty with
              | unfinished => exact .refl _
              | unified extended => exact .refl _
              | clash => exact induction branch.rest_goals taken
          | call signature =>
              apply Exploration.TellsSame.followEach (follow_numbersFrom counts _ _ _ _ _)
              intro clause next beyond
              -- The clause gets a later number, so it does not mention the variable.
              obtain ⟨headLacks, bodyLacks⟩ := List.forall_mem_cons.mp
                (@Clause.lacks_freshen number next (by omega) original clause)
              have attempts := adds.unify_withOldest effort _ _ walkLacks headLacks
              unfold follow
              generalize narrow : unify prover.config.occursCheck effort (bindings.walk term)
                (clause.freshen next).head bindings = answer at attempts
              generalize wide : unify prover.config.occursCheck effort (bindings.walk term)
                (clause.freshen next).head wider = widerAnswer at attempts
              cases attempts with
              | clash => exact .refl _
              | unfinished => exact .refl _
              | unified entries =>
                  have addsAfter := adds.unified walkLacks headLacks narrow entries
                  have later := counts next
                  exact induction
                    (branch.replace bodyLacks (depth + 1) (otherDepth + 1) addsAfter)
                    (by omega)

end Prover

/-! ## The clause that calls its argument -/

/-- The clause `functor(Parameter) :- Parameter.` -/
def Clause.calling (functor parameter : String) : Clause where
  head := .app functor [.var parameter]
  body := [.var parameter]

theorem Term.Parsed.lacks_parameter {goal : Term} (written : goal.Parsed)
    {functor parameter : String} (parsed : (Clause.calling functor parameter).Parsed)
    (fresh : Nat) : goal.Lacks (freshName fresh parameter) := by
  intro occurs
  have parameterWritten : WrittenName parameter :=
    parsed.names (.var parameter) (by simp [Clause.calling]) parameter (by simp)
  exact parameterWritten.not_freshName fresh (written.names _ occurs)

theorem Search.start_calling (functor : String) (goal : Term) :
    start (.app functor [goal]) =
      .ok ⟨reportedVariables goal, .proving [⟨.app functor [goal], 0⟩] .empty, []⟩ := by
  have occurs : (Term.app functor [goal]).occurrences = goal.occurrences := by simp
  have reported : reportedVariables (.app functor [goal]) = reportedVariables goal := by
    simp only [reportedVariables, Term.variableNames, occurs]
  rw [start_of_callable rfl, reported]

theorem unify_calling (occursCheck : Bool) (effort : Nat) (functor : String) {goal : Term}
    (callable : goal.isVar = false) {name : String} (lacks : goal.Lacks name) :
    unify occursCheck (effort + 2) (.app functor [goal]) (.app functor [.var name]) .empty =
      .unified (Bindings.empty.bind name goal) := by
  have unbound : Bindings.empty.get? name = none := Bindings.get?_empty name
  have walked : Bindings.empty.walk (.var name) = .var name := Bindings.walk_of_unbound unbound
  have bound : Bindings.empty.bindChecked occursCheck name goal =
      .unified (Bindings.empty.bind name goal) := by
    cases occursCheck with
    | false => rfl
    | true =>
        have kept := @Bindings.All.substitute .empty (· ≠ name) Bindings.all_empty goal
          fun other occurs => lacks.ne_of_mem occurs
        have absent : name ∉ (goal.substitute .empty).occurrences :=
          fun occurs => kept name occurs rfl
        rw [Bindings.acyclic_empty.bindChecked_eq, if_neg absent]
  cases goal with
  | var other => cases callable
  | atom other => simp [unify, unifyPairs, walked, bound]
  | app inner args => simp [unify, unifyPairs, walked, bound]

theorem walk_calling {goal : Term} (callable : goal.isVar = false) (name : String) :
    (Bindings.empty.bind name goal).walk (.var name) =
      (Bindings.empty.bind name goal).walk goal := by
  have bound : (Bindings.empty.bind name goal).get? name = some goal := by
    simp [Bindings.get?_bind]
  cases goal with
  | var other => cases callable
  | atom other => simp [Bindings.walk, Bindings.follow, bound]
  | app inner args => simp [Bindings.walk, Bindings.follow, bound]

/-- The binding of the parameter is not used after the goal was taken from it. -/
theorem addsUnused_calling (occursCheck : Bool) {goal : Term} {name : String}
    (lacks : goal.Lacks name) :
    Bindings.empty.AddsUnused occursCheck name goal (Bindings.empty.bind name goal) where
  entries := Bindings.entries_bind_of_unbound (Bindings.get?_empty name) goal
  valueLacks := lacks
  unused := Bindings.all_empty
  chains := Bindings.acyclic_empty.chainsEnd
  acyclic _ := Bindings.acyclic_empty

namespace Prover

variable {prover : Prover} (counts : prover.Counts) {functor parameter : String} {goal : Term}
  {fresh : Nat} {reported : List String}

theorem explore_congr_walk {term other : Term} {bindings : Bindings}
    (same : bindings.walk term = bindings.walk other) (effort depth : Nat)
    (rest : List Goal) (fresh : Nat) :
    prover.explore effort (⟨term, depth⟩ :: rest) bindings fresh =
      prover.explore effort (⟨other, depth⟩ :: rest) bindings fresh := by
  cases effort with
  | zero => rfl
  | succ effort => simp only [explore, same]

include counts

/-- A goal that is called through a variable is explored like the goal itself, from the
next number on. -/
theorem exploreQuery_calling (unlimited : prover.config.maxDepth = none)
    (only : prover.candidates ⟨functor, 1⟩ = [.calling functor parameter])
    (callable : goal.isVar = false) (lacks : goal.Lacks (freshName fresh parameter))
    (unreported : freshName fresh parameter ∉ reported) (effort : Nat) :
    (prover.exploreQuery (effort + 2) (fresh + 1) goal).TellsSame reported
      (prover.exploreQuery (effort + 3) fresh (.app functor [goal])) := by
  have allowed := Config.exceededAt_of_unlimited unlimited
  have entered : prover.exploreQuery (effort + 3) fresh (.app functor [goal]) =
      prover.explore (effort + 2) [⟨.var (freshName fresh parameter), 1⟩]
        (Bindings.empty.bind (freshName fresh parameter) goal) (fresh + 1) := by
    have form : (Term.app functor [goal]).goalForm = .call ⟨functor, 1⟩ := rfl
    have attempt := unify_calling prover.config.occursCheck effort functor callable lacks
    simp [exploreQuery, explore, allowed, form, only, Exploration.followEach, follow,
      Clause.calling, Clause.freshen, Clause.rename, attempt, counts fresh]
  rw [entered, explore_congr_walk (walk_calling callable _)]
  exact explore_tellsSame counts unlimited unreported (effort + 2)
    ⟨rfl, List.forall_mem_singleton.mpr lacks, addsUnused_calling _ lacks⟩
    (Nat.lt_succ_self fresh)

/-- A goal that is called through a variable gives what the goal itself gives, from the next
number on. -/
theorem gives_calling_iff (unlimited : prover.config.maxDepth = none)
    (only : prover.candidates ⟨functor, 1⟩ = [.calling functor parameter])
    (callable : goal.isVar = false) (lacks : goal.Lacks (freshName fresh parameter))
    (unreported : freshName fresh parameter ∉ reported) {calls next : Nat}
    {answer : Option Item} :
    prover.Gives fresh ⟨reported, .proving [⟨.app functor [goal], 0⟩] .empty, []⟩ calls answer
        next ↔
      prover.Gives (fresh + 1) ⟨reported, .proving [⟨goal, 0⟩] .empty, []⟩ calls answer
        next := by
  have same := exploreQuery_calling counts unlimited only callable lacks unreported
  rw [gives_iff_tells, gives_iff_tells]
  constructor
  · rintro ⟨effort, tells⟩
    have more := (explore_begins (Nat.le_add_right effort 3) _ _ _).tells tells
    exact ⟨effort + 2, (same effort).symm.tells more⟩
  · rintro ⟨effort, tells⟩
    have more := (explore_begins (Nat.le_add_right effort 2) _ _ _).tells tells
    exact ⟨effort + 3, (same effort).tells more⟩

end Prover

end HornLogic
