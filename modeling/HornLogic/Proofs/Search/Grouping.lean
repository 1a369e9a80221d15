import HornLogic.Proofs.Search.Derivability
import HornLogic.Proofs.Search.ExploredAnswers
import HornLogic.Proofs.Term.Renaming

/-!
# Grouping of conjunctions

A conjunction that comes up as a goal is replaced by its two goals at the same depth, and
this takes no number and changes no bindings.  So it does not matter how the goals of a
query or of a clause are grouped: an exploration comes to the same first goal that is no
conjunction, with goals after it that differ in their grouping again.
-/

namespace HornLogic

namespace Term

/-- The goals that stand in a term from left to right: those of both sides of a
conjunction, or else the term itself. -/
def goals : Term → List Term
  | .app functor [left, right] =>
      if functor = conjunctionName then left.goals ++ right.goals
      else [.app functor [left, right]]
  | term => [term]

@[simp] theorem goals_both (left right : Term) :
    (both left right).goals = left.goals ++ right.goals := by
  simp [both, goals]

theorem goals_of_not_both {term : Term} (single : ∀ left right, term ≠ both left right) :
    term.goals = [term] := by
  cases term with
  | var name => rfl
  | atom name => rfl
  | app functor args =>
      rcases args with _ | ⟨left, _ | ⟨right, _ | ⟨third, others⟩⟩⟩
      · rfl
      · rfl
      · by_cases conjunction : functor = conjunctionName
        · exact absurd (by rw [conjunction, both]) (single left right)
        · simp [goals, conjunction]
      · rfl

/-- Induction over the grouping of a term's goals. -/
@[elab_as_elim]
theorem goalsInduction {motive : Term → Prop} (term : Term)
    (single : ∀ term, (∀ left right, term ≠ both left right) → motive term)
    (joined : ∀ left right, motive left → motive right → motive (both left right)) :
    motive term := by
  induction term with
  | var name => exact single _ fun left right => by simp [both]
  | atom name => exact single _ fun left right => by simp [both]
  | app functor args induction =>
      by_cases conjunction : ∃ left right, app functor args = both left right
      · obtain ⟨left, right, same⟩ := conjunction
        obtain ⟨rfl, rfl⟩ : functor = conjunctionName ∧ args = [left, right] := by
          simpa [both] using same
        exact joined left right (induction left (by simp)) (induction right (by simp))
      · exact single _ fun left right same => conjunction ⟨left, right, same⟩

theorem goals_ne_nil (term : Term) : term.goals ≠ [] := by
  induction term using goalsInduction with
  | single term single => simp [goals_of_not_both single]
  | joined left right leftInduction _ => simp [leftInduction]

theorem goals_rename (change : String → String) (term : Term) :
    (term.rename change).goals = term.goals.map (rename change) := by
  induction term using goalsInduction with
  | joined left right leftInduction rightInduction =>
      have renamed : (both left right).rename change =
          both (left.rename change) (right.rename change) := by
        simp [both]
      rw [renamed, goals_both, goals_both, List.map_append, leftInduction, rightInduction]
  | single term single =>
      have renamedSingle : ∀ left right, term.rename change ≠ both left right := by
        intro left right same
        cases term with
        | var name => cases same
        | atom name => cases same
        | app functor args =>
            obtain ⟨rfl, renamed⟩ : functor = conjunctionName ∧
                args.map (rename change) = [left, right] := by
              simpa [both] using same
            obtain ⟨first, second, rfl⟩ := List.length_eq_two.mp
              ((List.length_map _).symm.trans (congrArg List.length renamed))
            exact single first second rfl
      rw [goals_of_not_both single, goals_of_not_both renamedSingle]
      rfl

/-- The grouping of goals does not change which variables occur, and in what order. -/
theorem occurrences_goals (term : Term) : term.goals.flatMap occurrences = term.occurrences := by
  induction term using goalsInduction with
  | single term single => simp [goals_of_not_both single]
  | joined left right leftInduction rightInduction =>
      rw [goals_both, List.flatMap_append, leftInduction, rightInduction]
      simp [both]

end Term

/-- The clause with every goal of its body on its own. -/
def Clause.ungrouped (clause : Clause) : Clause where
  head := clause.head
  body := clause.body.flatMap Term.goals

theorem Clause.ungrouped_freshen (suffix : Nat) (clause : Clause) :
    (clause.freshen suffix).ungrouped = clause.ungrouped.freshen suffix := by
  simp only [ungrouped, freshen, rename, List.flatMap_map, List.map_flatMap, mk.injEq,
    true_and]
  exact List.flatMap_congr fun goal _ => Term.goals_rename _ goal

/-- The goals of a conjunction have its depth. -/
def Goal.ungrouped (goal : Goal) : List Goal :=
  goal.term.goals.map (⟨·, goal.depth⟩)

/-- The goals of a list, with those of every conjunction on their own. -/
def ungroup (goals : List Goal) : List Goal :=
  goals.flatMap Goal.ungrouped

section

variable {left right : Term} {depth : Nat} {rest others : List Goal}

theorem ungroup_append (goals : List Goal) :
    ungroup (goals ++ rest) = ungroup goals ++ ungroup rest :=
  List.flatMap_append

theorem ungroup_cons (goal : Goal) : ungroup (goal :: rest) = goal.ungrouped ++ ungroup rest :=
  rfl

@[simp] theorem ungroup_both :
    ungroup (⟨.both left right, depth⟩ :: rest) =
      ungroup (⟨left, depth⟩ :: ⟨right, depth⟩ :: rest) := by
  simp [ungroup, Goal.ungrouped]

theorem ungroup_single {term : Term} (single : ∀ left right, term ≠ .both left right) :
    ungroup (⟨term, depth⟩ :: rest) = ⟨term, depth⟩ :: ungroup rest := by
  simp [ungroup, Goal.ungrouped, Term.goals_of_not_both single]

theorem ungroup_eq_nil_iff {goals : List Goal} : ungroup goals = [] ↔ goals = [] := by
  cases goals with
  | nil => simp [ungroup]
  | cons goal rest => simp [ungroup, Goal.ungrouped, Term.goals_ne_nil]

theorem ungroup_body (clause : Clause) (depth : Nat) :
    ungroup (clause.body.map (⟨·, depth⟩)) = clause.ungrouped.body.map (⟨·, depth⟩) := by
  simp [ungroup, Goal.ungrouped, Clause.ungrouped, List.flatMap_map, List.map_flatMap]

theorem exists_cons_of_ungroup {goal : Goal} {goals : List Goal}
    (same : ungroup (goal :: rest) = ungroup goals) :
    ∃ term others, goals = ⟨term, goal.depth⟩ :: others := by
  cases goals with
  | nil => exact absurd (ungroup_eq_nil_iff.mp same) (by simp)
  | cons other others =>
      obtain ⟨first, more, firstGoals⟩ := List.exists_cons_of_ne_nil goal.term.goals_ne_nil
      obtain ⟨second, others, secondGoals⟩ :=
        List.exists_cons_of_ne_nil other.term.goals_ne_nil
      simp only [ungroup_cons, Goal.ungrouped, firstGoals, secondGoals, List.map_cons,
        List.cons_append, List.cons.injEq, Goal.mk.injEq] at same
      exact ⟨other.term, _, by rw [same.1.2]⟩

end

namespace Prover

/-- The provers have the same settings and the same counter, and the same clauses for
every predicate up to the grouping of their bodies. -/
structure Regroups (prover other : Prover) : Prop where
  config : prover.config = other.config
  nextNumber : prover.nextNumber = other.nextNumber
  candidates : ∀ signature, (prover.candidates signature).map Clause.ungrouped =
    (other.candidates signature).map Clause.ungrouped

variable {prover other : Prover}

/-- With more effort the exploration of goals comes to their first goal that is no
conjunction. -/
theorem explore_ungrouped {term : Term} {depth : Nat}
    (allowed : prover.config.exceededAt depth = none) (first : Term) (rest : List Goal)
    {flat : List Goal} (same : ungroup (⟨first, depth⟩ :: rest) = ⟨term, depth⟩ :: flat) :
    ∃ others extra, ungroup others = flat ∧
      ∀ effort bindings fresh, prover.explore (effort + extra) (⟨first, depth⟩ :: rest)
        bindings fresh = prover.explore effort (⟨term, depth⟩ :: others) bindings fresh := by
  induction first using Term.goalsInduction generalizing rest with
  | single first single =>
      rw [ungroup_single single] at same
      obtain ⟨firstSame, restSame⟩ := List.cons.inj same
      obtain ⟨rfl, _⟩ := Goal.mk.inj firstSame
      exact ⟨rest, 0, restSame, fun _ _ _ => rfl⟩
  | joined left right leftInduction _ =>
      rw [ungroup_both] at same
      obtain ⟨others, extra, flatSame, explored⟩ := leftInduction _ same
      refine ⟨others, extra + 1, flatSame, ?_⟩
      intro effort bindings fresh
      have walked : bindings.walk (.both left right) = .both left right :=
        bindings.walk_app _ _
      rw [← explored effort bindings fresh, ← Nat.add_assoc]
      simp only [explore, allowed, walked, Term.goalForm_both]

/-- If every branch of some clauses begins a branch of the clause in the same place, all
of them one after the other do, with an effort that is enough for all. -/
theorem exists_begins_followEach {alike : Clause → Clause → Prop}
    {follow : Clause → Nat → Exploration} {followOther : Nat → Clause → Nat → Exploration}
    (grows : ∀ effort larger, effort ≤ larger → ∀ clause fresh,
      (followOther effort clause fresh).Begins (followOther larger clause fresh))
    (begins : ∀ clause other fresh, alike clause other →
      ∃ effort, (follow clause fresh).Begins (followOther effort other fresh))
    {clauses others : List Clause} (pairs : List.Forall₂ alike clauses others)
    (fresh : Nat) :
    ∃ effort, (Exploration.followEach follow clauses fresh).Begins
      (Exploration.followEach (followOther effort) others fresh) := by
  induction pairs generalizing fresh with
  | nil => exact ⟨0, .refl _⟩
  | @cons clause other clauses others pair _ induction =>
      obtain ⟨first, firstBegins⟩ := begins clause other fresh pair
      cases ending : (follow clause fresh).ending with
      | complete middle =>
          obtain ⟨rest, restBegins⟩ := induction middle
          refine ⟨max first rest, ?_⟩
          apply Exploration.Begins.andThen_of_complete
          · exact firstBegins.trans (grows _ _ (Nat.le_max_left first rest) _ _)
          · intro number ended
            obtain rfl : middle = number := by simpa [ending] using ended
            refine restBegins.trans (.followEach ?_ others middle)
            exact grows _ _ (Nat.le_max_right first rest)
      | faulted number =>
          refine ⟨first, firstBegins.andThen_of_complete ?_⟩
          simp [ending]
      | interrupted =>
          refine ⟨first, firstBegins.andThen_of_complete ?_⟩
          simp [ending]

namespace Regroups

variable (regroups : prover.Regroups other) {effort : Nat}
include regroups

theorem forall₂_candidates (signature : Signature) :
    List.Forall₂ (fun clause other => clause.ungrouped = other.ungrouped)
      (prover.candidates signature) (other.candidates signature) := by
  have same := regroups.candidates signature
  rwa [← List.forall₂_eq_eq_eq, List.forall₂_map_left_iff, List.forall₂_map_right_iff] at same

section

/-! What is shown of the goals after the first one is a hypothesis here: the exploration
of all of them, with the effort that is left, can be made up for. -/

variable (onwards : ∀ goals others, ungroup goals = ungroup others → ∀ bindings fresh,
  ∃ larger, (prover.explore effort goals bindings fresh).Begins
    (other.explore larger others bindings fresh))
  {rest others : List Goal} (same : ungroup rest = ungroup others)
include onwards same

theorem follow (goal : Term) (depth : Nat) (bindings : Bindings) {clause otherClause : Clause}
    (alike : clause.ungrouped = otherClause.ungrouped) (fresh : Nat) :
    ∃ larger, (prover.follow effort (prover.explore effort) goal depth rest bindings
        clause fresh).Begins
      (other.follow larger (other.explore larger) goal depth others bindings otherClause
        fresh) := by
  have renamed : (clause.freshen fresh).ungrouped = (otherClause.freshen fresh).ungrouped := by
    rw [Clause.ungrouped_freshen, Clause.ungrouped_freshen, alike]
  have head : (clause.freshen fresh).head = (otherClause.freshen fresh).head :=
    (Clause.mk.inj renamed).1
  cases attempt : unify prover.config.occursCheck effort goal (clause.freshen fresh).head
      bindings with
  | unfinished =>
      refine ⟨0, ?_⟩
      simp only [Prover.follow, attempt]
      exact .interrupted _
  | clash =>
      have attemptToo := attempt
      rw [head, regroups.config] at attemptToo
      refine ⟨effort, ?_⟩
      simp only [Prover.follow, attempt, attemptToo, ← regroups.nextNumber]
      exact .refl _
  | unified extended =>
      have entered : ungroup ((clause.freshen fresh).body.map (⟨·, depth + 1⟩) ++ rest) =
          ungroup ((otherClause.freshen fresh).body.map (⟨·, depth + 1⟩) ++ others) := by
        rw [ungroup_append, ungroup_append, ungroup_body, ungroup_body, renamed, same]
      obtain ⟨larger, begins⟩ := onwards _ _ entered extended (prover.nextNumber fresh)
      have attemptToo := unify_eq_of_answered attempt (by simp) (Nat.le_max_left effort larger)
      rw [head, regroups.config] at attemptToo
      refine ⟨max effort larger, ?_⟩
      simp only [Prover.follow, attempt, attemptToo, ← regroups.nextNumber]
      exact begins.trans (explore_begins (Nat.le_max_right effort larger) _ _ _)

theorem explore_first (goal : Goal) (bindings : Bindings) (fresh : Nat) :
    ∃ larger, (prover.explore (effort + 1) (goal :: rest) bindings fresh).Begins
      (other.explore larger (goal :: others) bindings fresh) := by
  obtain ⟨term, depth⟩ := goal
  have config := regroups.config
  cases allowed : prover.config.exceededAt depth with
  | some limit =>
      refine ⟨1, ?_⟩
      simp only [Prover.explore, ← config, allowed]
      exact .refl _
  | none =>
      cases form : (bindings.walk term).goalForm with
      | notCallable =>
          refine ⟨1, ?_⟩
          simp only [Prover.explore, ← config, allowed, form]
          exact .refl _
      | both left right =>
          have unfolded : ungroup (⟨left, depth⟩ :: ⟨right, depth⟩ :: rest) =
              ungroup (⟨left, depth⟩ :: ⟨right, depth⟩ :: others) := by
            simp only [ungroup_cons, same]
          obtain ⟨larger, begins⟩ := onwards _ _ unfolded bindings fresh
          refine ⟨larger + 1, ?_⟩
          simpa only [Prover.explore, ← config, allowed, form] using begins
      | notUnifiable left right =>
          cases attempt : unify prover.config.occursCheck effort (left.substitute bindings)
              (right.substitute bindings) .empty with
          | unfinished =>
              refine ⟨0, ?_⟩
              simp only [Prover.explore, allowed, form, attempt]
              exact .interrupted _
          | unified extended =>
              refine ⟨effort + 1, ?_⟩
              simp only [Prover.explore, ← config, allowed, form, attempt]
              exact .refl _
          | clash =>
              obtain ⟨larger, begins⟩ := onwards _ _ same bindings fresh
              have again := unify_eq_of_answered attempt (by simp)
                (Nat.le_max_left effort larger)
              refine ⟨max effort larger + 1, ?_⟩
              simp only [Prover.explore, ← config, allowed, form, attempt, again]
              exact begins.trans (explore_begins (Nat.le_max_right effort larger) _ _ _)
      | call signature =>
          have grows : ∀ effort larger, effort ≤ larger → ∀ clause fresh,
              (other.follow effort (other.explore effort) (bindings.walk term) depth others
                bindings clause fresh).Begins
              (other.follow larger (other.explore larger) (bindings.walk term) depth others
                bindings clause fresh) :=
            fun _ _ enough => follow_begins enough (explore_begins enough) _ _ _ _
          have followed : ∀ (clause otherClause : Clause) fresh,
              clause.ungrouped = otherClause.ungrouped →
                ∃ larger, (prover.follow effort (prover.explore effort) (bindings.walk term)
                  depth rest bindings clause fresh).Begins
                (other.follow larger (other.explore larger) (bindings.walk term) depth others
                  bindings otherClause fresh) :=
            fun _ _ fresh alike => regroups.follow onwards same _ _ _ alike fresh
          obtain ⟨larger, begins⟩ := exists_begins_followEach grows followed
            (regroups.forall₂_candidates signature) fresh
          refine ⟨larger + 1, ?_⟩
          simpa only [Prover.explore, ← config, allowed, form] using begins

end

/-- A search whose goals and clauses are grouped in another way explores the same, if it
is given enough effort. -/
theorem explore (effort : Nat) {goals others : List Goal}
    (same : ungroup goals = ungroup others) (bindings : Bindings) (fresh : Nat) :
    ∃ larger, (prover.explore effort goals bindings fresh).Begins
      (other.explore larger others bindings fresh) := by
  induction effort generalizing goals others bindings fresh with
  | zero => exact ⟨0, .interrupted _⟩
  | succ effort induction =>
      cases goals with
      | nil =>
          obtain rfl := ungroup_eq_nil_iff.mp same.symm
          exact ⟨1, .refl _⟩
      | cons goal rest =>
          obtain ⟨term, depth⟩ := goal
          obtain ⟨first, tail, rfl⟩ := exists_cons_of_ungroup same
          cases allowed : prover.config.exceededAt depth with
          | some limit =>
              refine ⟨1, ?_⟩
              simp only [Prover.explore, ← regroups.config, allowed]
              exact .refl _
          | none =>
              by_cases conjunction : ∃ left right, term = .both left right
              · -- The effort goes down where the first conjunction is taken apart.
                obtain ⟨left, right, rfl⟩ := conjunction
                rw [ungroup_both] at same
                obtain ⟨larger, begins⟩ := induction same bindings fresh
                have walked : bindings.walk (.both left right) = .both left right :=
                  bindings.walk_app _ _
                refine ⟨larger, ?_⟩
                simpa only [Prover.explore, allowed, walked, Term.goalForm_both] using begins
              · rw [ungroup_single fun left right joined =>
                  conjunction ⟨left, right, joined⟩] at same
                obtain ⟨remaining, extra, flat, explored⟩ := other.explore_ungrouped
                  (regroups.config ▸ allowed) first tail same.symm
                obtain ⟨larger, begins⟩ := regroups.explore_first
                  (fun _ _ grouped => induction grouped) flat.symm ⟨term, depth⟩ bindings
                  fresh
                exact ⟨larger + extra, explored larger bindings fresh ▸ begins⟩

end Regroups

theorem Regroups.symm (regroups : prover.Regroups other) : other.Regroups prover where
  config := regroups.config.symm
  nextNumber := regroups.nextNumber.symm
  candidates signature := (regroups.candidates signature).symm

/-- The answers to the calls do not depend on the grouping. -/
theorem Regroups.gives (regroups : prover.Regroups other) {query otherQuery : Term}
    (same : query.goals = otherQuery.goals) (reported : List String)
    {calls fresh next : Nat} {answer : Option Item}
    (given : prover.Gives fresh ⟨reported, .proving [⟨query, 0⟩] .empty, []⟩ calls answer
      next) :
    other.Gives fresh ⟨reported, .proving [⟨otherQuery, 0⟩] .empty, []⟩ calls answer
      next := by
  obtain ⟨effort, tells⟩ := gives_iff_tells.mp given
  have grouped : ungroup [⟨query, 0⟩] = ungroup [⟨otherQuery, 0⟩] := by
    simp only [ungroup_cons, Goal.ungrouped, same]
  obtain ⟨larger, begins⟩ := regroups.explore effort grouped .empty fresh
  exact gives_iff_tells.mpr ⟨larger, begins.tells tells⟩

end Prover

theorem Prover.regroups_scanning {clauses others : List Clause}
    (same : clauses.map Clause.ungrouped = others.map Clause.ungrouped) (config : Config)
    (nextNumber : Nat → Nat) :
    (scanning clauses config nextNumber).Regroups (scanning others config nextNumber) where
  config := rfl
  nextNumber := rfl
  candidates signature := by
    have filtered : ∀ clauses : List Clause,
        ((scanning clauses config nextNumber).candidates signature).map Clause.ungrouped =
          (clauses.map Clause.ungrouped).filter fun clause =>
            clause.signature? = some signature := by
      intro clauses
      rw [List.filter_map]
      rfl
    rw [filtered, filtered, same]

/-- If two knowledge bases and two queries have the same goals one after the other, however
these are grouped into conjunctions, every call of the one search gives the same as that
call of the other, and takes the same numbers, whatever the counter. -/
theorem KnowledgeBase.Built.search_ignores_grouping {kb other : KnowledgeBase}
    (built : kb.Built) (otherBuilt : other.Built)
    (same : kb.clauses.toList.map Clause.ungrouped =
      other.clauses.toList.map Clause.ungrouped)
    (config : Config) (nextNumber : Nat → Nat) {query otherQuery : Term}
    (callable : query.isVar = false) (otherCallable : otherQuery.isVar = false)
    (sameGoals : query.goals = otherQuery.goals) (fresh : Nat) :
    ∃ search otherSearch, Search.start query = .ok search ∧
      Search.start otherQuery = .ok otherSearch ∧
      ∀ calls answer next,
        (kb.prover config nextNumber).Gives fresh search calls answer next ↔
          (other.prover config nextNumber).Gives fresh otherSearch calls answer next := by
  have regroups := Prover.regroups_scanning same config nextNumber
  rw [← built.prover_eq, ← otherBuilt.prover_eq] at regroups
  have reported : Search.reportedVariables query = Search.reportedVariables otherQuery := by
    simp only [Search.reportedVariables, Term.variableNames, ← Term.occurrences_goals query,
      ← Term.occurrences_goals otherQuery, sameGoals]
  refine ⟨_, _, by simp [Search.start, callable]; rfl,
    by simp [Search.start, otherCallable]; rfl, ?_⟩
  intro calls answer next
  rw [reported]
  constructor
  · exact regroups.gives sameGoals _
  · exact regroups.symm.gives sameGoals.symm _

/-- With `p(f(X)) :- (r, r), r` the query `(r, r), p(A)` has the same answer as `r, r, p(A)`
with `p(f(X)) :- r, r, r`, also when the counter starts over meanwhile. -/
theorem KnowledgeBase.answer_with_other_grouping :
    ∃ kb other search otherSearch,
      kb = (KnowledgeBase.empty.addAll
        [⟨.app "p" [.app "f" [.var "X"]], [.both (.atom "r") (.atom "r"), .atom "r"]⟩,
          ⟨.atom "r", []⟩]).1 ∧
      other = (KnowledgeBase.empty.addAll
        [⟨.app "p" [.app "f" [.var "X"]], [.atom "r", .atom "r", .atom "r"]⟩,
          ⟨.atom "r", []⟩]).1 ∧
      Search.start (.both (.both (.atom "r") (.atom "r")) (.app "p" [.var "A"])) =
        .ok search ∧
      Search.start (.both (.atom "r") (.both (.atom "r") (.app "p" [.var "A"]))) =
        .ok otherSearch ∧
      (kb.prover {} wrappingNext).Gives (UInt64.size - 1) search 0
        (some (.ok ⟨true, .ofList [("A", .app "f" [.var "X#1"])]⟩)) 5 ∧
      (other.prover {} wrappingNext).Gives (UInt64.size - 1) otherSearch 0
        (some (.ok ⟨true, .ofList [("A", .app "f" [.var "X#1"])]⟩)) 5 := by
  obtain ⟨kb, filled⟩ : ∃ kb, kb = (KnowledgeBase.empty.addAll
    [⟨.app "p" [.app "f" [.var "X"]], [.both (.atom "r") (.atom "r"), .atom "r"]⟩,
      ⟨.atom "r", []⟩]).1 := ⟨_, rfl⟩
  obtain ⟨other, otherFilled⟩ : ∃ other, other = (KnowledgeBase.empty.addAll
    [⟨.app "p" [.app "f" [.var "X"]], [.atom "r", .atom "r", .atom "r"]⟩,
      ⟨.atom "r", []⟩]).1 := ⟨_, rfl⟩
  have same : kb.clauses.toList.map Clause.ungrouped =
      other.clauses.toList.map Clause.ungrouped := by
    rw [filled, otherFilled]
    decide
  obtain ⟨search, otherSearch, started, otherStarted, gives⟩ :=
    @KnowledgeBase.Built.search_ignores_grouping kb other
      (filled ▸ .addAll _ .empty) (otherFilled ▸ .addAll _ .empty) same {} wrappingNext
      (.both (.both (.atom "r") (.atom "r")) (.app "p" [.var "A"]))
      (.both (.atom "r") (.both (.atom "r") (.app "p" [.var "A"])))
      rfl rfl (by decide) (UInt64.size - 1)
  have found : (kb.prover {} wrappingNext).Gives (UInt64.size - 1) search 0
      (some (.ok ⟨true, .ofList [("A", .app "f" [.var "X#1"])]⟩)) 5 := by
    have computed : ((kb.prover {} wrappingNext).nthNext 30 0 (UInt64.size - 1) search).answer?.map
        (fun answer => (answer.1, answer.2.1)) =
          some (some (.ok ⟨true, .ofList [("A", .app "f" [.var "X#1"])]⟩), 5) := by
      subst filled
      cases started
      decide +kernel
    obtain ⟨⟨_, _, after⟩, answered, same⟩ := Option.map_eq_some_iff.mp computed
    cases same
    exact ⟨30, after, answered⟩
  exact ⟨kb, other, search, otherSearch, filled, otherFilled, started, otherStarted, found,
    (gives 0 _ _).mp found⟩

end HornLogic
