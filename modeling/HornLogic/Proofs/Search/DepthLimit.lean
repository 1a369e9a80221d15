import HornLogic.Proofs.Search.Instantiation
import HornLogic.Proofs.Term.FreshNames
import HornLogic.Proofs.Unification.Termination

/-!
# Searches with a depth limit

The goals of a clause body lie deeper than the goal that the clause was tried
for, so a depth limit bounds how often a clause is entered below a goal.  It
does not bound how often a conjunction is replaced by its two goals, which lie
as deep as the conjunction.  A conjunction that is written in a goal is taken
apart by recursion through the term.  One that a variable stands for is taken
apart by recursion through its goals as they are at that moment, and this comes
to an end only if none of them is a variable without a value: such a variable
may get another conjunction as its value, again with a variable in it.
-/

namespace HornLogic

namespace Prover

/-- Every call for the next item of a search gets an answer, and after this many
items there are no more.  A fault is the last item. -/
structure EndsAfter (prover : Prover) (fresh : Nat) (search : Search) (count : Nat) :
    Prop where
  yields : ∀ calls, calls < count → ∃ effort item next later,
    prover.nthNext effort calls fresh search = .item item next later
  faultLast : ∀ effort calls cause next later,
    prover.nthNext effort calls fresh search = .item (.error cause) next later →
      calls + 1 = count
  exhausted : ∀ calls, count ≤ calls → ∃ effort next later,
    prover.nthNext effort calls fresh search = .exhausted next later

variable {prover : Prover}

theorem endsAfter_of_runs {fresh last : Nat} {search after : Search}
    {items : List (Item × Nat)} (run : prover.Runs fresh search items last after)
    (ended : after.phase = .finished) :
    prover.EndsAfter fresh search items.length := by
  have yields : ∀ calls, calls < items.length → ∃ effort item next later,
      prover.nthNext effort calls fresh search = .item item next later := by
    intro calls few
    obtain ⟨effort, later, answered⟩ := nthNext_item_iff.mpr
      ⟨items, last, after, List.getElem?_eq_getElem few, run⟩
    exact ⟨effort, _, _, later, answered⟩
  have exhausted : ∀ calls, items.length ≤ calls → ∃ effort next later,
      prover.nthNext effort calls fresh search = .exhausted next later := by
    intro calls enough
    obtain ⟨effort, later, answered⟩ :=
      nthNext_exhausted_iff.mpr ⟨items, after, enough, ended, run⟩
    exact ⟨effort, last, later, answered⟩
  refine ⟨yields, ?_, exhausted⟩
  intro effort calls cause next later answered
  rcases Nat.lt_trichotomy (calls + 1) items.length with fewer | same | more
  · obtain ⟨_, _, _, _, further⟩ := yields (calls + 1) fewer
    obtain ⟨_, _, nothing⟩ := nthNext_after_fault answered (Nat.lt_succ_self calls)
    cases nthNext_unique further nothing (by simp) (by simp)
  · exact same
  · obtain ⟨_, _, _, nothing⟩ := exhausted calls (by omega)
    cases nthNext_unique answered nothing (by simp) (by simp)

/-- The search goes on until it resumes the choices below, or it ends. -/
def ComesBack (prover : Prover) (fresh : Nat) (search : Search) (below : List Choice) :
    Prop :=
  ∃ items later after, prover.Runs fresh search items later after ∧
    (after = ⟨search.reported, .retrying, below⟩ ∨ after.phase = .finished)

section ComesBack

variable {fresh : Nat} {search : Search} {below : List Choice}

theorem comesBack_of_fault (effort : Nat) {later : Nat} {after : Search} {cause : Fault}
    (stepped : SearchStep prover effort fresh search later after
      (some (.error cause))) :
    prover.ComesBack fresh search below := by
  refine ⟨_, later, after, .single effort stepped, .inr ?_⟩
  cases stepped <;> rfl

theorem ComesBack.of_step (effort : Nat) {middle : Nat} {between : Search}
    {item : Option Item} (back : prover.ComesBack middle between below)
    (stepped : SearchStep prover effort fresh search middle between item) :
    prover.ComesBack fresh search below := by
  obtain ⟨items, later, after, run, ends⟩ := back
  have same : between.reported = search.reported :=
    Reaches.reported_eq ⟨_, .single effort stepped⟩
  rw [same] at ends
  exact ⟨_, later, after, .step stepped run, ends⟩

theorem ComesBack.trans {choices : List Choice}
    (first : prover.ComesBack fresh search choices)
    (onwards : ∀ later,
      prover.Reaches fresh search later ⟨search.reported, .retrying, choices⟩ →
        prover.ComesBack later ⟨search.reported, .retrying, choices⟩ below) :
    prover.ComesBack fresh search below := by
  obtain ⟨items, middle, between, run, rfl | ended⟩ := first
  · obtain ⟨others, later, after, rest, ends⟩ := onwards middle ⟨items, run⟩
    exact ⟨_, later, after, run.trans rest, ends⟩
  · exact ⟨items, middle, between, run, .inr ended⟩

end ComesBack

theorem Reaches.step (effort : Nat) {fresh middle last : Nat}
    {search between after : Search} {item : Option Item}
    (reached : prover.Reaches fresh search middle between)
    (stepped : SearchStep prover effort middle between last after item) :
    prover.Reaches fresh search last after :=
  reached.trans ⟨_, .single effort stepped⟩

section GetsThrough

variable {start : Nat} {origin : Search}

/-- Wherever the search from the origin comes to prove these goals, under
bindings that grew from the given ones, it comes back to the choices below. -/
def GetsThrough (prover : Prover) (start : Nat) (origin : Search) (goals : List Goal)
    (bindings : Bindings) : Prop :=
  ∀ fresh extended below, extended.Extends bindings → extended.Acyclic →
    prover.Reaches start origin fresh
      ⟨origin.reported, .proving goals extended, below⟩ →
    prover.ComesBack fresh ⟨origin.reported, .proving goals extended, below⟩ below

/-- A goal at this depth is no obstacle: with it in front, goals that the search
gets through stay so. -/
def PassesAt (prover : Prover) (start : Nat) (origin : Search) (depth : Nat) : Prop :=
  ∀ term rest bindings, prover.GetsThrough start origin rest bindings →
    prover.GetsThrough start origin (⟨term, depth⟩ :: rest) bindings

theorem GetsThrough.later {goals : List Goal} {bindings extended : Bindings}
    (through : prover.GetsThrough start origin goals bindings)
    (extension : extended.Extends bindings) :
    prover.GetsThrough start origin goals extended :=
  fun fresh latest below grown => through fresh latest below (grown.trans extension)

theorem getsThrough_nil (bindings : Bindings) :
    prover.GetsThrough start origin [] bindings := by
  intro fresh extended below _ _ _
  exact ⟨_, fresh, _, .single 0 .answer, .inl rfl⟩

theorem PassesAt.append {depth : Nat} (passes : prover.PassesAt start origin depth)
    (terms : List Term) {rest : List Goal} {bindings : Bindings}
    (through : prover.GetsThrough start origin rest bindings) :
    prover.GetsThrough start origin (terms.map (⟨·, depth⟩) ++ rest) bindings := by
  induction terms with
  | nil => exact through
  | cons term terms induction => exact passes term _ bindings induction

theorem passesAt_of_exceeded {depth limit : Nat}
    (exceeded : prover.config.exceededAt depth = some limit) :
    prover.PassesAt start origin depth := by
  intro term rest bindings _ fresh extended below _ _ _
  exact comesBack_of_fault 0 (.tooDeep exceeded)

section Checked

variable (checked : prover.config.occursCheck = true)
include checked

theorem unify_answers (left right : Term) {bindings : Bindings}
    (acyclic : bindings.Acyclic) :
    ∃ effort,
      unify prover.config.occursCheck effort left right bindings = .clash ∨
      ∃ extended,
        unify prover.config.occursCheck effort left right bindings = .unified extended ∧
        extended.Acyclic ∧ extended.Extends bindings := by
  rw [checked]
  obtain ⟨effort, finished⟩ := unify_finishes left right acyclic
  refine ⟨effort, ?_⟩
  cases attempt : unify true effort left right bindings with
  | unfinished => exact absurd attempt finished
  | clash => exact .inl rfl
  | unified extended =>
      obtain ⟨extendedAcyclic, extension, _⟩ := unified_solutions acyclic attempt
      exact .inr ⟨extended, rfl, extendedAcyclic, extension⟩

/-- Once all clauses for a goal were tried, the search comes back, if it does from
every body that it enters. -/
theorem comesBack_of_choice {goal : Term} {depth : Nat} {rest : List Goal}
    {bindings : Bindings} (acyclic : bindings.Acyclic)
    (passes : prover.PassesAt start origin (depth + 1))
    (through : prover.GetsThrough start origin rest bindings)
    {candidates : List Clause} {fresh : Nat} {below : List Choice}
    (reached : prover.Reaches start origin fresh
      ⟨origin.reported, .retrying, ⟨goal, depth, rest, bindings, candidates⟩ :: below⟩) :
    prover.ComesBack fresh
      ⟨origin.reported, .retrying, ⟨goal, depth, rest, bindings, candidates⟩ :: below⟩
      below := by
  induction candidates generalizing fresh with
  | nil => exact ⟨_, fresh, _, .single 0 .dropped, .inl rfl⟩
  | cons candidate candidates induction =>
      obtain ⟨effort, clash | ⟨extended, unified, extendedAcyclic, extension⟩⟩ :=
        unify_answers checked goal (candidate.freshen fresh).head acyclic
      · have skipped := reached.step effort (.skipped clash)
        exact (induction skipped).of_step effort (.skipped clash)
      · have entered := reached.step effort (.entered unified)
        have body := passes.append (candidate.freshen fresh).body through
        have back := body _ _ _ extension extendedAcyclic entered
        refine (back.trans ?_).of_step effort (.entered unified)
        intro later resumed
        exact induction (entered.trans resumed)

theorem comesBack_of_apart {goal : Goal} {rest : List Goal} {bindings : Bindings}
    (acyclic : bindings.Acyclic)
    (passes : prover.PassesAt start origin (goal.depth + 1))
    (through : prover.GetsThrough start origin rest bindings)
    (apart : ∀ left right, bindings.walk goal.term ≠ .both left right)
    {fresh : Nat} {below : List Choice}
    (reached : prover.Reaches start origin fresh
      ⟨origin.reported, .proving (goal :: rest) bindings, below⟩) :
    prover.ComesBack fresh ⟨origin.reported, .proving (goal :: rest) bindings, below⟩
      below := by
  cases allowed : prover.config.exceededAt goal.depth with
  | some limit => exact comesBack_of_fault 0 (.tooDeep allowed)
  | none =>
      cases form : (bindings.walk goal.term).goalForm with
      | notCallable => exact comesBack_of_fault 0 (.notCallable allowed form)
      | both left right => exact absurd (Term.eq_both_of_goalForm form) (apart left right)
      | notUnifiable left right =>
          obtain ⟨effort, clash | ⟨extended, unified, _⟩⟩ :=
            unify_answers checked (left.substitute bindings) (right.substitute bindings)
              Bindings.acyclic_empty
          · have passed := reached.step effort (.passed allowed form clash)
            have back := through _ _ _ (.refl bindings) acyclic passed
            exact back.of_step effort (.passed allowed form clash)
          · exact ⟨_, fresh, _, .single effort (.refuted allowed form unified), .inl rfl⟩
      | call signature =>
          by_cases candidates : prover.candidates signature = []
          · exact ⟨_, fresh, _, .single 0 (.noClauses allowed form candidates), .inl rfl⟩
          · have called := reached.step 0 (.called allowed form candidates)
            have back := comesBack_of_choice checked acyclic passes through called
            exact back.of_step 0 (.called allowed form candidates)

omit checked in
/-- The search gets through a first goal that stands for a conjunction if it gets
through the two goals that it joins. -/
theorem comesBack_of_both {goal : Goal} {rest : List Goal} {bindings : Bindings}
    (acyclic : bindings.Acyclic) {left right : Term}
    (joined : bindings.walk goal.term = .both left right)
    (through : prover.GetsThrough start origin
      (⟨left, goal.depth⟩ :: ⟨right, goal.depth⟩ :: rest) bindings)
    {fresh : Nat} {below : List Choice}
    (reached : prover.Reaches start origin fresh
      ⟨origin.reported, .proving (goal :: rest) bindings, below⟩) :
    prover.ComesBack fresh ⟨origin.reported, .proving (goal :: rest) bindings, below⟩
      below := by
  cases allowed : prover.config.exceededAt goal.depth with
  | some limit => exact comesBack_of_fault 0 (.tooDeep allowed)
  | none =>
      have form : (bindings.walk goal.term).goalForm = .both left right := by
        rw [joined, Term.goalForm_both]
      have parted := reached.step 0 (.both allowed form)
      have back := through _ _ _ (.refl bindings) acyclic parted
      exact back.of_step 0 (.both allowed form)

/-- The search gets through a first goal that is instantiated, by recursion
through the conjunctions in it. -/
theorem getsThrough_of_instantiates {depth : Nat}
    (passes : prover.PassesAt start origin (depth + 1)) {bindings : Bindings}
    {term : Term} (instantiated : bindings.Instantiates term) {rest : List Goal}
    (through : prover.GetsThrough start origin rest bindings) :
    prover.GetsThrough start origin (⟨term, depth⟩ :: rest) bindings := by
  induction instantiated generalizing rest with
  | @single term callable apart =>
      intro fresh extended below extension acyclic reached
      refine comesBack_of_apart checked acyclic passes (through.later extension) ?_ reached
      rw [acyclic.walk_eq_of_includes extension.includes callable]
      exact apart
  | @both term left right joined _ _ leftInduction rightInduction =>
      intro fresh extended below extension acyclic reached
      have walked := acyclic.walk_eq_of_includes extension.includes (by rw [joined]; rfl)
      have bothThrough := leftInduction (rightInduction through)
      exact comesBack_of_both acyclic (walked.trans joined) (bothThrough.later extension)
        reached

end Checked

/-- A goal at some depth is no obstacle if the goals one deeper are none: the
search gets through it by recursion through the term. -/
theorem passesAt_of_deeper (checked : prover.config.occursCheck = true)
    (instantiated : prover.CallsInstantiated start origin) {depth : Nat}
    (passes : prover.PassesAt start origin (depth + 1)) :
    prover.PassesAt start origin depth := by
  intro term
  induction term with
  | atom name =>
      intro rest bindings through fresh extended below extension acyclic reached
      refine comesBack_of_apart checked acyclic passes (through.later extension) ?_ reached
      intro left right joined
      cases joined
  | var name =>
      intro rest bindings through fresh extended below extension acyclic reached
      by_cases conjunction : ∃ left right, extended.walk (.var name) = .both left right
      · obtain ⟨left, right, joined⟩ := conjunction
        obtain ⟨leftInstantiated, rightInstantiated⟩ :=
          instantiated _ _ _ _ _ _ _ _ _ reached joined
        have whole : extended.Instantiates (.var name) :=
          .both joined leftInstantiated rightInstantiated
        exact getsThrough_of_instantiates checked passes whole (through.later extension)
          _ _ _ (.refl extended) acyclic reached
      · refine comesBack_of_apart checked acyclic passes (through.later extension) ?_ reached
        intro left right joined
        exact conjunction ⟨left, right, joined⟩
  | app functor args induction =>
      intro rest bindings through fresh extended below extension acyclic reached
      by_cases conjunction : ∃ left right, Term.app functor args = .both left right
      · obtain ⟨left, right, joined⟩ := conjunction
        obtain ⟨rfl, rfl⟩ : functor = Term.conjunctionName ∧ args = [left, right] := by
          simpa [Term.both] using joined
        have rightThrough := induction right (by simp) rest bindings through
        have bothThrough := induction left (by simp) _ bindings rightThrough
        exact comesBack_of_both acyclic rfl (bothThrough.later extension) reached
      · refine comesBack_of_apart checked acyclic passes (through.later extension) ?_ reached
        intro left right joined
        exact conjunction ⟨left, right, joined⟩

/-- Under a depth limit no goal is an obstacle, by induction on how far its depth
is from the limit. -/
theorem passesAt_of_limit (checked : prover.config.occursCheck = true) {limit : Nat}
    (limited : prover.config.maxDepth = some limit)
    (instantiated : prover.CallsInstantiated start origin) (depth : Nat) :
    prover.PassesAt start origin depth := by
  induction gap : limit + 1 - depth generalizing depth with
  | zero =>
      have beyond : limit < depth := by omega
      have exceeded : prover.config.exceededAt depth = some limit := by
        simp [Config.exceededAt, limited, Option.filter, beyond]
      exact passesAt_of_exceeded exceeded
  | succ gap induction =>
      exact passesAt_of_deeper checked instantiated (induction (depth + 1) (by omega))

theorem endsAfter_of_getsThrough {reported : List String} {query : Term}
    (through : prover.GetsThrough start
      ⟨reported, .proving [⟨query, 0⟩] .empty, []⟩ [⟨query, 0⟩] .empty) :
    ∃ count, prover.EndsAfter start ⟨reported, .proving [⟨query, 0⟩] .empty, []⟩ count := by
  obtain ⟨items, later, after, run, rfl | ended⟩ :=
    through _ _ _ (.refl _) Bindings.acyclic_empty ⟨[], .refl _ _⟩
  · exact ⟨_, endsAfter_of_runs (run.trans (.single 0 .ended)) rfl⟩
  · exact ⟨_, endsAfter_of_runs run ended⟩

end GetsThrough

end Prover

/-- A search with the occurs check and a depth limit ends, if the conjunctions
that variables stand for when they are selected as goals are instantiated. -/
theorem KnowledgeBase.limited_search_ends {kb : KnowledgeBase} {config : Config}
    {nextNumber : Nat → Nat} (checked : config.occursCheck = true) {limit : Nat}
    (limited : config.maxDepth = some limit) {query : Term} {search : Search}
    (started : Search.start query = .ok search) {fresh : Nat}
    (instantiated : (kb.prover config nextNumber).CallsInstantiated fresh search) :
    ∃ count, (kb.prover config nextNumber).EndsAfter fresh search count := by
  obtain rfl := eq_of_start started
  have passes := Prover.passesAt_of_limit checked limited instantiated 0
  exact Prover.endsAfter_of_getsThrough (passes query [] .empty (Prover.getsThrough_nil _))

/-- The search for a generated goal ends: `gen(X), X` over the clauses
`gen((t, t))` and `t`. -/
theorem KnowledgeBase.limited_search_for_generated_goal_ends :
    ∃ search,
      Search.start (.both (.app "gen" [.var "X"]) (.var "X")) = .ok search ∧
      ∃ count,
        ((KnowledgeBase.empty.addAll
          [⟨.app "gen" [.both (.atom "t") (.atom "t")], []⟩, ⟨.atom "t", []⟩]).1.prover
            { maxDepth := some 1 }).EndsAfter 0 search count := by
  obtain ⟨search, started⟩ : ∃ search,
      Search.start (.both (.app "gen" [.var "X"]) (.var "X")) = .ok search := ⟨_, rfl⟩
  have clauses : ∀ clause ∈ (KnowledgeBase.empty.addAll
      [⟨.app "gen" [.both (.atom "t") (.atom "t")], []⟩, ⟨.atom "t", []⟩]).1.clauses.toList,
      clause.Rigid := by
    refine List.forall_mem_cons.mpr ⟨⟨by decide, nofun⟩, ?_⟩
    exact List.forall_mem_singleton.mpr ⟨by decide, nofun⟩
  have goal : (Term.both (.app "gen" [.var "X"]) (.var "X")).RigidGoal :=
    .both (.rigid (by decide)) (.var "X")
  have instantiated := KnowledgeBase.callsInstantiated_of_rigid { maxDepth := some 1 }
    clauses goal started 0
  exact ⟨search, started,
    KnowledgeBase.limited_search_ends rfl rfl started instantiated⟩

/-! ## An endless search -/

/-- A goal with an unbound variable as its only argument unifies with a fact
about a term in which the variable does not occur. -/
theorem unify_unbound_arg (functor : String) {bindings : Bindings} {name : String}
    (unbound : bindings.get? name = none) {value : Term} (different : value.isVar = false)
    (absent : bindings.occursIn name value = some false) :
    unify true 2 (.app functor [.var name]) (.app functor [value]) bindings =
      .unified (bindings.bind name value) := by
  cases value with
  | var other => cases different
  | atom constant =>
      simp [unify, unifyPairs, Bindings.bindChecked, Bindings.walk_of_unbound unbound, absent]
  | app inner args =>
      simp [unify, unifyPairs, Bindings.bindChecked, Bindings.walk_of_unbound unbound, absent]

namespace KnowledgeBase

/-- The clauses `q(t)`, `t` and `q((q(Y), Y))`: the last one answers the goal
`q(X)` with a conjunction that has the same form as `q(X), X`. -/
def unwinding : KnowledgeBase :=
  (KnowledgeBase.empty.addAll
    [⟨.app "q" [.atom "t"], []⟩, ⟨.atom "t", []⟩,
      ⟨.app "q" [.both (.app "q" [.var "Y"]) (.var "Y")], []⟩]).1

/-- The search is about to prove `q(X), X` for a variable that has no value, and
the next numbers make names that are not in use. -/
inductive Unwinds (fresh : Nat) : Search → Prop where
  | intro {reported : List String} {name : String} {bindings : Bindings}
      {stack : List Choice} (unbound : bindings.get? name = none)
      (unused : ∀ number, fresh ≤ number →
        bindings.get? (freshName number "Y") = none ∧ name ≠ freshName number "Y") :
      Unwinds fresh
        ⟨reported, .proving [⟨.app "q" [.var name], 0⟩, ⟨.var name, 0⟩] bindings, stack⟩

theorem unwinding_answers {fresh : Nat} {reported : List String} {name : String}
    {bindings : Bindings} {stack : List Choice} (unbound : bindings.get? name = none) :
    ∃ solution,
      (unwinding.prover { maxDepth := some 0 }).Runs fresh
        ⟨reported, .proving [⟨.app "q" [.var name], 0⟩, ⟨.var name, 0⟩] bindings, stack⟩
        [(.ok solution, fresh + 2)] (fresh + 2)
        ⟨reported, .retrying,
          ⟨.app "q" [.var name], 0, [⟨.var name, 0⟩], bindings,
            [⟨.app "q" [.both (.app "q" [.var "Y"]) (.var "Y")], []⟩]⟩ :: stack⟩ := by
  have bound : (bindings.bind name (.atom "t")).walk (.var name) = .atom "t" := by
    simp [Bindings.walk, Bindings.follow, Bindings.get?_bind]
  have unified : unify true 2 (.app "q" [.var name]) (.app "q" [.atom "t"]) bindings =
      .unified (bindings.bind name (.atom "t")) :=
    unify_unbound_arg "q" unbound rfl rfl
  have same : ∀ current : Bindings, unify true 1 (.atom "t") (.atom "t") current =
      .unified current := fun current => by simp [unify]
  refine ⟨Search.solutionUnder reported (bindings.bind name (.atom "t")), ?_⟩
  refine .trans (.single 0 (.called rfl rfl (List.cons_ne_nil _ _))) ?_
  refine .trans (.single 2 (.entered unified)) ?_
  refine .trans (.single 0 (.called rfl (by rw [bound]; rfl) (List.cons_ne_nil _ _))) ?_
  rw [bound]
  refine .trans (.single 1 (.entered (same _))) ?_
  refine .trans (.single 0 .answer) ?_
  exact .single 0 .dropped

theorem unwinding_continues {fresh : Nat} {reported : List String} {name next : String}
    {bindings : Bindings} {stack : List Choice} (unbound : bindings.get? name = none)
    (made : next = freshName fresh "Y") (nextUnbound : bindings.get? next = none)
    (different : name ≠ next) :
    (unwinding.prover { maxDepth := some 0 }).Runs fresh
      ⟨reported, .retrying,
        ⟨.app "q" [.var name], 0, [⟨.var name, 0⟩], bindings,
          [⟨.app "q" [.both (.app "q" [.var "Y"]) (.var "Y")], []⟩]⟩ :: stack⟩
      [] (fresh + 1)
      ⟨reported,
        .proving [⟨.app "q" [.var next], 0⟩, ⟨.var next, 0⟩]
          (bindings.bind name (.both (.app "q" [.var next]) (.var next))),
        ⟨.app "q" [.var name], 0, [⟨.var name, 0⟩], bindings, []⟩ :: stack⟩ := by
  have absent : bindings.occursIn name (.both (.app "q" [.var next]) (.var next)) =
      some false := by
    have other : bindings.occursAt name (bindings.size + 1) next = some false := by
      simp [Bindings.occursAt, Bindings.walk_of_unbound nextUnbound, different.symm]
    simp [Bindings.occursIn, Term.both, anyName?, other]
  have unified : unify true 2 (.app "q" [.var name])
      (.app "q" [.both (.app "q" [.var next]) (.var next)]) bindings =
        .unified (bindings.bind name (.both (.app "q" [.var next]) (.var next))) :=
    unify_unbound_arg "q" unbound rfl absent
  have joined : (bindings.bind name (.both (.app "q" [.var next]) (.var next))).walk
      (.var name) = .both (.app "q" [.var next]) (.var next) := by
    simp [Bindings.walk, Bindings.follow, Bindings.get?_bind, Term.both]
  subst made
  refine .trans (.single 2 (.entered unified)) ?_
  exact .single 0 (.both rfl (by rw [joined, Term.goalForm_both]))

/-- One round yields a solution and comes to the same kind of state. -/
theorem Unwinds.round {fresh : Nat} {search : Search} (unwinds : Unwinds fresh search) :
    ∃ solution after,
      (unwinding.prover { maxDepth := some 0 }).Runs fresh search
        [(.ok solution, fresh + 2)] (fresh + 3) after ∧
      Unwinds (fresh + 3) after := by
  cases unwinds with
  | @intro reported name bindings stack unbound unused =>
      obtain ⟨nextUnbound, different⟩ := unused (fresh + 2) (by omega)
      obtain ⟨solution, answers⟩ := @unwinding_answers fresh reported _ _ stack unbound
      refine ⟨solution, _,
        answers.trans (unwinding_continues unbound rfl nextUnbound different), ?_, ?_⟩
      · simpa [Bindings.get?_bind, different.symm] using nextUnbound
      · intro number later
        obtain ⟨numberUnbound, numberOther⟩ := unused number (by omega)
        constructor
        · simpa [Bindings.get?_bind, numberOther.symm] using numberUnbound
        · intro same
          have numbers := (freshName_inj.mp same).2
          omega

/-- However often it is asked, the search yields one more solution. -/
theorem Unwinds.yields {fresh : Nat} {search : Search} (unwinds : Unwinds fresh search)
    (calls : Nat) :
    ∃ items last after, (unwinding.prover { maxDepth := some 0 }).Runs fresh search items
      last after ∧ calls < items.length := by
  induction calls generalizing fresh search with
  | zero =>
      obtain ⟨solution, after, run, _⟩ := unwinds.round
      exact ⟨_, _, after, run, by simp⟩
  | succ calls induction =>
      obtain ⟨solution, between, run, again⟩ := unwinds.round
      obtain ⟨items, last, after, others, enough⟩ := induction again
      exact ⟨_, last, after, run.trans others, by simpa using enough⟩

theorem unwinds_of_start {search : Search}
    (started : Search.start (.both (.app "q" [.var "_Y"]) (.var "_Y")) = .ok search) :
    ∃ after, (unwinding.prover { maxDepth := some 0 }).Runs 0 search [] 0 after ∧
      Unwinds 0 after := by
  obtain rfl := eq_of_start started
  refine ⟨_, .single 0 (.both rfl rfl), .intro rfl ?_⟩
  intro number _
  refine ⟨rfl, fun same => ?_⟩
  have marked := mark_mem_freshName number "Y"
  rw [← same] at marked
  revert marked
  decide

/-- A depth limit of 0 does not end the search for `q(_Y), _Y`. -/
theorem unwinding_search_endless :
    ∃ search,
      Search.start (.both (.app "q" [.var "_Y"]) (.var "_Y")) = .ok search ∧
      ∀ count, ¬ (unwinding.prover { maxDepth := some 0 }).EndsAfter 0 search count := by
  obtain ⟨search, started⟩ : ∃ search,
      Search.start (.both (.app "q" [.var "_Y"]) (.var "_Y")) = .ok search := ⟨_, rfl⟩
  refine ⟨search, started, fun count ends => ?_⟩
  obtain ⟨between, first, unwinds⟩ := unwinds_of_start started
  obtain ⟨items, last, after, onwards, enough⟩ := unwinds.yields count
  obtain ⟨_, _, answered⟩ := Prover.nthNext_item_iff.mpr
    ⟨items, last, after, List.getElem?_eq_getElem enough, first.trans onwards⟩
  obtain ⟨_, _, _, nothing⟩ := ends.exhausted count (Nat.le_refl count)
  cases Prover.nthNext_unique answered nothing (by simp) (by simp)

end KnowledgeBase

end HornLogic
