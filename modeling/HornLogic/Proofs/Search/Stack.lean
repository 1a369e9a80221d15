import HornLogic.Proofs.KnowledgeBase
import HornLogic.Proofs.Search.Soundness
import Mathlib.Data.List.Chain

/-!
# The stack of choices

The choices of a search lie on top of each other as the goals were reached: the
bindings of a choice grew from those of the choice below, and its goal is at most
one clause deeper.  What is left to be proved after its goal gets less and less
deep, and the clauses that are left for its goal are the last ones of the
predicate.  All of this holds at every moment of a search with the occurs check;
the branch that is being proved lies on top of the newest choice in the same way.
-/

namespace HornLogic

/-- A choice lies on top of another one. -/
structure Choice.Above (upper lower : Choice) : Prop where
  extension : upper.bindings.Extends lower.bindings
  depth : upper.depth ≤ lower.depth + 1

/-- The clauses that were not tried stand at the last of the positions that the
knowledge base has for the predicate of the goal. -/
def Choice.Untried (kb : KnowledgeBase) (choice : Choice) : Prop :=
  ∃ signature positions, choice.goal.signature? = some signature ∧
    positions <:+ kb.positions signature ∧
    positions.map (fun position => kb.clauses[position]?) = choice.candidates.map some

/-- What holds of every choice of a search. -/
structure Choice.WellPlaced (kb : KnowledgeBase) (config : Config) (choice : Choice) :
    Prop where
  acyclic : choice.bindings.Acyclic
  callable : choice.goal.isVar = false
  noConjunction : ∀ left right, choice.goal ≠ .both left right
  noTest : ∀ left right, choice.goal ≠ .notUnifiable left right
  untried : choice.Untried kb
  /-- No goal is deeper than one before it. -/
  descending : (choice.depth :: choice.rest.map Goal.depth).Pairwise (· ≥ ·)
  limited : ∀ limit, config.maxDepth = some limit → choice.depth ≤ limit

/-- The bindings of a branch are acyclic, and none of its goals is deeper than one
before it. -/
structure DescendingBranch (goals : List Goal) (bindings : Bindings) : Prop where
  acyclic : bindings.Acyclic
  descending : (goals.map Goal.depth).Pairwise (· ≥ ·)

theorem descendingBranch_branchLaw {prover : Prover}
    (checked : prover.config.occursCheck = true) (clauses : List Clause) :
    BranchLaw prover clauses fun _ => DescendingBranch where
  later branch := branch
  walked branch := ⟨branch.acyclic, branch.descending⟩
  both {_ depth _ _ _ _} branch := by
    obtain ⟨others, rest⟩ := List.pairwise_cons.mp branch.descending
    refine ⟨branch.acyclic, List.pairwise_cons.mpr ⟨?_, branch.descending⟩⟩
    exact List.forall_mem_cons.mpr ⟨Nat.le_refl depth, others⟩
  passed branch _ := ⟨branch.acyclic, (List.pairwise_cons.mp branch.descending).2⟩
  entered {_ _ goal rest _ _ _ _} branch _ _ unifies := by
    rw [checked] at unifies
    obtain ⟨others, descending⟩ := List.pairwise_cons.mp branch.descending
    refine ⟨(unified_solutions branch.acyclic unifies).1, ?_⟩
    rw [List.map_append, List.pairwise_append, List.map_map]
    refine ⟨?_, descending, ?_⟩
    · rw [List.pairwise_map]
      exact List.pairwise_of_forall fun _ _ => Nat.le_refl _
    · intro upper upperMember lower lowerMember
      obtain ⟨_, _, rfl⟩ := List.mem_map.mp upperMember
      exact Nat.le_succ_of_le (others lower lowerMember)

theorem descendingBranch_start (query : Term) : DescendingBranch [⟨query, 0⟩] .empty :=
  ⟨Bindings.acyclic_empty, List.pairwise_singleton _ _⟩

theorem KnowledgeBase.Indexed.map_positions {kb : KnowledgeBase} (indexed : kb.Indexed)
    (signature : Signature) :
    (kb.positions signature).map (fun position => kb.clauses[position]?) =
      (kb.clausesOf signature).map some := by
  have filled : ∀ position ∈ kb.positions signature, ∃ clause,
      kb.clauses[position]? = some clause := by
    intro position member
    rw [indexed.positions_eq] at member
    have named := of_decide_eq_true (List.mem_filter.mp member).2
    obtain ⟨clause, found, _⟩ := Option.bind_eq_some_iff.mp named
    exact ⟨clause, found⟩
  rw [clausesOf]
  generalize kb.positions signature = positions at filled
  induction positions with
  | nil => rfl
  | cons position positions induction =>
      obtain ⟨⟨clause, found⟩, others⟩ := List.forall_mem_cons.mp filled
      simp [found, induction others]

theorem Choice.Untried.later {kb : KnowledgeBase} {goal : Term} {depth : Nat}
    {rest : List Goal} {bindings : Bindings} {candidate : Clause}
    {candidates : List Clause}
    (untried : Choice.Untried kb ⟨goal, depth, rest, bindings, candidate :: candidates⟩) :
    Choice.Untried kb ⟨goal, depth, rest, bindings, candidates⟩ := by
  obtain ⟨signature, positions, named, last, clauses⟩ := untried
  cases positions with
  | nil => cases clauses
  | cons position positions =>
      exact ⟨signature, positions, named, (List.suffix_cons _ _).trans last,
        (List.cons.inj clauses).2⟩

/-- The branch that is being proved and the choices lie on top of each other. -/
structure Search.Layered (kb : KnowledgeBase) (config : Config) (search : Search) :
    Prop where
  chain : search.stack.IsChain Choice.Above
  untried : ∀ choice ∈ search.stack, choice.Untried kb
  limited : ∀ choice ∈ search.stack, config.exceededAt choice.depth = none
  top : ∀ goals bindings, search.phase = .proving goals bindings →
    ∀ lower ∈ search.stack.head?, bindings.Extends lower.bindings ∧
      ∀ goal ∈ goals, goal.depth ≤ lower.depth + 1

section

variable {kb : KnowledgeBase} {config : Config} {nextNumber : Nat → Nat} {reported : List String}

theorem Search.Layered.without_branch {phase other : Phase} {stack : List Choice}
    (layered : Search.Layered kb config ⟨reported, phase, stack⟩)
    (none : ∀ goals bindings, other ≠ .proving goals bindings) :
    Search.Layered kb config ⟨reported, other, stack⟩ where
  chain := layered.chain
  untried := layered.untried
  limited := layered.limited
  top goals bindings proving := absurd proving (none goals bindings)

theorem layered_of_no_choice {phase : Phase} :
    Search.Layered kb config ⟨reported, phase, []⟩ where
  chain := .nil
  untried := by simp
  limited := by simp
  top := by simp

/-- Goals with the same bindings that are no deeper than goals before take their
place. -/
theorem Search.Layered.replace {goals others : List Goal} {bindings : Bindings}
    {stack : List Choice}
    (layered : Search.Layered kb config ⟨reported, .proving goals bindings, stack⟩)
    (shallower : ∀ other ∈ others, ∃ goal ∈ goals, other.depth ≤ goal.depth) :
    Search.Layered kb config ⟨reported, .proving others bindings, stack⟩ where
  chain := layered.chain
  untried := layered.untried
  limited := layered.limited
  top _ _ proving := by
    cases proving
    intro lower newest
    obtain ⟨extension, depths⟩ := layered.top _ _ rfl lower newest
    refine ⟨extension, ?_⟩
    intro other member
    obtain ⟨goal, goalMember, less⟩ := shallower other member
    exact less.trans (depths goal goalMember)

theorem Search.Layered.tried {phase : Phase} {goal : Term} {depth : Nat}
    {rest : List Goal} {bindings : Bindings} {candidate : Clause}
    {candidates : List Clause} {stack : List Choice}
    (layered : Search.Layered kb config
      ⟨reported, phase, ⟨goal, depth, rest, bindings, candidate :: candidates⟩ :: stack⟩) :
    Search.Layered kb config
      ⟨reported, .retrying, ⟨goal, depth, rest, bindings, candidates⟩ :: stack⟩ where
  chain := by
    obtain ⟨above, below⟩ := List.isChain_cons.mp layered.chain
    refine List.isChain_cons.mpr ⟨?_, below⟩
    intro lower newest
    exact ⟨(above lower newest).extension, (above lower newest).depth⟩
  untried := by
    obtain ⟨first, others⟩ := List.forall_mem_cons.mp layered.untried
    exact List.forall_mem_cons.mpr ⟨first.later, others⟩
  limited := by
    obtain ⟨first, others⟩ := List.forall_mem_cons.mp layered.limited
    exact List.forall_mem_cons.mpr ⟨first, others⟩
  top _ _ proving := by cases proving

theorem Search.Layered.dropped {phase : Phase} {newest : Choice} {stack : List Choice}
    (layered : Search.Layered kb config ⟨reported, phase, newest :: stack⟩) :
    Search.Layered kb config ⟨reported, .retrying, stack⟩ where
  chain := (List.isChain_cons.mp layered.chain).2
  untried := (List.forall_mem_cons.mp layered.untried).2
  limited := (List.forall_mem_cons.mp layered.limited).2
  top _ _ proving := by cases proving

/-- The body of the clause and what was left after the goal lie on top of the choice that
the clause was taken from. -/
theorem Search.Layered.entered {phase : Phase} {goal : Term} {depth : Nat}
    {rest : List Goal} {bindings extended : Bindings} {candidate : Clause}
    {candidates : List Clause} {stack : List Choice}
    (layered : Search.Layered kb config
      ⟨reported, phase, ⟨goal, depth, rest, bindings, candidate :: candidates⟩ :: stack⟩)
    (descending : (depth :: rest.map Goal.depth).Pairwise (· ≥ ·))
    (extension : extended.Extends bindings) (body : List Term) :
    Search.Layered kb config
      ⟨reported, .proving (body.map (⟨·, depth + 1⟩) ++ rest) extended,
        ⟨goal, depth, rest, bindings, candidates⟩ :: stack⟩ where
  chain := layered.tried.chain
  untried := layered.tried.untried
  limited := layered.tried.limited
  top _ _ proving := by
    cases proving
    intro lower newest
    cases newest
    refine ⟨extension, ?_⟩
    intro upper member
    obtain ⟨others, _⟩ := List.pairwise_cons.mp descending
    rcases List.mem_append.mp member with inBody | inRest
    · obtain ⟨_, _, rfl⟩ := List.mem_map.mp inBody
      exact Nat.le_refl _
    · exact Nat.le_succ_of_le (others _ (List.mem_map_of_mem inRest))

theorem Search.Layered.step (indexed : kb.Indexed) {clauses : List Clause}
    {effort fresh later : Nat} {search after : Search} {item : Option Item}
    (lawful : search.Lawful clauses DescendingBranch)
    (layered : search.Layered kb config)
    (stepped : SearchStep (kb.prover config nextNumber) effort fresh search later after item) :
    after.Layered kb config := by
  cases stepped with
  | idle => exact layered
  | answer => exact layered.without_branch (by simp)
  | tooDeep exceeded => exact layered_of_no_choice
  | notCallable allowed form => exact layered_of_no_choice
  | ended => exact layered_of_no_choice
  | refuted allowed form unifies => exact layered.without_branch (by simp)
  | noClauses allowed form noCandidates => exact layered.without_branch (by simp)
  | @both _ _ goal rest _ left right allowed form =>
      apply layered.replace
      intro other member
      rcases List.mem_cons.mp member with rfl | member
      · exact ⟨goal, List.mem_cons_self, Nat.le_refl _⟩
      · rcases List.mem_cons.mp member with rfl | inRest
        · exact ⟨goal, List.mem_cons_self, Nat.le_refl _⟩
        · exact ⟨other, List.mem_cons_of_mem _ inRest, Nat.le_refl _⟩
  | passed allowed form clashes =>
      apply layered.replace
      intro other inRest
      exact ⟨other, List.mem_cons_of_mem _ inRest, Nat.le_refl _⟩
  | @called _ stack goal rest bindings signature allowed form someCandidates =>
      have top := layered.top _ _ rfl
      constructor
      · refine List.isChain_cons.mpr ⟨?_, layered.chain⟩
        intro lower newest
        obtain ⟨extension, depths⟩ := top lower newest
        exact ⟨extension, depths goal List.mem_cons_self⟩
      · refine List.forall_mem_cons.mpr ⟨?_, layered.untried⟩
        exact ⟨signature, kb.positions signature, Term.signature?_of_goalForm form,
          List.suffix_refl _, indexed.map_positions signature⟩
      · exact List.forall_mem_cons.mpr ⟨allowed, layered.limited⟩
      · intro _ _ proving
        cases proving
  | dropped => exact layered.dropped
  | skipped clashes => exact layered.tried
  | entered unifies =>
      obtain ⟨⟨branch, _, _⟩, _⟩ := List.forall_mem_cons.mp lawful.choices
      obtain ⟨extension, _⟩ := unify_extends branch.acyclic.chainsEnd unifies
      exact layered.entered branch.descending extension _

end

/-- Whenever a search with the occurs check is between two steps, as it is after
every call for the next item, all its choices are well placed and lie on top of each
other. -/
theorem KnowledgeBase.Built.choices_wellPlaced {kb : KnowledgeBase} (built : kb.Built)
    {config : Config} {nextNumber : Nat → Nat} (checked : config.occursCheck = true)
    {query : Term} {search : Search} (started : Search.start query = .ok search) (fresh : Nat) :
    (∀ later after, (kb.prover config nextNumber).Reaches fresh search later after →
      (∀ choice ∈ after.stack, choice.WellPlaced kb config) ∧
        after.stack.IsChain Choice.Above) ∧
    ∀ effort calls later after,
      ((∃ item, (kb.prover config nextNumber).nthNext effort calls fresh search =
          .item item later after) ∨
        (kb.prover config nextNumber).nthNext effort calls fresh search = .exhausted later after) →
        (kb.prover config nextNumber).Reaches fresh search later after := by
  constructor
  · intro later after reached
    have law : BranchLaw (kb.prover config nextNumber) kb.clauses.toList
        fun _ => DescendingBranch :=
      descendingBranch_branchLaw checked _
    have stored : ∀ signature, ∀ candidate ∈ (kb.prover config nextNumber).candidates signature,
        candidate ∈ kb.clauses.toList :=
      fun _ _ => mem_of_mem_clausesOf
    obtain ⟨lawful, layered⟩ :
        after.Lawful kb.clauses.toList DescendingBranch ∧ after.Layered kb config := by
      apply reached.preserves fun _ search =>
        search.Lawful kb.clauses.toList DescendingBranch ∧ search.Layered kb config
      · intro effort fresh later search after item kept stepped
        exact ⟨law.step stored kept.1 stepped, kept.2.step built.indexed kept.1 stepped⟩
      · rw [eq_of_start started]
        exact ⟨lawful_proving (descendingBranch_start query) (by simp), layered_of_no_choice⟩
    refine ⟨?_, layered.chain⟩
    intro choice member
    obtain ⟨branch, ⟨signature, form⟩, _⟩ := lawful.choices choice member
    constructor
    · exact branch.acyclic
    · cases goal : choice.goal with
      | var name => simp [goal, Term.goalForm] at form
      | atom name => rfl
      | app functor args => rfl
    · intro left right conjunction
      rw [conjunction, Term.goalForm_both] at form
      cases form
    · intro left right test
      rw [test, Term.goalForm_notUnifiable] at form
      cases form
    · exact layered.untried choice member
    · exact branch.descending
    · exact Config.exceededAt_eq_none_iff.mp (layered.limited choice member)
  · rintro effort calls later after (⟨item, yielded⟩ | ended)
    · exact Prover.reaches_of_nthNext (Pull.answer?_eq_some_iff.mpr (.inl ⟨item, rfl, yielded⟩))
    · exact Prover.reaches_of_nthNext (Pull.answer?_eq_some_iff.mpr (.inr ⟨rfl, ended⟩))

/-- After its first answer, the query `p(Z)` over `p(X) :- q(X)` leaves the choice of
the second clause of `q`, one clause deep, on top of the choice of clauses of `p`,
which is used up. -/
theorem KnowledgeBase.two_choices_wellPlaced :
    (KnowledgeBase.empty.addAll [⟨.app "p" [.var "X"], [.app "q" [.var "X"]]⟩,
        ⟨.app "q" [.app "f" [.var "Y"]], []⟩, ⟨.app "q" [.atom "b"], []⟩]).1.Built ∧
    ∃ search, Search.start (.app "p" [.var "Z"]) = .ok search ∧
      ∃ effort item later reported upper lower,
        ((KnowledgeBase.empty.addAll [⟨.app "p" [.var "X"], [.app "q" [.var "X"]]⟩,
          ⟨.app "q" [.app "f" [.var "Y"]], []⟩, ⟨.app "q" [.atom "b"], []⟩]).1.prover
            { maxDepth := some 1 }).nthNext effort 0 4 search =
          .item item later ⟨reported, .retrying, [upper, lower]⟩ ∧
        upper.candidates = [⟨.app "q" [.atom "b"], []⟩] ∧ lower.candidates = [] ∧
        upper.Above lower ∧
        upper.WellPlaced (KnowledgeBase.empty.addAll
          [⟨.app "p" [.var "X"], [.app "q" [.var "X"]]⟩,
            ⟨.app "q" [.app "f" [.var "Y"]], []⟩, ⟨.app "q" [.atom "b"], []⟩]).1
          { maxDepth := some 1 } := by
  have built : (KnowledgeBase.empty.addAll [⟨.app "p" [.var "X"], [.app "q" [.var "X"]]⟩,
      ⟨.app "q" [.app "f" [.var "Y"]], []⟩, ⟨.app "q" [.atom "b"], []⟩]).1.Built :=
    .addAll _ .empty
  refine ⟨built, _, rfl, 10, _, _, _, _, _, rfl, rfl, rfl, ?_⟩
  obtain ⟨kept, calls⟩ := @KnowledgeBase.Built.choices_wellPlaced _ built
    { maxDepth := some 1 } (· + 1) rfl (.app "p" [.var "Z"]) _ rfl 4
  obtain ⟨placed, chain⟩ := kept _ _ (calls 10 0 _ _ (.inl ⟨_, rfl⟩))
  exact ⟨(List.isChain_cons_cons.mp chain).1, placed _ List.mem_cons_self⟩

end HornLogic
