import HornLogic.Proofs.Search.Derivability
import HornLogic.Proofs.Search.Run
import HornLogic.Proofs.Unification.Extension

/-!
# Laws of branches

The goals that a search is proving are one branch of it; every choice stands
for the branches of its clauses, with its goal in front.  A law of goals and
bindings that survives what is done to the first goal of a branch holds of all
branches of a search, as long as it runs.  The law may depend on the numbers
that have been used for renaming.
-/

namespace HornLogic

/-- What a law of branches has to survive. -/
structure BranchLaw (prover : Prover) (clauses : List Clause)
    (law : Nat → List Goal → Bindings → Prop) : Prop where
  later {fresh : Nat} {goals : List Goal} {bindings : Bindings} :
    law fresh goals bindings → law (prover.nextNumber fresh) goals bindings
  /-- The first goal is looked at through the bindings. -/
  walked {fresh : Nat} {goal : Goal} {rest : List Goal} {bindings : Bindings} :
    law fresh (goal :: rest) bindings →
      law fresh (⟨bindings.walk goal.term, goal.depth⟩ :: rest) bindings
  both {fresh depth : Nat} {left right : Term} {rest : List Goal}
    {bindings : Bindings} :
    law fresh (⟨.both left right, depth⟩ :: rest) bindings →
      law fresh (⟨left, depth⟩ :: ⟨right, depth⟩ :: rest) bindings
  /-- A test is passed. -/
  passed {effort fresh depth : Nat} {left right : Term} {rest : List Goal}
    {bindings : Bindings} :
    law fresh (⟨.notUnifiable left right, depth⟩ :: rest) bindings →
    unify prover.config.occursCheck effort (left.substitute bindings)
      (right.substitute bindings) .empty = .clash →
      law fresh rest bindings
  /-- The body of a clause takes the place of the first goal. -/
  entered {effort fresh : Nat} {goal : Goal} {rest : List Goal}
    {bindings extended : Bindings} {signature : Signature} {clause : Clause} :
    law fresh (goal :: rest) bindings → goal.term.goalForm = .call signature →
    clause ∈ clauses →
    unify prover.config.occursCheck effort goal.term (clause.freshen fresh).head
      bindings = .unified extended →
      law (prover.nextNumber fresh)
        ((clause.freshen fresh).body.map (⟨·, goal.depth + 1⟩) ++ rest) extended

theorem forall_mem_entered (law : Term → Prop) {clause : Clause} {fresh depth : Nat}
    {rest : List Goal}
    (body : ∀ condition ∈ clause.body, law (condition.rename (freshName fresh)))
    (others : ∀ goal ∈ rest, law goal.term) :
    ∀ goal ∈ (clause.freshen fresh).body.map (⟨·, depth⟩) ++ rest, law goal.term := by
  intro goal member
  rcases List.mem_append.mp member with inBody | inRest
  · obtain ⟨renamed, renamedMember, rfl⟩ := List.mem_map.mp inBody
    obtain ⟨condition, conditionMember, rfl⟩ := List.mem_map.mp renamedMember
    exact body condition conditionMember
  · exact others goal inRest

/-- A law of terms that searches over these clauses keep: a clause meets it once it
is renamed with the next number. -/
structure TermLaw (prover : Prover) (clauses : List Clause) (law : Nat → Term → Prop) :
    Prop where
  later {fresh : Nat} {term : Term} : law fresh term → law (prover.nextNumber fresh) term
  arg {fresh : Nat} {functor : String} {args : List Term} {arg : Term} :
    law fresh (.app functor args) → arg ∈ args → law fresh arg
  renamed {clause : Clause} {term : Term} (fresh : Nat) :
    clause ∈ clauses → term ∈ clause.head :: clause.body →
      law (prover.nextNumber fresh) (term.rename (freshName fresh))

/-- All terms of a branch meet a law: its goals, the bound variables and their
values. -/
structure TermBranch (law : Term → Prop) (goals : List Goal) (bindings : Bindings) :
    Prop where
  goals : ∀ goal ∈ goals, law goal.term
  values : bindings.All law

theorem TermBranch.mono {law weaker : Term → Prop} {goals : List Goal} {bindings : Bindings}
    (branch : TermBranch law goals bindings) (weakens : ∀ term, law term → weaker term) :
    TermBranch weaker goals bindings where
  goals goal member := weakens goal.term (branch.goals goal member)
  values := branch.values.mono weakens

theorem termBranch_start {law : Term → Prop} {query : Term} (holds : law query) :
    TermBranch law [⟨query, 0⟩] .empty :=
  ⟨List.forall_mem_singleton.mpr holds, Bindings.all_empty⟩

theorem TermLaw.branchLaw {prover : Prover} {clauses : List Clause}
    {law : Nat → Term → Prop} (termLaw : TermLaw prover clauses law) :
    BranchLaw prover clauses fun fresh => TermBranch (law fresh) where
  later branch := branch.mono fun _ => termLaw.later
  walked branch := by
    obtain ⟨first, rest⟩ := List.forall_mem_cons.mp branch.goals
    exact ⟨List.forall_mem_cons.mpr ⟨branch.values.walk first, rest⟩, branch.values⟩
  both branch := by
    obtain ⟨first, rest⟩ := List.forall_mem_cons.mp branch.goals
    have left := termLaw.arg first List.mem_cons_self
    have right := termLaw.arg first (List.mem_cons_of_mem _ List.mem_cons_self)
    exact ⟨List.forall_mem_cons.mpr ⟨left, List.forall_mem_cons.mpr ⟨right, rest⟩⟩,
      branch.values⟩
  passed branch _ := ⟨(List.forall_mem_cons.mp branch.goals).2, branch.values⟩
  entered {_ fresh _ _ _ _ _ _} branch _ member unifies := by
    obtain ⟨first, others⟩ := List.forall_mem_cons.mp branch.goals
    constructor
    · apply forall_mem_entered (law (prover.nextNumber fresh))
      · intro condition inBody
        exact termLaw.renamed fresh member (List.mem_cons_of_mem _ inBody)
      · intro other otherMember
        exact termLaw.later (others other otherMember)
    · have values := branch.values.mono fun _ => termLaw.later
      have head := termLaw.renamed fresh member List.mem_cons_self
      exact unify_keeps_all (fun _ _ whole _ => termLaw.arg whole) values
        (termLaw.later first) head unifies

theorem eq_of_start {query : Term} {search : Search}
    (started : Search.start query = .ok search) :
    search = ⟨Search.reportedVariables query, .proving [⟨query, 0⟩] .empty, []⟩ := by
  unfold Search.start at started
  split at started
  · cases started
  · cases started
    rfl

/-- A law holds of the branches of a choice, which tries no clauses but
these. -/
structure Choice.Lawful (clauses : List Clause) (law : List Goal → Bindings → Prop)
    (choice : Choice) : Prop where
  branch : law (⟨choice.goal, choice.depth⟩ :: choice.rest) choice.bindings
  calls : ∃ signature, choice.goal.goalForm = .call signature
  stored : ∀ candidate ∈ choice.candidates, candidate ∈ clauses

/-- A law holds of all branches of a search. -/
structure Search.Lawful (clauses : List Clause) (law : List Goal → Bindings → Prop)
    (search : Search) : Prop where
  present : ∀ goals bindings, search.phase = .proving goals bindings →
    law goals bindings
  choices : ∀ choice ∈ search.stack, choice.Lawful clauses law

theorem Choice.Lawful.mono {clauses : List Clause}
    {law weaker : List Goal → Bindings → Prop} {choice : Choice}
    (lawful : choice.Lawful clauses law)
    (weakens : ∀ goals bindings, law goals bindings → weaker goals bindings) :
    choice.Lawful clauses weaker :=
  ⟨weakens _ _ lawful.branch, lawful.calls, lawful.stored⟩

theorem Search.Lawful.mono {clauses : List Clause}
    {law weaker : List Goal → Bindings → Prop} {search : Search}
    (lawful : search.Lawful clauses law)
    (weakens : ∀ goals bindings, law goals bindings → weaker goals bindings) :
    search.Lawful clauses weaker where
  present goals bindings proving := weakens _ _ (lawful.present goals bindings proving)
  choices choice member := (lawful.choices choice member).mono weakens

section

variable {clauses : List Clause} {law : List Goal → Bindings → Prop}
  {reported : List String} {phase : Phase} {stack : List Choice}

theorem lawful_proving {goals : List Goal} {bindings : Bindings}
    (holds : law goals bindings)
    (choices : ∀ choice ∈ stack, choice.Lawful clauses law) :
    Search.Lawful clauses law ⟨reported, .proving goals bindings, stack⟩ := by
  constructor
  · intro others otherBindings same
    cases same
    exact holds
  · exact choices

theorem lawful_retrying (choices : ∀ choice ∈ stack, choice.Lawful clauses law) :
    Search.Lawful clauses law ⟨reported, .retrying, stack⟩ := by
  constructor
  · intro goals bindings same
    cases same
  · exact choices

theorem lawful_finished : Search.Lawful clauses law ⟨reported, .finished, []⟩ := by
  constructor
  · intro goals bindings same
    cases same
  · intro choice member
    cases member

end

namespace BranchLaw

variable {prover : Prover} {clauses : List Clause}
  {law : Nat → List Goal → Bindings → Prop}

theorem later_choices (branchLaw : BranchLaw prover clauses law) {fresh : Nat}
    {stack : List Choice}
    (choices : ∀ choice ∈ stack, choice.Lawful clauses (law fresh)) :
    ∀ choice ∈ stack, choice.Lawful clauses (law (prover.nextNumber fresh)) := by
  intro choice member
  exact (choices choice member).mono fun _ _ => branchLaw.later

theorem step (branchLaw : BranchLaw prover clauses law)
    (stored : ∀ signature, ∀ candidate ∈ prover.candidates signature,
      candidate ∈ clauses)
    {effort fresh later : Nat} {search after : Search} {item : Option Item}
    (lawful : search.Lawful clauses (law fresh))
    (stepped : SearchStep prover effort fresh search later after item) :
    after.Lawful clauses (law later) := by
  cases stepped with
  | idle => exact lawful
  | answer => exact lawful_retrying lawful.choices
  | tooDeep exceeded => exact lawful_finished
  | notCallable allowed form => exact lawful_finished
  | ended => exact lawful_finished
  | refuted allowed form unifies => exact lawful_retrying lawful.choices
  | noClauses allowed form noCandidates => exact lawful_retrying lawful.choices
  | both allowed form =>
      have walked := branchLaw.walked (lawful.present _ _ rfl)
      rw [Term.eq_both_of_goalForm form] at walked
      exact lawful_proving (branchLaw.both walked) lawful.choices
  | passed allowed form clashes =>
      have walked := branchLaw.walked (lawful.present _ _ rfl)
      rw [Term.eq_notUnifiable_of_goalForm form] at walked
      exact lawful_proving (branchLaw.passed walked clashes) lawful.choices
  | called allowed form someCandidates =>
      have walked := branchLaw.walked (lawful.present _ _ rfl)
      exact lawful_retrying (List.forall_mem_cons.mpr
        ⟨⟨walked, ⟨_, form⟩, stored _⟩, lawful.choices⟩)
  | dropped =>
      obtain ⟨_, below⟩ := List.forall_mem_cons.mp lawful.choices
      exact lawful_retrying below
  | entered unifies =>
      obtain ⟨⟨branch, ⟨signature, form⟩, candidates⟩, below⟩ :=
        List.forall_mem_cons.mp lawful.choices
      obtain ⟨member, left⟩ := List.forall_mem_cons.mp candidates
      apply lawful_proving (branchLaw.entered branch form member unifies)
      exact List.forall_mem_cons.mpr
        ⟨⟨branchLaw.later branch, ⟨signature, form⟩, left⟩,
          branchLaw.later_choices below⟩
  | skipped clashes =>
      obtain ⟨⟨branch, calls, candidates⟩, below⟩ :=
        List.forall_mem_cons.mp lawful.choices
      obtain ⟨_, left⟩ := List.forall_mem_cons.mp candidates
      apply lawful_retrying
      exact List.forall_mem_cons.mpr
        ⟨⟨branchLaw.later branch, calls, left⟩, branchLaw.later_choices below⟩

theorem reaches_of_lawful (branchLaw : BranchLaw prover clauses law)
    (stored : ∀ signature, ∀ candidate ∈ prover.candidates signature,
      candidate ∈ clauses)
    {search after : Search} {fresh later : Nat} (lawful : search.Lawful clauses (law fresh))
    (reached : prover.Reaches fresh search later after) :
    after.Lawful clauses (law later) := by
  apply reached.preserves (fun fresh search => search.Lawful clauses (law fresh)) ?_ lawful
  intro effort fresh later search after item lawful stepped
  exact branchLaw.step stored lawful stepped

/-- A law of branches that holds of a query holds of all branches of its
search. -/
theorem reaches (branchLaw : BranchLaw prover clauses law)
    (stored : ∀ signature, ∀ candidate ∈ prover.candidates signature,
      candidate ∈ clauses)
    {query : Term} {search after : Search} {fresh later : Nat}
    (holds : law fresh [⟨query, 0⟩] .empty) (started : Search.start query = .ok search)
    (reached : prover.Reaches fresh search later after) :
    after.Lawful clauses (law later) := by
  rw [eq_of_start started] at reached
  exact branchLaw.reaches_of_lawful stored
    (lawful_proving holds fun choice member => absurd member List.not_mem_nil) reached

end BranchLaw

end HornLogic
