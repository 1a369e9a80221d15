import HornLogic.Proofs.Search.DepthLimit
import HornLogic.Proofs.Search.Grouping
import HornLogic.Proofs.Search.Renaming

/-!
# First-order programs

In a first-order program no variable stands where a goal is expected, neither in a clause
body nor in the query.  A search looks only at goals that are written there, renamed but
never replaced by a value, so it never has to call a variable.  Under a depth limit it
ends, and exceeding the limit is all that can go wrong.
-/

namespace HornLogic

/-- None of the goals that the term joins is a variable. -/
def Term.FirstOrder (term : Term) : Prop :=
  ∀ goal ∈ term.goals, goal.isVar = false

instance (term : Term) : Decidable term.FirstOrder :=
  inferInstanceAs (Decidable (∀ goal ∈ term.goals, goal.isVar = false))

def Clause.FirstOrder (clause : Clause) : Prop :=
  ∀ condition ∈ clause.body, condition.FirstOrder

instance (clause : Clause) : Decidable clause.FirstOrder :=
  inferInstanceAs (Decidable (∀ condition ∈ clause.body, condition.FirstOrder))

namespace Term.FirstOrder

variable {term : Term}

theorem callable (firstOrder : term.FirstOrder) : term.isVar = false := by
  cases term with
  | var name => exact firstOrder (.var name) List.mem_cons_self
  | atom name => rfl
  | app functor args => rfl

/-- Bindings do not change which goal a first-order term is. -/
theorem walk (firstOrder : term.FirstOrder) (bindings : Bindings) :
    bindings.walk term = term := by
  cases term with
  | var name => cases firstOrder.callable
  | atom name => rfl
  | app functor args => rfl

theorem goalForm_ne_notCallable (firstOrder : term.FirstOrder) :
    term.goalForm ≠ .notCallable := by
  rcases term.goalForm_cases with ⟨name, rfl, _⟩ | ⟨_, _, _, form⟩ | ⟨_, _, _, form⟩ |
    ⟨_, _, form⟩
  · cases firstOrder.callable
  all_goals simp [form]

theorem of_both {left right : Term} (firstOrder : (Term.both left right).FirstOrder) :
    left.FirstOrder ∧ right.FirstOrder := by
  rwa [FirstOrder, goals_both, List.forall_mem_append] at firstOrder

theorem rename (firstOrder : term.FirstOrder) (change : String → String) :
    (term.rename change).FirstOrder := by
  intro goal member
  rw [goals_rename] at member
  obtain ⟨original, inTerm, rfl⟩ := List.mem_map.mp member
  rw [isVar_rename]
  exact firstOrder original inTerm

end Term.FirstOrder

/-- All goals that are left in a branch are first-order, whatever the bindings. -/
def FirstOrderBranch (goals : List Goal) (_ : Bindings) : Prop :=
  ∀ goal ∈ goals, goal.term.FirstOrder

theorem firstOrderBranch_branchLaw (prover : Prover) {clauses : List Clause}
    (firstOrder : ∀ clause ∈ clauses, clause.FirstOrder) :
    BranchLaw prover clauses fun _ => FirstOrderBranch where
  later branch := branch
  walked {_ goal _ bindings} branch := by
    obtain ⟨first, rest⟩ := List.forall_mem_cons.mp branch
    refine List.forall_mem_cons.mpr ⟨?_, rest⟩
    rwa [first.walk bindings]
  both branch := by
    obtain ⟨first, rest⟩ := List.forall_mem_cons.mp branch
    obtain ⟨left, right⟩ := Term.FirstOrder.of_both first
    exact List.forall_mem_cons.mpr ⟨left, List.forall_mem_cons.mpr ⟨right, rest⟩⟩
  passed branch _ := (List.forall_mem_cons.mp branch).2
  entered {_ fresh _ _ _ _ _ clause} branch _ member _ := by
    apply forall_mem_entered Term.FirstOrder ?_ (List.forall_mem_cons.mp branch).2
    intro condition conditionMember
    exact (firstOrder clause member condition conditionMember).rename (freshName fresh)

namespace KnowledgeBase

variable {kb : KnowledgeBase} {query : Term} {search : Search}

section

variable (clauses : ∀ clause ∈ kb.clauses.toList, clause.FirstOrder)
  (firstOrder : query.FirstOrder) (started : Search.start query = .ok search)
include clauses firstOrder started

theorem firstOrderBranch_of_reaches {config : Config} {fresh later : Nat}
    {nextNumber : Nat → Nat} {reported : List String} {goals : List Goal} {bindings : Bindings}
    {stack : List Choice}
    (reached : (kb.prover config nextNumber).Reaches fresh search later
      ⟨reported, .proving goals bindings, stack⟩) :
    FirstOrderBranch goals bindings := by
  have branches := (firstOrderBranch_branchLaw (kb.prover config nextNumber) clauses).reaches
    (fun _ _ => mem_of_mem_clausesOf) (List.forall_mem_singleton.mpr firstOrder) started
    reached
  exact branches.present _ _ rfl

/-- No variable is selected as a goal, so it stands for no conjunction either. -/
theorem callsInstantiated_of_firstOrder (config : Config) (nextNumber : Nat → Nat)
    (fresh : Nat) : (kb.prover config nextNumber).CallsInstantiated fresh search := by
  intro later reported name depth rest bindings stack left right reached joined
  have branch := kb.firstOrderBranch_of_reaches clauses firstOrder started reached
  cases (branch _ List.mem_cons_self).callable

theorem maxDepth_of_fault {config : Config} {nextNumber : Nat → Nat}
    {effort calls fresh next : Nat} {later : Search} {cause : Fault}
    (answered : (kb.prover config nextNumber).nthNext effort calls fresh search =
      .item (.error cause) next later) :
    ∃ limit, config.maxDepth = some limit ∧ cause = .depthLimit limit := by
  obtain ⟨_, _, _, reached, lastStep⟩ := Prover.step_of_nthNext_item answered
  cases lastStep with
  | tooDeep exceeded => exact ⟨_, (Option.filter_eq_some_iff.mp exceeded).1, rfl⟩
  | notCallable allowed form =>
      have branch := kb.firstOrderBranch_of_reaches clauses firstOrder started reached
      have first := branch _ List.mem_cons_self
      rw [first.walk] at form
      exact absurd form first.goalForm_ne_notCallable

end

/-- With the occurs check and a depth limit the search of a first-order program ends, and
the only fault it can yield is that the limit is exceeded. -/
theorem first_order_search_ends (clauses : ∀ clause ∈ kb.clauses.toList, clause.FirstOrder)
    (firstOrder : query.FirstOrder) {config : Config} (checked : config.occursCheck = true)
    {limit : Nat} (limited : config.maxDepth = some limit)
    (nextNumber : Nat → Nat) (fresh : Nat) :
    ∃ search, Search.start query = .ok search ∧
      (∃ count, (kb.prover config nextNumber).EndsAfter fresh search count) ∧
      ∀ effort calls cause next later,
        (kb.prover config nextNumber).nthNext effort calls fresh search =
          .item (.error cause) next later →
        cause = .depthLimit limit := by
  have started := Search.start_of_callable firstOrder.callable
  refine ⟨_, started, ?_, ?_⟩
  · have instantiated :=
      kb.callsInstantiated_of_firstOrder clauses firstOrder started config nextNumber fresh
    have passes := Prover.passesAt_of_limit checked limited instantiated 0
    exact Prover.endsAfter_of_getsThrough (passes query [] .empty (Prover.getsThrough_nil _))
  · intro effort calls cause next later answered
    obtain ⟨other, otherLimited, rfl⟩ :=
      kb.maxDepth_of_fault clauses firstOrder started answered
    cases limited.symm.trans otherLimited
    rfl

/-- The search for `nat(X)` over `nat(z)` and `nat(s(N)) :- nat(N)` with the limit 1 ends:
after two solutions it yields the fault. -/
theorem first_order_search_for_numbers_ends :
    ∃ kb search,
      kb = (KnowledgeBase.empty.addAll
        [⟨.app "nat" [.atom "z"], []⟩,
          ⟨.app "nat" [.app "s" [.var "N"]], [.app "nat" [.var "N"]]⟩]).1 ∧
      (∀ clause ∈ kb.clauses.toList, clause.FirstOrder) ∧
      Search.start (.app "nat" [.var "X"]) = .ok search ∧
      (kb.prover { maxDepth := some 1 }).Gives 0 search 2 (some (.error (.depthLimit 1))) 4 ∧
      (kb.prover { maxDepth := some 1 }).EndsAfter 0 search 3 ∧
      ∀ effort calls cause next later,
        (kb.prover { maxDepth := some 1 }).nthNext effort calls 0 search =
          .item (.error cause) next later →
        cause = .depthLimit 1 := by
  obtain ⟨kb, filled⟩ : ∃ kb, kb = (KnowledgeBase.empty.addAll
    [⟨.app "nat" [.atom "z"], []⟩,
      ⟨.app "nat" [.app "s" [.var "N"]], [.app "nat" [.var "N"]]⟩]).1 := ⟨_, rfl⟩
  have clauses : ∀ clause ∈ kb.clauses.toList, clause.FirstOrder := by
    rw [filled]
    decide
  obtain ⟨search, started, ⟨count, ends⟩, causes⟩ :=
    @first_order_search_ends kb (.app "nat" [.var "X"]) clauses (by decide)
      { maxDepth := some 1 } rfl 1 rfl (· + 1) 0
  have computed : ((kb.prover { maxDepth := some 1 }).nthNext 30 2 0 search).answer?.map
      (fun answer => (answer.1, answer.2.1)) =
        some (some (.error (.depthLimit 1)), 4) := by
    subst filled
    cases started
    decide +kernel
  obtain ⟨⟨_, _, after⟩, answered, same⟩ := Option.map_eq_some_iff.mp computed
  cases same
  obtain ⟨item, same, yielded⟩ | ⟨same, _⟩ := Pull.answer?_eq_some_iff.mp answered
  · cases same
    obtain rfl := ends.faultLast _ _ _ _ _ yielded
    exact ⟨kb, search, filled, clauses, started, ⟨30, after, answered⟩, ends, causes⟩
  · cases same

end KnowledgeBase

end HornLogic
