import HornLogic.Proofs.Search.Soundness
import HornLogic.Proofs.Term.Renaming

/-!
# Instantiated goals

A variable that is selected as a goal is replaced by what it stands for.  If
this is a conjunction, the goals that it joins may again be variables, with or
without a value at that moment.  In a program whose terms join no variables
every conjunction that a variable can stand for is instantiated; the conditions
of clauses and the goals of a query may still be variables.
-/

namespace HornLogic

/-- The term stands for a goal, and if that is a conjunction so do both of the
goals that it joins. -/
inductive Bindings.Instantiates (bindings : Bindings) : Term → Prop where
  | single {term : Term} (callable : (bindings.walk term).isVar = false)
      (apart : ∀ left right, bindings.walk term ≠ .both left right) :
      Instantiates bindings term
  | both {term left right : Term} (joined : bindings.walk term = .both left right) :
      Instantiates bindings left → Instantiates bindings right →
      Instantiates bindings term

/-- Whenever a variable is selected as a goal and stands for a conjunction, the
goals that it joins are instantiated at that moment. -/
def Prover.CallsInstantiated (prover : Prover) (start : Nat) (origin : Search) : Prop :=
  ∀ fresh reported name depth rest bindings stack left right,
    prover.Reaches start origin fresh
      ⟨reported, .proving (⟨.var name, depth⟩ :: rest) bindings, stack⟩ →
    bindings.walk (.var name) = .both left right →
      bindings.Instantiates left ∧ bindings.Instantiates right

namespace Term

mutual

/-- The goals that are joined anywhere in a term. -/
def joined : Term → List Term
  | .atom _ => []
  | .var _ => []
  | .app functor args =>
      if functor = conjunctionName ∧ args.length = 2 then args ++ joinedArgs args
      else joinedArgs args

def joinedArgs : List Term → List Term
  | [] => []
  | term :: terms => term.joined ++ joinedArgs terms

end

theorem mem_joinedArgs_iff {goal : Term} {terms : List Term} :
    goal ∈ joinedArgs terms ↔ ∃ term ∈ terms, goal ∈ term.joined := by
  induction terms with
  | nil => simp [joinedArgs]
  | cons term terms induction => simp [joinedArgs, induction]

theorem mem_joined_of_arg {functor : String} {args : List Term} {arg goal : Term}
    (member : arg ∈ args) (inArg : goal ∈ arg.joined) :
    goal ∈ (app functor args).joined := by
  have inArgs : goal ∈ joinedArgs args := mem_joinedArgs_iff.mpr ⟨arg, member, inArg⟩
  rw [joined]
  split
  · exact List.mem_append_right _ inArgs
  · exact inArgs

/-- No conjunction in the term joins a variable. -/
def Rigid (term : Term) : Prop :=
  ∀ goal ∈ term.joined, goal.isVar = false

instance (term : Term) : Decidable term.Rigid :=
  inferInstanceAs (Decidable (∀ goal ∈ term.joined, goal.isVar = false))

theorem Rigid.arg {functor : String} {args : List Term}
    (rigid : (app functor args).Rigid) {arg : Term} (member : arg ∈ args) : arg.Rigid :=
  fun goal inArg => rigid goal (mem_joined_of_arg member inArg)

theorem rigid_var (name : String) : (var name).Rigid :=
  fun _ member => absurd member List.not_mem_nil

theorem joined_both (left right : Term) :
    (both left right).joined = left :: right :: (left.joined ++ right.joined) := by
  simp [both, joined, joinedArgs]

theorem joined_rename (change : String → String) (term : Term) :
    (term.rename change).joined = term.joined.map (rename change) := by
  induction term with
  | atom name => rfl
  | var name => rfl
  | app functor args induction =>
      have sameArgs : joinedArgs (args.map (rename change)) =
          (joinedArgs args).map (rename change) := by
        clear functor
        induction args with
        | nil => rfl
        | cons arg args argsInduction =>
            obtain ⟨first, others⟩ := List.forall_mem_cons.mp induction
            simp [joinedArgs, first, argsInduction others]
      rw [rename_app, joined, joined, List.length_map, sameArgs]
      split <;> simp

theorem Rigid.rename {term : Term} (rigid : term.Rigid) (change : String → String) :
    (term.rename change).Rigid := by
  intro goal member
  rw [joined_rename] at member
  obtain ⟨original, inTerm, rfl⟩ := List.mem_map.mp member
  rw [isVar_rename]
  exact rigid original inTerm

/-- A rigid term that is no variable is instantiated. -/
theorem Rigid.instantiates {term : Term} (rigid : term.Rigid)
    (callable : term.isVar = false) (bindings : Bindings) :
    bindings.Instantiates term := by
  induction term with
  | var name => cases callable
  | atom name => exact .single rfl fun left right joined => by cases joined
  | app functor args induction =>
      by_cases conjunction : ∃ left right, app functor args = both left right
      · obtain ⟨left, right, same⟩ := conjunction
        have goals := rigid
        rw [same, Rigid, joined_both] at goals
        obtain ⟨rfl, rfl⟩ : functor = conjunctionName ∧ args = [left, right] := by
          simpa [both] using same
        refine .both rfl ?_ ?_
        · exact induction left (by simp) (rigid.arg (by simp)) (goals left (by simp))
        · exact induction right (by simp) (rigid.arg (by simp)) (goals right (by simp))
      · exact .single rfl fun left right same => conjunction ⟨left, right, same⟩

/-- A goal whose conjunctions join variables at most where they are goals of the
branch themselves, not inside of another term. -/
inductive RigidGoal : Term → Prop where
  | var (name : String) : RigidGoal (.var name)
  | both {left right : Term} :
      RigidGoal left → RigidGoal right → RigidGoal (.both left right)
  | rigid {term : Term} : term.Rigid → RigidGoal term

theorem RigidGoal.of_both {left right : Term} (goal : (Term.both left right).RigidGoal) :
    left.RigidGoal ∧ right.RigidGoal := by
  generalize same : Term.both left right = term at goal
  cases goal with
  | var name => cases same
  | rigid rigid =>
      subst same
      exact ⟨.rigid (rigid.arg (by simp)), .rigid (rigid.arg (by simp))⟩
  | both leftGoal rightGoal =>
      obtain ⟨rfl, rfl⟩ := both_inj.mp same
      exact ⟨leftGoal, rightGoal⟩

theorem RigidGoal.rename {term : Term} (goal : term.RigidGoal)
    (change : String → String) : (term.rename change).RigidGoal := by
  induction goal with
  | var name => exact .var _
  | rigid rigid => exact .rigid (rigid.rename change)
  | both _ _ leftInduction rightInduction =>
      rw [Term.rename, subst_both]
      exact .both leftInduction rightInduction

theorem RigidGoal.of_call {term : Term} (goal : term.RigidGoal) {signature : Signature}
    (form : term.goalForm = .call signature) : term.Rigid := by
  cases goal with
  | var name => cases form
  | rigid rigid => exact rigid
  | both _ _ =>
      rw [goalForm_both] at form
      cases form

end Term

/-- The head is rigid, and so are the arguments of the conditions. -/
structure Clause.Rigid (clause : Clause) : Prop where
  head : clause.head.Rigid
  body : ∀ condition ∈ clause.body, condition.RigidGoal

/-- All goals of a branch are rigid goals, and no value joins a variable. -/
structure RigidBranch (goals : List Goal) (bindings : Bindings) : Prop where
  goals : ∀ goal ∈ goals, goal.term.RigidGoal
  values : bindings.All Term.Rigid

theorem rigidBranch_branchLaw (prover : Prover) {clauses : List Clause}
    (rigid : ∀ clause ∈ clauses, clause.Rigid) :
    BranchLaw prover clauses fun _ => RigidBranch where
  later branch := branch
  walked {_ goal _ bindings} branch := by
    obtain ⟨first, rest⟩ := List.forall_mem_cons.mp branch.goals
    refine ⟨List.forall_mem_cons.mpr ⟨?_, rest⟩, branch.values⟩
    obtain ⟨term, depth⟩ := goal
    cases term with
    | atom name => exact first
    | app functor args => exact first
    | var name => exact .rigid (branch.values.walk (Term.rigid_var name))
  both branch := by
    obtain ⟨first, rest⟩ := List.forall_mem_cons.mp branch.goals
    obtain ⟨left, right⟩ := Term.RigidGoal.of_both first
    exact ⟨List.forall_mem_cons.mpr ⟨left, List.forall_mem_cons.mpr ⟨right, rest⟩⟩,
      branch.values⟩
  passed branch _ := ⟨(List.forall_mem_cons.mp branch.goals).2, branch.values⟩
  entered {_ fresh _ _ _ _ _ clause} branch form member unifies := by
    obtain ⟨first, rest⟩ := List.forall_mem_cons.mp branch.goals
    obtain ⟨head, body⟩ := rigid clause member
    constructor
    · apply forall_mem_entered Term.RigidGoal ?_ rest
      intro condition conditionMember
      exact (body condition conditionMember).rename (freshName fresh)
    · refine unify_keeps_all ?_ branch.values (first.of_call form)
        (head.rename (freshName fresh)) unifies
      intro functor args whole arg argMember
      exact whole.arg argMember

/-- In a rigid program the conjunctions that variables stand for are
instantiated. -/
theorem KnowledgeBase.callsInstantiated_of_rigid {kb : KnowledgeBase} (config : Config)
    (clauses : ∀ clause ∈ kb.clauses.toList, clause.Rigid) {query : Term}
    (goal : query.RigidGoal) {search : Search}
    (started : Search.start query = .ok search) (fresh : Nat) :
    (kb.prover config).CallsInstantiated fresh search := by
  intro later reported name depth rest bindings stack left right reached joined
  have start : RigidBranch [⟨query, 0⟩] .empty :=
    ⟨List.forall_mem_singleton.mpr goal, Bindings.all_empty⟩
  have branches := (rigidBranch_branchLaw (kb.prover config) clauses).reaches
    (fun _ _ => mem_of_mem_clausesOf) start started reached
  have branch := branches.present _ _ rfl
  have rigid := branch.values.walk (Term.rigid_var name)
  rw [joined] at rigid
  have goals := rigid
  rw [Term.Rigid, Term.joined_both] at goals
  constructor
  · exact Term.Rigid.instantiates (rigid.arg (by simp)) (goals left (by simp)) bindings
  · exact Term.Rigid.instantiates (rigid.arg (by simp)) (goals right (by simp)) bindings

end HornLogic
