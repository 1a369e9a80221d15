import HornLogic.Proofs.Search.ExploredAnswers
import HornLogic.Proofs.Search.Freshness
import Mathlib.Data.List.Forall2
import Mathlib.Data.List.Nodup

/-!
# A search finds every proof once

A proof tree says how a goal is proved: a conjunction by trees for both of its goals, and any
other goal by one of the clauses for it, with trees for the conditions.  A search that ends
without a fault has found, for every tree that proves some instance of its goals, exactly one
proof, and every instance that the tree proves is one of what this proof gives.  So what a
search finds depends on the trees alone, and not on the order in which goals are looked at.
-/

namespace HornLogic

/-- Which clauses are used to prove a goal.  A clause is told apart from its copies by the
clauses for the predicate that come after it. -/
inductive ProofTree where
  | both (left right : ProofTree)
  | use (clause : Clause) (later : List Clause) (conditions : List ProofTree)

/-- The trees of the two sides of a conjunction become one. -/
def ProofTree.joinFirst : List ProofTree → List ProofTree
  | first :: second :: others => .both first second :: others
  | trees => trees

/-- The first trees become the conditions of one tree that uses the clause. -/
def ProofTree.useFirst (clause : Clause) (later : List Clause) (trees : List ProofTree) :
    List ProofTree :=
  .use clause later (trees.take clause.body.length) :: trees.drop clause.body.length

theorem ProofTree.useFirst_injective (clause : Clause) (later : List Clause) :
    Function.Injective (useFirst clause later) := by
  intro trees otherTrees same
  obtain ⟨sameTree, sameOthers⟩ := List.cons.inj same
  rw [← List.take_append_drop clause.body.length trees, (ProofTree.use.inj sameTree).2.2,
    sameOthers, List.take_append_drop]

/-- The tree proves the goal with the clauses that the prover tries. -/
inductive ProofTree.Proves (prover : Prover) : ProofTree → Term → Prop where
  | both {left right : ProofTree} {first second : Term} :
      Proves prover left first → Proves prover right second →
      Proves prover (.both left right) (.both first second)
  | use {clause : Clause} {later : List Clause} {conditions : List ProofTree} {goal : Term}
      {signature : Signature} {assign : String → Term} :
      goal.goalForm = .call signature → clause :: later <:+ prover.candidates signature →
      goal = clause.head.subst assign →
      List.Forall₂ (Proves prover) conditions (clause.body.map (Term.subst assign)) →
      Proves prover (.use clause later conditions) goal

namespace ProofTree.Proves

variable {prover : Prover} {tree : ProofTree}

theorem of_both {first second : Term} (proves : tree.Proves prover (.both first second)) :
    ∃ left right, tree = .both left right ∧ left.Proves prover first ∧
      right.Proves prover second := by
  generalize same : Term.both first second = goal at proves
  cases proves with
  | @both left right _ _ leftProves rightProves =>
      obtain ⟨rfl, rfl⟩ := Term.both_inj.mp same
      exact ⟨left, right, rfl, leftProves, rightProves⟩
  | use form _ _ _ =>
      rw [← same, Term.goalForm_both] at form
      cases form

theorem of_call {goal : Term} {signature : Signature} (proves : tree.Proves prover goal)
    (form : goal.goalForm = .call signature) :
    ∃ clause later conditions assign, tree = .use clause later conditions ∧
      clause :: later <:+ prover.candidates signature ∧ goal = clause.head.subst assign ∧
      List.Forall₂ (Proves prover) conditions (clause.body.map (Term.subst assign)) := by
  cases proves with
  | both _ _ =>
      rw [Term.goalForm_both] at form
      cases form
  | @use clause later conditions _ other assign otherForm suffix same proved =>
      obtain rfl : other = signature := by simpa [otherForm] using form
      exact ⟨clause, later, conditions, assign, rfl, suffix, same, proved⟩

end ProofTree.Proves

namespace Prover

variable (prover : Prover)

/-- The trees prove the instances of the goals, each one of them. -/
def ProvesAll (goals : List Goal) (assign : String → Term) (trees : List ProofTree) : Prop :=
  List.Forall₂ (ProofTree.Proves prover) trees (goals.map fun goal => goal.term.subst assign)

/-- The trees prove the instance of the goal by this clause, and those of the goals after
it. -/
def ProvesWith (clause : Clause) (later : List Clause) (goal : Term) (rest : List Goal)
    (assign : String → Term) (trees : List ProofTree) : Prop :=
  ∃ conditions others inner, trees = .use clause later conditions :: others ∧
    goal.subst assign = clause.head.subst inner ∧
    List.Forall₂ (ProofTree.Proves prover) conditions (clause.body.map (Term.subst inner)) ∧
    prover.ProvesAll rest assign others

/-- The trees prove the instance of the goal by one of these clauses. -/
def ProvesBy (candidates : List Clause) (goal : Term) (rest : List Goal)
    (assign : String → Term) (trees : List ProofTree) : Prop :=
  ∃ clause later, clause :: later <:+ candidates ∧
    prover.ProvesWith clause later goal rest assign trees

variable {prover} {assign : String → Term} {trees : List ProofTree} {rest : List Goal}

theorem provesAll_cons_iff {goal : Goal} :
    prover.ProvesAll (goal :: rest) assign trees ↔
      ∃ tree others, trees = tree :: others ∧ tree.Proves prover (goal.term.subst assign) ∧
        prover.ProvesAll rest assign others := by
  rw [ProvesAll, List.map_cons, List.forall₂_cons_right_iff]
  constructor
  · intro ⟨tree, others, proves, provesOthers, same⟩
    exact ⟨tree, others, same, proves, provesOthers⟩
  · intro ⟨tree, others, same, proves, provesOthers⟩
    exact ⟨tree, others, proves, provesOthers, same⟩

theorem provesAll_both_iff {left right : Term} {depth : Nat} :
    prover.ProvesAll (⟨.both left right, depth⟩ :: rest) assign trees ↔
      ∃ first second others, trees = ProofTree.joinFirst (first :: second :: others) ∧
        prover.ProvesAll (⟨left, depth⟩ :: ⟨right, depth⟩ :: rest) assign
          (first :: second :: others) := by
  constructor
  · intro proves
    obtain ⟨tree, others, rfl, treeProves, othersProve⟩ := provesAll_cons_iff.mp proves
    rw [Term.subst_both] at treeProves
    obtain ⟨first, second, rfl, firstProves, secondProves⟩ := treeProves.of_both
    exact ⟨first, second, others, rfl, .cons firstProves (.cons secondProves othersProve)⟩
  · intro ⟨first, second, others, same, proves⟩
    subst same
    cases proves with
    | cons firstProves proves =>
        cases proves with
        | cons secondProves othersProve =>
            have joined := ProofTree.Proves.both firstProves secondProves
            rw [← Term.subst_both] at joined
            exact .cons joined othersProve

theorem provesAll_call_iff {goal : Term} {depth : Nat} {signature : Signature}
    (form : goal.goalForm = .call signature) :
    prover.ProvesAll (⟨goal, depth⟩ :: rest) assign trees ↔
      prover.ProvesBy (prover.candidates signature) goal rest assign trees := by
  have instanceForm := Term.goalForm_subst form assign
  constructor
  · intro proves
    obtain ⟨tree, others, rfl, treeProves, othersProve⟩ := provesAll_cons_iff.mp proves
    obtain ⟨clause, later, conditions, inner, rfl, suffix, same, proved⟩ :=
      treeProves.of_call instanceForm
    exact ⟨clause, later, suffix, conditions, others, inner, rfl, same, proved, othersProve⟩
  · intro ⟨clause, later, suffix, conditions, others, inner, split, same, proved, othersProve⟩
    exact provesAll_cons_iff.mpr
      ⟨_, others, split, .use instanceForm suffix same proved, othersProve⟩

theorem provesBy_cons_iff {clause : Clause} {later : List Clause} {goal : Term} :
    prover.ProvesBy (clause :: later) goal rest assign trees ↔
      prover.ProvesWith clause later goal rest assign trees ∨
        prover.ProvesBy later goal rest assign trees := by
  constructor
  · intro ⟨used, after, suffix, proves⟩
    rcases List.suffix_cons_iff.mp suffix with same | further
    · obtain ⟨rfl, rfl⟩ := List.cons.inj same
      exact .inl proves
    · exact .inr ⟨used, after, further, proves⟩
  · intro proves
    rcases proves with first | ⟨used, after, suffix, proves⟩
    · exact ⟨clause, later, List.suffix_refl _, first⟩
    · exact ⟨used, after, suffix.trans (List.suffix_cons clause later), proves⟩

/-- Trees that use a clause do not use one of the clauses after it instead. -/
theorem ProvesWith.not_provesBy {clause : Clause} {later : List Clause} {goal : Term}
    (proves : prover.ProvesWith clause later goal rest assign trees)
    {otherAssign : String → Term} :
    ¬ prover.ProvesBy later goal rest otherAssign trees := by
  intro ⟨used, after, suffix, otherProves⟩
  obtain ⟨conditions, others, inner, rfl, _⟩ := proves
  obtain ⟨_, _, _, same, _⟩ := otherProves
  obtain ⟨sameTree, _⟩ := List.cons.inj same
  obtain ⟨rfl, rfl, _⟩ := ProofTree.use.inj sameTree
  exact absurd suffix.length_le (by simp)

end Prover

/-- The proofs that were found are told apart by their trees.  The solutions of a proof solve
the bindings and are proved by its trees; and whatever solves the bindings and is proved by
some trees is given by the proof with these trees, as far as known names go. -/
structure Accounts (fresh : Nat) (bindings : Bindings)
    (proves : (String → Term) → List ProofTree → Prop)
    (found : List (List ProofTree × Bindings)) : Prop where
  distinct : (found.map Prod.fst).Nodup
  acyclic : ∀ entry ∈ found, entry.2.Acyclic
  sound : ∀ entry ∈ found, ∀ assign, entry.2.SolvedBy assign →
    bindings.SolvedBy assign ∧ proves assign entry.1
  complete : ∀ assign trees, bindings.SolvedBy assign → proves assign trees →
    ∃ proof wider, (trees, proof) ∈ found ∧ proof.SolvedBy wider ∧
      ∀ name, KnownName fresh name → wider name = assign name

section

variable {fresh : Nat} {bindings : Bindings}
  {proves others : (String → Term) → List ProofTree → Prop}
  {found more : List (List ProofTree × Bindings)}

/-- The most general solution of a proof is proved by its trees. -/
theorem Accounts.proved (accounts : Accounts fresh bindings proves found)
    {entry : List ProofTree × Bindings} (member : entry ∈ found) :
    proves entry.2.resolve entry.1 :=
  (accounts.sound entry member _ (accounts.acyclic entry member).solvedBy_resolve).2

/-- Only one proof has these trees. -/
theorem Accounts.unique (accounts : Accounts fresh bindings proves found)
    {trees : List ProofTree} {proof other : Bindings} (member : (trees, proof) ∈ found)
    (otherMember : (trees, other) ∈ found) : proof = other :=
  (Prod.mk.inj (List.inj_on_of_nodup_map accounts.distinct member otherMember rfl)).2

theorem Accounts.congr (accounts : Accounts fresh bindings proves found)
    (same : ∀ assign trees, bindings.SolvedBy assign →
      (proves assign trees ↔ others assign trees)) :
    Accounts fresh bindings others found where
  distinct := accounts.distinct
  acyclic := accounts.acyclic
  sound entry member assign solves := by
    obtain ⟨before, proved⟩ := accounts.sound entry member assign solves
    exact ⟨before, (same assign entry.1 before).mp proved⟩
  complete assign trees solves proved :=
    accounts.complete assign trees solves ((same assign trees solves).mpr proved)

theorem accounts_nil
    (none : ∀ assign trees, bindings.SolvedBy assign → ¬ proves assign trees) :
    Accounts fresh bindings proves [] where
  distinct := List.nodup_nil
  acyclic _ member := by cases member
  sound _ member := by cases member
  complete assign trees solves proved := absurd proved (none assign trees solves)

theorem Accounts.append (accounts : Accounts fresh bindings proves found)
    (further : Accounts fresh bindings others more)
    (apart : ∀ assign otherAssign trees, proves assign trees → ¬ others otherAssign trees) :
    Accounts fresh bindings (fun assign trees => proves assign trees ∨ others assign trees)
      (found ++ more) where
  distinct := by
    rw [List.map_append, List.nodup_append]
    refine ⟨accounts.distinct, further.distinct, ?_⟩
    intro trees member otherTrees otherMember same
    obtain ⟨entry, entryMember, rfl⟩ := List.mem_map.mp member
    obtain ⟨other, furtherMember, rfl⟩ := List.mem_map.mp otherMember
    exact apart _ _ _ (accounts.proved entryMember) (same ▸ further.proved furtherMember)
  acyclic entry member := by
    rcases List.mem_append.mp member with first | second
    · exact accounts.acyclic entry first
    · exact further.acyclic entry second
  sound entry member assign solves := by
    rcases List.mem_append.mp member with first | second
    · exact (accounts.sound entry first assign solves).imp_right .inl
    · exact (further.sound entry second assign solves).imp_right .inr
  complete assign trees solves proved := by
    rcases proved with first | second
    · obtain ⟨proof, wider, member, given⟩ := accounts.complete assign trees solves first
      exact ⟨proof, wider, List.mem_append_left more member, given⟩
    · obtain ⟨proof, wider, member, given⟩ := further.complete assign trees solves second
      exact ⟨proof, wider, List.mem_append_right found member, given⟩

/-- Proofs of the goals that are left after a step are proofs of the goals before it, with
trees that say what the step was. -/
theorem Accounts.relabel {later : Nat} {extended : Bindings}
    (accounts : Accounts later extended proves found) (onwards : fresh ≤ later)
    {wrap : List ProofTree → List ProofTree}
    (injective : ∀ assign otherAssign trees otherTrees, proves assign trees →
      proves otherAssign otherTrees → wrap trees = wrap otherTrees → trees = otherTrees)
    (wraps : ∀ assign trees, extended.SolvedBy assign → proves assign trees →
      bindings.SolvedBy assign ∧ others assign (wrap trees))
    (unwraps : ∀ assign trees, bindings.SolvedBy assign → others assign trees →
      ∃ wider inner, extended.SolvedBy wider ∧ proves wider inner ∧ wrap inner = trees ∧
        ∀ name, KnownName fresh name → wider name = assign name) :
    Accounts fresh bindings others (found.map (Prod.map wrap id)) where
  distinct := by
    have keys : (found.map (Prod.map wrap id)).map Prod.fst =
        (found.map Prod.fst).map wrap := by
      rw [List.map_map, List.map_map]
      rfl
    rw [keys]
    apply accounts.distinct.map_on
    intro trees member otherTrees otherMember same
    obtain ⟨entry, entryMember, rfl⟩ := List.mem_map.mp member
    obtain ⟨other, furtherMember, rfl⟩ := List.mem_map.mp otherMember
    exact injective _ _ _ _ (accounts.proved entryMember) (accounts.proved furtherMember) same
  acyclic entry member := by
    obtain ⟨original, originalMember, rfl⟩ := List.mem_map.mp member
    exact accounts.acyclic original originalMember
  sound entry member assign solves := by
    obtain ⟨original, originalMember, rfl⟩ := List.mem_map.mp member
    obtain ⟨solvesLater, proved⟩ := accounts.sound original originalMember assign solves
    exact wraps assign original.1 solvesLater proved
  complete assign trees solves proved := by
    obtain ⟨middle, inner, solvesLater, innerProved, rfl, agrees⟩ :=
      unwraps assign trees solves proved
    obtain ⟨proof, wider, member, proofSolved, agreesLater⟩ :=
      accounts.complete middle inner solvesLater innerProved
    refine ⟨proof, wider, List.mem_map_of_mem member, proofSolved, ?_⟩
    intro name known
    rw [agreesLater name (known.mono onwards), agrees name known]

end

/-! ## Explorations -/

theorem Accounts.both {prover : Prover} {fresh depth : Nat} {left right : Term}
    {rest : List Goal} {bindings : Bindings} {found : List (List ProofTree × Bindings)}
    (accounts : Accounts fresh bindings
      (prover.ProvesAll (⟨left, depth⟩ :: ⟨right, depth⟩ :: rest)) found) :
    Accounts fresh bindings (prover.ProvesAll (⟨.both left right, depth⟩ :: rest))
      (found.map (Prod.map ProofTree.joinFirst id)) := by
  have two : ∀ {assign trees},
      prover.ProvesAll (⟨left, depth⟩ :: ⟨right, depth⟩ :: rest) assign trees →
        ∃ first second others, trees = first :: second :: others := by
    intro assign trees proves
    obtain ⟨first, _, rfl, _, proves⟩ := Prover.provesAll_cons_iff.mp proves
    obtain ⟨second, others, rfl, _⟩ := Prover.provesAll_cons_iff.mp proves
    exact ⟨first, second, others, rfl⟩
  apply accounts.relabel (Nat.le_refl fresh)
  · intro _ _ trees otherTrees proves otherProves same
    obtain ⟨first, second, others, rfl⟩ := two proves
    obtain ⟨otherFirst, otherSecond, more, rfl⟩ := two otherProves
    simpa [ProofTree.joinFirst, and_assoc] using same
  · intro assign trees solves proves
    obtain ⟨first, second, others, rfl⟩ := two proves
    exact ⟨solves, Prover.provesAll_both_iff.mpr ⟨first, second, others, rfl, proves⟩⟩
  · intro assign trees solves proves
    obtain ⟨first, second, others, same, sides⟩ := Prover.provesAll_both_iff.mp proves
    exact ⟨assign, first :: second :: others, solves, sides, same.symm, fun _ _ => rfl⟩

namespace Prover

variable {prover : Prover}

/-- If the instance of a goal is proved by a clause, a substitution that agrees on the known
names makes the goal equal to the renamed head, and the conditions are proved. -/
theorem ProvesWith.overlaid {clause : Clause} {later : List Clause} {goal : Term}
    {depth fresh : Nat} {rest : List Goal} {bindings : Bindings}
    (branch : KnownBranch fresh (⟨goal, depth⟩ :: rest) bindings) (plain : clause.Plain)
    {assign : String → Term} {trees : List ProofTree} (solves : bindings.SolvedBy assign)
    (proves : prover.ProvesWith clause later goal rest assign trees) :
    ∃ wider entered, ProofTree.useFirst clause later entered = trees ∧
      bindings.SolvedBy wider ∧
      goal.subst wider = (clause.freshen fresh).head.subst wider ∧
      prover.ProvesAll ((clause.freshen fresh).body.map (⟨·, depth + 1⟩) ++ rest) wider
        entered ∧
      ∀ name, KnownName fresh name → wider name = assign name := by
  obtain ⟨conditions, others, inner, rfl, same, proved, othersProved⟩ := proves
  obtain ⟨goalKnown, restKnown⟩ := List.forall_mem_cons.mp branch.goals
  have length : clause.body.length = conditions.length := by
    simpa using proved.length_eq.symm
  refine ⟨overlay fresh inner assign, conditions ++ others, ?_,
    solvedBy_overlay inner assign branch.values solves, ?_, ?_,
    fun name => overlay_of_known inner assign⟩
  · rw [ProofTree.useFirst, length, List.take_left, List.drop_left]
  · rw [subst_overlay_of_known inner assign goalKnown, same]
    exact (subst_overlay_of_renamed inner assign plain.head).symm
  · rw [ProvesAll, List.map_append]
    apply List.rel_append
    · have body : ((clause.freshen fresh).body.map (Goal.mk · (depth + 1))).map
            (fun goal => goal.term.subst (overlay fresh inner assign)) =
          clause.body.map (Term.subst inner) := by
        simp only [Clause.freshen, Clause.rename, List.map_map]
        apply List.map_congr_left
        intro condition member
        exact subst_overlay_of_renamed inner assign (plain.body condition member)
      rw [body]
      exact proved
    · have unchanged : rest.map (fun goal => goal.term.subst (overlay fresh inner assign)) =
          rest.map (fun goal => goal.term.subst assign) := by
        apply List.map_congr_left
        intro goal member
        exact subst_overlay_of_known inner assign (restKnown goal member)
      rw [unchanged]
      exact othersProved

theorem ProvesAll.provesWith {clause : Clause} {goal : Term} {depth fresh : Nat}
    {rest : List Goal} {assign : String → Term} {trees : List ProofTree}
    (proves : prover.ProvesAll ((clause.freshen fresh).body.map (⟨·, depth + 1⟩) ++ rest)
      assign trees)
    (equal : goal.subst assign = (clause.freshen fresh).head.subst assign)
    (later : List Clause) :
    prover.ProvesWith clause later goal rest assign
      (ProofTree.useFirst clause later trees) := by
  rw [ProvesAll, List.map_append] at proves
  have length : ((clause.freshen fresh).body.map (Goal.mk · (depth + 1))).length =
      clause.body.length := by
    simp [Clause.freshen, Clause.rename]
  have body := List.forall₂_take_append _ _ _ proves
  have others := List.forall₂_drop_append _ _ _ proves
  rw [List.length_map, length] at body others
  refine ⟨trees.take clause.body.length, trees.drop clause.body.length,
    fun name => assign (freshName fresh name), rfl, ?_, ?_, others⟩
  · rw [equal]
    exact Term.subst_rename _ _ _
  · simpa only [Clause.freshen, Clause.rename, List.map_map, Function.comp_def,
      Term.subst_rename] using body

variable (counts : prover.Counts) (checked : prover.config.occursCheck = true)
  {clauses : List Clause} (plain : ∀ clause ∈ clauses, clause.Plain)

section

/-! What is shown of the goals after the first one is a hypothesis here. -/

variable {effort : Nat}
  (onwards : ∀ {goals : List Goal} {bindings : Bindings} {fresh : Nat},
    KnownBranch fresh goals bindings → ∀ {proofs last},
      (prover.explore effort goals bindings fresh).Finds proofs last →
      ∃ found, proofs = found.map Prod.snd ∧
        Accounts fresh bindings (prover.ProvesAll goals) found)
  {goal : Term} {depth fresh : Nat} {rest : List Goal} {bindings : Bindings}
  (branch : KnownBranch fresh (⟨goal, depth⟩ :: rest) bindings) {signature : Signature}
  (form : goal.goalForm = .call signature)
include counts checked plain onwards branch form

theorem accounts_follow {clause : Clause} (member : clause ∈ clauses) (later : List Clause)
    {first : Nat} (beyond : fresh ≤ first) {proofs : List Bindings} {last : Nat}
    (finds : (prover.follow effort (prover.explore effort) goal depth rest bindings clause
      first).Finds proofs last) :
    ∃ found, proofs = found.map Prod.snd ∧
      Accounts fresh bindings (prover.ProvesWith clause later goal rest) found := by
  have laterBranch := branch.mono beyond
  rcases finds_follow_iff.mp finds with ⟨clashes, rfl, _⟩ | ⟨extended, unifies, finds⟩
  · refine ⟨[], rfl, accounts_nil ?_⟩
    intro assign trees solves proves
    obtain ⟨wider, _, _, widerSolves, equal, _⟩ :=
      proves.overlaid laterBranch (plain clause member) solves
    rw [checked] at clashes
    exact no_solution_of_clash branch.acyclic clashes widerSolves equal
  · have entered := (knownBranch_branchLaw counts checked plain).entered laterBranch form member
      unifies
    obtain ⟨found, rfl, accounts⟩ := onwards entered finds
    rw [checked] at unifies
    obtain ⟨_, _, solutions⟩ := unified_solutions branch.acyclic unifies
    refine ⟨found.map (Prod.map (ProofTree.useFirst clause later) id), by simp, ?_⟩
    apply accounts.relabel (beyond.trans (counts first ▸ Nat.le_succ first))
    · intro _ _ trees otherTrees _ _ same
      exact ProofTree.useFirst_injective clause later same
    · intro assign trees solves proves
      obtain ⟨before, equal⟩ := (solutions assign).mp solves
      exact ⟨before, proves.provesWith equal later⟩
    · intro assign trees solves proves
      obtain ⟨wider, entered, same, widerSolves, equal, proved, agrees⟩ :=
        proves.overlaid laterBranch (plain clause member) solves
      refine ⟨wider, entered, (solutions wider).mpr ⟨widerSolves, equal⟩, proved, same, ?_⟩
      intro name known
      exact agrees name (known.mono beyond)

/-- The proofs on the branches of some clauses are those with trees that use one of them. -/
theorem accounts_followEach {candidates : List Clause} (stored : candidates ⊆ clauses)
    {first : Nat} (beyond : fresh ≤ first) {proofs : List Bindings} {last : Nat}
    (finds : (Exploration.followEach (prover.follow effort (prover.explore effort) goal depth
      rest bindings) candidates first).Finds proofs last) :
    ∃ found, proofs = found.map Prod.snd ∧
      Accounts fresh bindings (prover.ProvesBy candidates goal rest) found := by
  induction candidates generalizing first proofs with
  | nil =>
      obtain ⟨rfl, _⟩ := finds.unique (Exploration.finds_failure first)
      refine ⟨[], rfl, accounts_nil ?_⟩
      intro assign trees _ ⟨clause, later, suffix, _⟩
      cases List.suffix_nil.mp suffix
  | cons clause later induction =>
      obtain ⟨member, others⟩ := List.cons_subset.mp stored
      obtain ⟨before, middle, after, firstFinds, othersFind, rfl⟩ := finds.of_andThen
      have reached := follow_numbersFrom counts effort goal depth rest bindings clause first
        middle firstFinds.ending
      obtain ⟨found, rfl, accounts⟩ := accounts_follow counts checked plain onwards branch form
        member later beyond firstFinds
      obtain ⟨more, rfl, further⟩ := induction others (beyond.trans reached) othersFind
      refine ⟨found ++ more, List.map_append.symm, ?_⟩
      apply (accounts.append further fun _ _ _ proves => proves.not_provesBy).congr
      intro assign trees _
      exact provesBy_cons_iff.symm

end

include counts checked plain

/-- An exploration that comes to its end without a fault has found exactly one proof for every
list of trees that proves an instance of the goals. -/
theorem exists_accounts (stored : ∀ signature, prover.candidates signature ⊆ clauses)
    (effort : Nat) {goals : List Goal} {bindings : Bindings} {fresh : Nat}
    (branch : KnownBranch fresh goals bindings) {proofs : List Bindings} {last : Nat}
    (finds : (prover.explore effort goals bindings fresh).Finds proofs last) :
    ∃ found, proofs = found.map Prod.snd ∧
      Accounts fresh bindings (prover.ProvesAll goals) found := by
  induction effort generalizing goals bindings fresh proofs last with
  | zero => exact absurd finds Exploration.not_finds_interrupted
  | succ effort induction =>
      cases goals with
      | nil =>
          obtain ⟨rfl, _⟩ := finds.unique (Exploration.finds_success bindings fresh)
          refine ⟨[([], bindings)], rfl, List.nodup_singleton _, ?_, ?_, ?_⟩
          · intro entry member
            cases List.mem_singleton.mp member
            exact branch.acyclic
          · intro entry member assign solves
            cases List.mem_singleton.mp member
            exact ⟨solves, .nil⟩
          · intro assign trees solves proves
            cases proves
            exact ⟨bindings, assign, List.mem_singleton_self _, solves, fun _ _ => rfl⟩
      | cons goal rest =>
          have walked := (knownBranch_branchLaw counts checked plain).walked branch
          obtain ⟨term, depth⟩ := goal
          have sameProofs : ∀ assign trees, bindings.SolvedBy assign →
              (prover.ProvesAll (⟨bindings.walk term, depth⟩ :: rest) assign trees ↔
                prover.ProvesAll (⟨term, depth⟩ :: rest) assign trees) := by
            intro assign trees solves
            simp only [ProvesAll, List.map_cons, solves.subst_walk]
          obtain ⟨_, first⟩ := finds_cons_iff.mp finds
          cases first with
          | refuted form unifies finds =>
              have known := (List.forall_mem_cons.mp walked.goals).1
              exact absurd form (not_notUnifiable_of_known known)
          | passed form clashes finds =>
              have known := (List.forall_mem_cons.mp walked.goals).1
              exact absurd form (not_notUnifiable_of_known known)
          | both form finds =>
              rw [Term.eq_both_of_goalForm form] at walked sameProofs
              obtain ⟨found, rfl, accounts⟩ :=
                induction ((knownBranch_branchLaw counts checked plain).both walked) finds
              exact ⟨_, by simp, accounts.both.congr sameProofs⟩
          | called form finds =>
              obtain ⟨found, same, accounts⟩ := accounts_followEach counts checked plain induction
                walked form (stored _) (Nat.le_refl fresh) finds
              refine ⟨found, same, accounts.congr ?_⟩
              intro assign trees solves
              exact (provesAll_call_iff form).symm.trans (sameProofs assign trees solves)

end Prover

end HornLogic
