import HornLogic.Proofs.Search.ProofTrees
import HornLogic.Proofs.Search.Rearrangement
import HornLogic.Proofs.Search.Reporting

/-!
# The order of goals

A conjunction and the conjunction with its sides exchanged have the same proof trees, up to
the exchange.  A search that ends finds one proof for each of them, so the proofs of the two
conjunctions belong together in pairs.  Each proof of a pair gives an instance of what the
other gives, so the values of the variables are the same up to their names.
-/

namespace HornLogic

/-- The value of a variable under a solution.  A variable without a value stands for itself. -/
def Solution.valueOf (solution : Solution) (name : String) : Term :=
  (solution.get? name).getD (.var name)

theorem Search.valueOf_solutionUnder {reported : List String} {name : String}
    (member : name ∈ reported) (bindings : Bindings) :
    (solutionUnder reported bindings).valueOf name = bindings.resolve name := by
  have value : (Term.var name).substitute bindings = bindings.resolve name := rfl
  rw [Solution.valueOf, get?_solutionUnder, value]
  by_cases itself : bindings.resolve name = .var name
  · simp [itself]
  · simp [member, itself]

namespace ProofTree

/-- The tree of a conjunction with its sides exchanged. -/
def exchange : ProofTree → ProofTree
  | .both left right => .both right left
  | tree => tree

theorem exchange_exchange (tree : ProofTree) : tree.exchange.exchange = tree := by
  cases tree <;> rfl

theorem map_exchange_map_exchange (trees : List ProofTree) :
    (trees.map exchange).map exchange = trees := by
  rw [List.map_map, Function.Involutive.comp_self exchange_exchange, List.map_id]

end ProofTree

theorem Prover.ProvesAll.exchange {prover : Prover} {first second : Term} {depth : Nat}
    {assign : String → Term} {trees : List ProofTree}
    (proves : prover.ProvesAll [⟨.both first second, depth⟩] assign trees) :
    prover.ProvesAll [⟨.both second first, depth⟩] assign (trees.map ProofTree.exchange) := by
  obtain ⟨tree, others, rfl, treeProves, othersProve⟩ := provesAll_cons_iff.mp proves
  cases othersProve
  rw [Term.subst_both] at treeProves
  obtain ⟨left, right, rfl, leftProves, rightProves⟩ := treeProves.of_both
  have joined := ProofTree.Proves.both rightProves leftProves
  rw [← Term.subst_both] at joined
  exact .cons joined .nil

section

variable {prover : Prover} {first second : Term} {fresh otherFresh : Nat}
  {found others : List (List ProofTree × Bindings)}
  (accounts : Accounts fresh .empty (prover.ProvesAll [⟨.both first second, 0⟩]) found)
  (otherAccounts : Accounts otherFresh .empty (prover.ProvesAll [⟨.both second first, 0⟩])
    others)
include accounts otherAccounts

/-- What a proof gives is an instance of what the proof with the exchanged trees gives. -/
theorem Accounts.exchanged {entry : List ProofTree × Bindings} (member : entry ∈ found) :
    ∃ proof assign, (entry.1.map ProofTree.exchange, proof) ∈ others ∧
      ∀ name, WrittenName name →
        entry.2.resolve name = (proof.resolve name).subst assign := by
  obtain ⟨proof, assign, otherMember, solves, agrees⟩ := otherAccounts.complete _ _
    (Bindings.solvedBy_empty _) (accounts.proved member).exchange
  refine ⟨proof, assign, otherMember, ?_⟩
  intro name written
  rw [← agrees name (.written written)]
  exact (solves.subst_resolveWithin _ _ name).symm

theorem Accounts.exchange_perm :
    (found.map fun entry => entry.1.map ProofTree.exchange).Perm
      (others.map Prod.fst) := by
  have keys : (found.map fun entry => entry.1.map ProofTree.exchange) =
      (found.map Prod.fst).map (List.map ProofTree.exchange) := by
    rw [List.map_map]
    rfl
  have distinct := accounts.distinct.map
    (Function.LeftInverse.injective ProofTree.map_exchange_map_exchange)
  rw [keys, List.perm_ext_iff_of_nodup distinct otherAccounts.distinct, ← keys]
  intro trees
  constructor
  · intro member
    obtain ⟨entry, entryMember, rfl⟩ := List.mem_map.mp member
    obtain ⟨proof, _, otherMember, _⟩ := accounts.exchanged otherAccounts entryMember
    exact List.mem_map_of_mem otherMember
  · intro member
    obtain ⟨entry, entryMember, rfl⟩ := List.mem_map.mp member
    obtain ⟨proof, _, otherMember, _⟩ := otherAccounts.exchanged accounts entryMember
    refine List.mem_map.mpr ⟨_, otherMember, ?_⟩
    exact ProofTree.map_exchange_map_exchange entry.1

/-- Two proofs with exchanged trees give the same values up to the names of variables. -/
theorem Accounts.exchanged_values {entry other : List ProofTree × Bindings}
    (member : entry ∈ found) (otherMember : other ∈ others)
    (same : entry.1.map ProofTree.exchange = other.1) {names : List String}
    (written : ∀ name ∈ names, WrittenName name) :
    ∃ permutation : Equiv.Perm String, ∀ name ∈ names,
      other.2.resolve name = (entry.2.resolve name).rename permutation := by
  obtain ⟨proof, assign, present, instances⟩ := accounts.exchanged otherAccounts member
  obtain ⟨back, assignBack, presentBack, instancesBack⟩ :=
    otherAccounts.exchanged accounts otherMember
  rw [same] at present
  rw [← same, ProofTree.map_exchange_map_exchange] at presentBack
  obtain rfl := otherAccounts.unique present otherMember
  obtain rfl := accounts.unique presentBack member
  exact Term.exists_permutation_of_instances
    (fun name inNames => instancesBack name (written name inNames))
    (fun name inNames => instances name (written name inNames))

end

/-- Two solutions give the variables the same values, up to an injective renaming of the
variables in all of them. -/
def Solution.SameValues (names : List String) (solution other : Solution) : Prop :=
  ∃ permutation : Equiv.Perm String, ∀ name ∈ names,
    other.valueOf name = (solution.valueOf name).rename permutation

theorem Term.Plain.both {first second : Term} (firstPlain : first.Plain)
    (secondPlain : second.Plain) : (Term.both first second).Plain where
  written name member := by
    rcases (by simpa [Term.both] using member :
        name ∈ first.occurrences ∨ name ∈ second.occurrences) with inFirst | inSecond
    · exact firstPlain.written name inFirst
    · exact secondPlain.written name inSecond
  untested := by
    simpa [Term.Untested, Term.both, conjunctionName, notUnifiableName] using
      ⟨firstPlain.untested, secondPlain.untested⟩

theorem Search.mem_reportedVariables_both {first second : Term} {name : String} :
    name ∈ reportedVariables (.both first second) ↔
      name ∈ reportedVariables (.both second first) := by
  simp [reportedVariables, Term.variableNames, Term.both, or_comm]

end HornLogic
