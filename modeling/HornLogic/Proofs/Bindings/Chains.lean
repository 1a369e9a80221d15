import HornLogic.Proofs.Bindings.Acyclicity

/-!
# Chains of variables

A chain goes from a variable to its value for as long as this is a variable with
a value in turn.  Bindings may let some chains run into a circle and others end.
A chain that is not on a circle yet meets every bound variable at most once.  A
walk takes up to one step more than there are bindings, so it comes to the end of
the chain or to a variable on a circle.  Under acyclic bindings all chains end.
-/

namespace HornLogic

namespace Bindings

/-- A variable leads to the variable that is its value. -/
def Leads (bindings : Bindings) (name other : String) : Prop :=
  bindings.get? name = some (.var other)

/-- No chain of variables runs in a circle. -/
def ChainsEnd (bindings : Bindings) : Prop :=
  ∀ name, ¬ Relation.TransGen bindings.Leads name name

/-- A chain of variables leads from the variable back to it. -/
def OnCircle (bindings : Bindings) (name : String) : Prop :=
  Relation.TransGen bindings.Leads name name

/-- A chain of this many bindings leads from one term to another: each is the
value of the variable before it. -/
inductive Chain (bindings : Bindings) : (length : Nat) → (first last : Term) → Prop where
  | refl (term : Term) : Chain bindings 0 term term
  | cons {name : String} {value last : Term} {length : Nat}
      (bound : bindings.get? name = some value) (onwards : Chain bindings length value last) :
      Chain bindings (length + 1) (.var name) last

/-- No chain goes on from the term: it is no variable, or a variable without a
value. -/
def EndsChains (bindings : Bindings) (term : Term) : Prop :=
  ∀ name, term = .var name → bindings.get? name = none

/-- The chain that begins with the term comes to a variable on a circle. -/
def RunsIntoCircle (bindings : Bindings) (term : Term) : Prop :=
  ∃ length name, bindings.Chain length term (.var name) ∧ bindings.OnCircle name

variable {bindings : Bindings}

@[simp] theorem follow_atom (steps : Nat) (name : String) :
    bindings.follow steps (.atom name) = .atom name := by
  cases steps <;> rfl

@[simp] theorem follow_app (steps : Nat) (functor : String) (args : List Term) :
    bindings.follow steps (.app functor args) = .app functor args := by
  cases steps <;> rfl

@[simp] theorem walk_atom (name : String) :
    bindings.walk (.atom name) = .atom name :=
  rfl

@[simp] theorem walk_app (functor : String) (args : List Term) :
    bindings.walk (.app functor args) = .app functor args :=
  rfl

theorem follow_of_unbound {name : String} (unbound : bindings.get? name = none)
    (steps : Nat) : bindings.follow steps (.var name) = .var name := by
  cases steps with
  | zero => rfl
  | succ steps => simp [follow, unbound]

theorem walk_of_unbound {name : String} (unbound : bindings.get? name = none) :
    bindings.walk (.var name) = .var name :=
  follow_of_unbound unbound _

theorem endsChains_of_not_var {term : Term} (ended : term.isVar = false) :
    bindings.EndsChains term := by
  rintro name rfl
  cases ended

theorem endsChains_of_unbound {name : String} (unbound : bindings.get? name = none) :
    bindings.EndsChains (.var name) := by
  rintro _ ⟨⟩
  exact unbound

theorem EndsChains.follow_eq {term : Term} (ends : bindings.EndsChains term) (steps : Nat) :
    bindings.follow steps term = term := by
  cases term with
  | atom name => exact follow_atom steps name
  | app functor args => exact follow_app steps functor args
  | var name => exact follow_of_unbound (ends name rfl) steps

theorem Chain.follow_add {length : Nat} {first last : Term}
    (chain : bindings.Chain length first last) (steps : Nat) :
    bindings.follow (length + steps) first = bindings.follow steps last := by
  induction chain with
  | refl term => rw [Nat.zero_add]
  | cons bound _ induction =>
      rw [Nat.add_right_comm]
      simpa only [follow, bound] using induction

theorem Chain.follow_eq {length steps : Nat} {first last : Term}
    (chain : bindings.Chain length first last) (ends : bindings.EndsChains last)
    (enough : length ≤ steps) : bindings.follow steps first = last := by
  rw [← Nat.add_sub_cancel' enough, chain.follow_add, ends.follow_eq]

theorem exists_chain_follow (bindings : Bindings) (steps : Nat) (term : Term) :
    ∃ length, bindings.Chain length term (bindings.follow steps term) := by
  induction steps generalizing term with
  | zero => exact ⟨0, .refl term⟩
  | succ steps induction =>
      cases term with
      | atom name => exact ⟨0, .refl _⟩
      | app functor args => exact ⟨0, .refl _⟩
      | var name =>
          cases lookup : bindings.get? name with
          | none => exact ⟨0, by simpa [follow, lookup] using Chain.refl (.var name)⟩
          | some value =>
              obtain ⟨length, onwards⟩ := induction value
              exact ⟨length + 1, by simpa only [follow, lookup] using onwards.cons lookup⟩

/-- What passes from every bound variable to its value passes to the end of a walk. -/
theorem walk_preserves (law : Term → Prop)
    (passes : ∀ name value, bindings.get? name = some value → law (.var name) → law value)
    {term : Term} (holds : law term) : law (bindings.walk term) := by
  obtain ⟨length, chain⟩ := bindings.exists_chain_follow (bindings.size + 1) term
  rw [walk]
  generalize bindings.follow (bindings.size + 1) term = last at chain ⊢
  induction chain with
  | refl term => exact holds
  | cons bound _ induction => exact induction (passes _ _ bound holds)

theorem Chain.end_unique {length other : Nat} {first last otherLast : Term}
    (chain : bindings.Chain length first last) (ends : bindings.EndsChains last)
    (otherChain : bindings.Chain other first otherLast)
    (otherEnds : bindings.EndsChains otherLast) : length = other ∧ last = otherLast := by
  induction chain generalizing other with
  | refl term =>
      cases otherChain with
      | refl => exact ⟨rfl, rfl⟩
      | cons bound _ =>
          rw [ends _ rfl] at bound
          cases bound
  | cons bound _ induction =>
      cases otherChain with
      | refl =>
          rw [otherEnds _ rfl] at bound
          cases bound
      | cons otherBound onwards =>
          obtain rfl := Option.some.inj (bound.symm.trans otherBound)
          obtain ⟨rfl, sameLast⟩ := induction ends onwards
          exact ⟨rfl, sameLast⟩

theorem Chain.of_includes {later earlier : Bindings} (inclusion : later.Includes earlier)
    {length : Nat} {first last : Term} (chain : earlier.Chain length first last) :
    later.Chain length first last := by
  induction chain with
  | refl term => exact .refl term
  | cons bound _ induction => exact .cons (inclusion _ _ bound) induction

theorem OnCircle.exists_next {name : String} (circle : bindings.OnCircle name) :
    ∃ next, bindings.Leads name next ∧ bindings.OnCircle next := by
  obtain ⟨next, leads, back⟩ := Relation.TransGen.head'_iff.mp circle
  exact ⟨next, leads, .tail' back leads⟩

theorem OnCircle.mem_names {name : String} (circle : bindings.OnCircle name) :
    name ∈ bindings.names := by
  obtain ⟨_, leads, _⟩ := circle.exists_next
  exact mem_names_of_get? leads

theorem OnCircle.not_endsChains {name : String} (circle : bindings.OnCircle name) :
    ¬ bindings.EndsChains (.var name) := by
  intro ends
  exact get?_eq_none_iff.mp (ends name rfl) circle.mem_names

theorem OnCircle.exists_follow_eq {name : String} (circle : bindings.OnCircle name)
    (steps : Nat) :
    ∃ later, bindings.follow steps (.var name) = .var later ∧ bindings.OnCircle later := by
  induction steps generalizing name with
  | zero => exact ⟨name, rfl, circle⟩
  | succ steps induction =>
      obtain ⟨next, leads, nextCircle⟩ := circle.exists_next
      obtain ⟨later, followed, laterCircle⟩ := induction nextCircle
      refine ⟨later, ?_, laterCircle⟩
      have bound : bindings.get? name = some (.var next) := leads
      simpa only [follow, bound] using followed

/-- A chain does not both end and run into a circle: after enough steps it would
be at both places. -/
theorem Chain.not_runsIntoCircle {length : Nat} {first last : Term}
    (chain : bindings.Chain length first last) (ends : bindings.EndsChains last) :
    ¬ bindings.RunsIntoCircle first := by
  rintro ⟨toCircle, name, circling, circle⟩
  obtain ⟨later, followed, laterCircle⟩ := circle.exists_follow_eq length
  have sameTerm : last = .var later := by
    calc
      last = bindings.follow (toCircle + length) first :=
        (chain.follow_eq ends (Nat.le_add_left _ _)).symm
      _ = .var later := by rw [circling.follow_add, followed]
  exact laterCircle.not_endsChains (sameTerm ▸ ends)

/-- The variables that are not on a circle are ranked along their chains. -/
theorem exists_ranks_off_circles (bindings : Bindings) :
    ∃ rank, Ranks (fun name other => bindings.Leads name other ∧ ¬ bindings.OnCircle name)
      bindings.names rank := by
  apply HornLogic.exists_ranks
  · exact fun link => mem_names_of_get? link.1
  · intro name cycle
    obtain ⟨_, ⟨_, offCircle⟩, _⟩ := Relation.TransGen.head'_iff.mp cycle
    exact offCircle (Relation.TransGen.mono (fun _ _ link => link.1) _ _ cycle)

/-- Every chain comes to an end or to a circle within as many steps as there are
bindings. -/
theorem exists_chain (bindings : Bindings) (term : Term) :
    ∃ length ≤ bindings.size, ∃ last, bindings.Chain length term last ∧
      (bindings.EndsChains last ∨ ∃ name, last = .var name ∧ bindings.OnCircle name) := by
  obtain ⟨rank, ranks⟩ := bindings.exists_ranks_off_circles
  have fromVariable : ∀ name, ∃ length ≤ rank name, ∃ last,
      bindings.Chain length (.var name) last ∧
        (bindings.EndsChains last ∨ ∃ name, last = .var name ∧ bindings.OnCircle name) := by
    intro name
    induction below : rank name using Nat.strong_induction_on generalizing name with
    | _ limit induction =>
        subst below
        by_cases circle : bindings.OnCircle name
        · exact ⟨0, Nat.zero_le _, .var name, .refl _, .inr ⟨name, rfl, circle⟩⟩
        · cases lookup : bindings.get? name with
          | none =>
              exact ⟨0, Nat.zero_le _, .var name, .refl _, .inl (endsChains_of_unbound lookup)⟩
          | some value =>
              have positive := ranks.positive (mem_names_of_get? lookup)
              have atValue : value.isVar = false → ∃ length ≤ rank name, ∃ last,
                  bindings.Chain length (.var name) last ∧ (bindings.EndsChains last ∨
                    ∃ name, last = .var name ∧ bindings.OnCircle name) := fun ended =>
                ⟨1, positive, value, .cons lookup (.refl value),
                  .inl (endsChains_of_not_var ended)⟩
              cases value with
              | atom constant => exact atValue rfl
              | app functor args => exact atValue rfl
              | var next =>
                  have smaller := ranks.falls ⟨lookup, circle⟩
                  obtain ⟨length, fits, last, onwards, settled⟩ := induction _ smaller next rfl
                  exact ⟨length + 1, by omega, last, .cons lookup onwards, settled⟩
  cases term with
  | atom name => exact ⟨0, Nat.zero_le _, _, .refl _, .inl (endsChains_of_not_var rfl)⟩
  | app functor args => exact ⟨0, Nat.zero_le _, _, .refl _, .inl (endsChains_of_not_var rfl)⟩
  | var name =>
      obtain ⟨length, fits, onwards⟩ := fromVariable name
      exact ⟨length, fits.trans (by simpa using ranks.bounded name), onwards⟩

/-- A walk has come to the end of a chain, or it is on a circle. -/
theorem walk_settles (bindings : Bindings) (term : Term) :
    (∃ length ≤ bindings.size, bindings.Chain length term (bindings.walk term) ∧
        bindings.EndsChains (bindings.walk term)) ∨
      bindings.RunsIntoCircle term ∧
        ∃ name, bindings.walk term = .var name ∧ bindings.OnCircle name := by
  obtain ⟨length, fits, last, chain, settled⟩ := bindings.exists_chain term
  have room : length ≤ bindings.size + 1 := Nat.le_succ_of_le fits
  rcases settled with ends | ⟨name, rfl, circle⟩
  · obtain rfl : bindings.walk term = last := chain.follow_eq ends room
    exact .inl ⟨length, fits, chain, ends⟩
  · have walked : bindings.walk term =
        bindings.follow (bindings.size + 1 - length) (.var name) := by
      rw [← chain.follow_add, Nat.add_sub_cancel' room, walk]
    rw [walked]
    exact .inr ⟨⟨length, name, chain, circle⟩, circle.exists_follow_eq _⟩

theorem RunsIntoCircle.exists_walk_eq {term : Term} (runs : bindings.RunsIntoCircle term) :
    ∃ name, bindings.walk term = .var name ∧ bindings.OnCircle name := by
  rcases bindings.walk_settles term with ⟨_, _, chain, ends⟩ | ⟨_, onCircle⟩
  · exact absurd runs (chain.not_runsIntoCircle ends)
  · exact onCircle

theorem exists_chain_walk {term : Term} (noCircle : ¬ bindings.RunsIntoCircle term) :
    ∃ length ≤ bindings.size, bindings.Chain length term (bindings.walk term) ∧
      bindings.EndsChains (bindings.walk term) :=
  (bindings.walk_settles term).resolve_right fun circling => noCircle circling.1

/-- A chain with an end is no longer than there are bindings, and is walked to its end. -/
theorem Chain.walked {length : Nat} {first last : Term}
    (chain : bindings.Chain length first last) (ends : bindings.EndsChains last) :
    length ≤ bindings.size ∧ bindings.walk first = last := by
  obtain ⟨walked, fits, walkedChain, walkedEnds⟩ :=
    exists_chain_walk (chain.not_runsIntoCircle ends)
  obtain ⟨rfl, rfl⟩ := chain.end_unique ends walkedChain walkedEnds
  exact ⟨fits, rfl⟩

/-- A walk ends on a bound variable exactly if its chain runs into a circle, and then
this variable is on a circle.  Otherwise it ends where the chain ends, whatever the
length of the chain, and no chain with an end is longer than there are bindings. -/
theorem walk_finds_end_of_chain (bindings : Bindings) (term : Term) :
    ((∃ name ∈ bindings.names, bindings.walk term = .var name) ↔
        bindings.RunsIntoCircle term) ∧
      (bindings.RunsIntoCircle term →
        ∃ name, bindings.walk term = .var name ∧ bindings.OnCircle name) ∧
      (¬ bindings.RunsIntoCircle term →
        ∃ length, bindings.Chain length term (bindings.walk term) ∧
          bindings.EndsChains (bindings.walk term)) ∧
      ∀ length last, bindings.Chain length term last → bindings.EndsChains last →
        length ≤ bindings.size ∧ ¬ bindings.RunsIntoCircle term ∧
          bindings.walk term = last := by
  refine ⟨⟨?_, ?_⟩, RunsIntoCircle.exists_walk_eq, ?_, ?_⟩
  · rintro ⟨name, bound, walked⟩
    by_contra noCircle
    obtain ⟨_, _, _, ends⟩ := exists_chain_walk noCircle
    exact get?_eq_none_iff.mp (ends name walked) bound
  · intro runs
    obtain ⟨name, walked, circle⟩ := runs.exists_walk_eq
    exact ⟨name, circle.mem_names, walked⟩
  · intro noCircle
    obtain ⟨length, _, chain, ends⟩ := exists_chain_walk noCircle
    exact ⟨length, chain, ends⟩
  · intro length last chain ends
    obtain ⟨fits, walked⟩ := chain.walked ends
    exact ⟨fits, chain.not_runsIntoCircle ends, walked⟩

example : (ofList [("X", .var "Y"), ("Y", .var "Z"), ("Z", .var "W")]).walk (.var "X") =
    .var "W" := by
  decide

theorem Acyclic.chainsEnd (acyclic : bindings.Acyclic) : bindings.ChainsEnd := by
  intro name cycle
  refine acyclic name (Relation.TransGen.mono ?_ _ _ cycle)
  intro first second leads
  exact ⟨.var second, leads, by simp⟩

theorem ChainsEnd.exists_chain_walk (chains : bindings.ChainsEnd) (term : Term) :
    ∃ length ≤ bindings.size, bindings.Chain length term (bindings.walk term) ∧
      bindings.EndsChains (bindings.walk term) :=
  Bindings.exists_chain_walk fun ⟨_, name, _, circle⟩ => chains name circle

theorem ChainsEnd.get?_eq_none_of_walk (chains : bindings.ChainsEnd) {term : Term}
    {name : String} (ends : bindings.walk term = .var name) :
    bindings.get? name = none := by
  obtain ⟨_, _, _, endsChains⟩ := chains.exists_chain_walk term
  exact endsChains name ends

/-- A walk that has come to a term other than a variable does not go on under
later bindings. -/
theorem Acyclic.walk_eq_of_includes {later earlier : Bindings} (acyclic : later.Acyclic)
    (inclusion : later.Includes earlier) {term : Term}
    (ended : (earlier.walk term).isVar = false) :
    later.walk term = earlier.walk term := by
  obtain ⟨_, _, chain, _⟩ :=
    (acyclic.of_includes inclusion).chainsEnd.exists_chain_walk term
  exact ((chain.of_includes inclusion).walked (endsChains_of_not_var ended)).2

end Bindings

end HornLogic
