import HornLogic.Bindings.Substitution
import HornLogic.Proofs.Bindings.Chains

/-!
# Bindings as equations

Bindings are a set of equations between variables and their values.  A
substitution that solves the equations does not see whether a term was walked
or resolved first.  Acyclic bindings are solved by their own resolution, and
resolved terms contain exactly the unbound variables that can be reached.
-/

namespace HornLogic

namespace Bindings

/-- A substitution solves bindings if it gives every bound variable the same
term as the value of the variable. -/
def SolvedBy (bindings : Bindings) (assign : String → Term) : Prop :=
  ∀ name value, bindings.get? name = some value →
    assign name = value.subst assign

theorem solvedBy_empty (assign : String → Term) : empty.SolvedBy assign := by
  intro name value bound
  simp at bound

theorem SolvedBy.of_includes {later earlier : Bindings} {assign : String → Term}
    (solved : later.SolvedBy assign) (inclusion : later.Includes earlier) :
    earlier.SolvedBy assign :=
  fun name value bound => solved name value (inclusion name value bound)

theorem SolvedBy.of_extends {later earlier : Bindings} {assign : String → Term}
    (solved : later.SolvedBy assign) (extension : later.Extends earlier) :
    earlier.SolvedBy assign :=
  solved.of_includes extension.includes

theorem solvedBy_bind_iff {bindings : Bindings} {name : String}
    (unbound : bindings.get? name = none) {value : Term}
    {assign : String → Term} :
    (bindings.bind name value).SolvedBy assign ↔
      bindings.SolvedBy assign ∧ assign name = value.subst assign := by
  constructor
  · intro solved
    refine ⟨solved.of_extends (.bind unbound value), ?_⟩
    exact solved name value (by simp [get?_bind])
  · rintro ⟨solved, equation⟩ other term bound
    rw [get?_bind] at bound
    by_cases same : other = name
    · obtain rfl : value = term := by simpa [same] using bound
      rw [same]
      exact equation
    · exact solved other term (by simpa [same] using bound)

section Solved

variable {bindings : Bindings} {assign : String → Term}

theorem SolvedBy.subst_walk (solved : bindings.SolvedBy assign) (term : Term) :
    (bindings.walk term).subst assign = term.subst assign := by
  apply walk_preserves (fun last => last.subst assign = term.subst assign) ?_ rfl
  intro name value bound same
  rw [← same, Term.subst_var, solved name value bound]

theorem SolvedBy.subst_resolveWithin (solved : bindings.SolvedBy assign)
    (room : Nat) (expanding : List String) (name : String) :
    (bindings.resolveWithin room expanding name).subst assign = assign name := by
  induction room generalizing expanding name with
  | zero => rfl
  | succ room induction =>
      by_cases inside : name ∈ expanding
      · simp [resolveWithin, inside]
      · cases lookup : bindings.get? name with
        | none => simp [resolveWithin, inside, lookup]
        | some value =>
            simp only [resolveWithin, inside, lookup, if_false]
            calc
              (value.subst (bindings.resolveWithin room (name :: expanding))).subst
                  assign = value.subst assign := by
                rw [Term.subst_subst]
                exact Term.subst_congr fun inner _ => induction _ inner
              _ = assign name := (solved name value lookup).symm

/-- A solution does not see whether a term was resolved. -/
theorem SolvedBy.subst_substitute (solved : bindings.SolvedBy assign)
    (term : Term) : (term.substitute bindings).subst assign = term.subst assign := by
  rw [Term.substitute, Term.subst_subst]
  exact Term.subst_congr fun name _ => solved.subst_resolveWithin _ _ name

end Solved

section Resolve

variable {bindings : Bindings}

theorem resolveWithin_of_unbound {name : String}
    (unbound : bindings.get? name = none) (room : Nat) (expanding : List String) :
    bindings.resolveWithin room expanding name = .var name := by
  cases room with
  | zero => rfl
  | succ room => simp [resolveWithin, unbound]

theorem resolve_of_unbound {name : String} (unbound : bindings.get? name = none) :
    bindings.resolve name = .var name :=
  resolveWithin_of_unbound unbound _ _

/-- Room for the rank of a variable is enough, and variables of higher rank
are not met again. -/
theorem resolveWithin_eq_of_rank {rank : String → Nat}
    (ranks : Ranks bindings.Mentions bindings.names rank)
    {firstRoom secondRoom : Nat} {firstExpanding secondExpanding : List String}
    {name : String}
    (firstEnough : rank name ≤ firstRoom) (secondEnough : rank name ≤ secondRoom)
    (firstAbove : ∀ other ∈ firstExpanding, rank name < rank other)
    (secondAbove : ∀ other ∈ secondExpanding, rank name < rank other) :
    bindings.resolveWithin firstRoom firstExpanding name =
      bindings.resolveWithin secondRoom secondExpanding name := by
  induction firstRoom generalizing secondRoom firstExpanding secondExpanding name with
  | zero =>
      have unbound : bindings.get? name = none := by
        rw [get?_eq_none_iff]
        intro listed
        have positive := ranks.positive listed
        omega
      rw [resolveWithin_of_unbound unbound, resolveWithin_of_unbound unbound]
  | succ firstRoom induction =>
      cases lookup : bindings.get? name with
      | none => rw [resolveWithin_of_unbound lookup, resolveWithin_of_unbound lookup]
      | some value =>
          have positive := ranks.positive (mem_names_of_get? lookup)
          obtain ⟨room, rfl⟩ : ∃ room, secondRoom = room + 1 :=
            Nat.exists_eq_succ_of_ne_zero (by omega)
          have firstOutside : name ∉ firstExpanding := fun member =>
            Nat.lt_irrefl _ (firstAbove name member)
          have secondOutside : name ∉ secondExpanding := fun member =>
            Nat.lt_irrefl _ (secondAbove name member)
          simp only [resolveWithin, firstOutside, secondOutside, lookup, if_false]
          refine Term.subst_congr fun inner member => ?_
          have smaller : rank inner < rank name := ranks.falls ⟨value, lookup, member⟩
          refine induction (by omega) (by omega) ?_ ?_
          · intro other listed
            rcases List.mem_cons.mp listed with rfl | earlier
            · exact smaller
            · exact smaller.trans (firstAbove other earlier)
          · intro other listed
            rcases List.mem_cons.mp listed with rfl | earlier
            · exact smaller
            · exact smaller.trans (secondAbove other earlier)

theorem Acyclic.resolve_of_bound (acyclic : bindings.Acyclic) {name : String}
    {value : Term} (bound : bindings.get? name = some value) :
    bindings.resolve name = value.subst bindings.resolve := by
  obtain ⟨rank, ranks⟩ := acyclic.exists_ranks
  have fits : ∀ other, rank other ≤ bindings.size := by
    simpa using ranks.bounded
  have positive := ranks.positive (mem_names_of_get? bound)
  have nameFits := fits name
  obtain ⟨room, full⟩ : ∃ room, bindings.size = room + 1 :=
    Nat.exists_eq_succ_of_ne_zero (by omega)
  have opened : bindings.resolve name =
      value.subst (bindings.resolveWithin room [name]) := by
    simp [resolve, full, resolveWithin, bound]
  rw [opened]
  refine Term.subst_congr fun inner member => ?_
  have smaller : rank inner < rank name := ranks.falls ⟨value, bound, member⟩
  exact resolveWithin_eq_of_rank ranks (by omega) (fits inner)
    (by simpa using smaller) (by simp)

theorem Acyclic.solvedBy_resolve (acyclic : bindings.Acyclic) :
    bindings.SolvedBy bindings.resolve :=
  fun _ _ bound => acyclic.resolve_of_bound bound

theorem Acyclic.substitute_walk (acyclic : bindings.Acyclic) (term : Term) :
    (bindings.walk term).substitute bindings = term.substitute bindings :=
  acyclic.solvedBy_resolve.subst_walk term

/-- Resolving a variable leaves the unbound variables that it reaches. -/
theorem Acyclic.mem_occurrences_resolve (acyclic : bindings.Acyclic)
    {name other : String} :
    other ∈ (bindings.resolve name).occurrences ↔
      bindings.get? other = none ∧
        Relation.ReflTransGen bindings.Mentions name other := by
  obtain ⟨rank, ranks⟩ := acyclic.exists_ranks
  -- The rank of the variable falls from a variable to those of its value.
  induction below : rank name using Nat.strong_induction_on generalizing name with
  | _ limit induction =>
      subst below
      cases lookup : bindings.get? name with
      | none =>
          rw [resolve_of_unbound lookup]
          constructor
          · intro member
            obtain rfl : other = name := by simpa using member
            exact ⟨lookup, .refl⟩
          · rintro ⟨_, path⟩
            rcases Relation.ReflTransGen.cases_head path with rfl | ⟨next, mention, _⟩
            · simp
            · obtain ⟨value, bound, _⟩ := mention
              simp [lookup] at bound
      | some value =>
          rw [acyclic.resolve_of_bound lookup, Term.mem_occurrences_subst]
          constructor
          · rintro ⟨inner, innerMember, member⟩
            have mention : bindings.Mentions name inner := ⟨value, lookup, innerMember⟩
            obtain ⟨unbound, path⟩ :=
              (induction _ (ranks.falls mention) rfl).mp member
            exact ⟨unbound, .head mention path⟩
          · rintro ⟨unbound, path⟩
            rcases Relation.ReflTransGen.cases_head path with rfl | ⟨next, mention, onwards⟩
            · simp [lookup] at unbound
            · obtain ⟨term, bound, nextMember⟩ := mention
              obtain rfl : value = term := by simpa [lookup] using bound
              have reached : bindings.Mentions name next := ⟨value, lookup, nextMember⟩
              exact ⟨next, nextMember,
                (induction _ (ranks.falls reached) rfl).mpr ⟨unbound, onwards⟩⟩

theorem Acyclic.mem_occurrences_substitute (acyclic : bindings.Acyclic)
    {term : Term} {other : String} :
    other ∈ (term.substitute bindings).occurrences ↔
      bindings.get? other = none ∧
        ∃ name ∈ term.occurrences,
          Relation.ReflTransGen bindings.Mentions name other := by
  rw [Term.substitute, Term.mem_occurrences_subst]
  constructor
  · rintro ⟨name, nameMember, member⟩
    obtain ⟨unbound, path⟩ := acyclic.mem_occurrences_resolve.mp member
    exact ⟨unbound, name, nameMember, path⟩
  · rintro ⟨unbound, name, nameMember, path⟩
    exact ⟨name, nameMember, acyclic.mem_occurrences_resolve.mpr ⟨unbound, path⟩⟩

/-- A new binding keeps bindings acyclic exactly if its variable does not occur
in what its value stands for. -/
theorem Acyclic.bind_iff (acyclic : bindings.Acyclic) {name : String}
    (unbound : bindings.get? name = none) {value : Term} :
    (bindings.bind name value).Acyclic ↔
      name ∉ (value.substitute bindings).occurrences := by
  constructor
  · intro bindAcyclic occurs
    obtain ⟨_, inner, member, path⟩ := acyclic.mem_occurrences_substitute.mp occurs
    have intoValue : (bindings.bind name value).Mentions name inner :=
      (mentions_bind_iff unbound).mpr (.inr ⟨rfl, member⟩)
    have back : Relation.ReflTransGen (bindings.bind name value).Mentions inner name :=
      Relation.ReflTransGen.mono
        (fun _ _ mention => (mentions_bind_iff unbound).mpr (.inl mention)) _ _ path
    exact bindAcyclic name (.head' intoValue back)
  · intro absent
    apply acyclic.bind unbound
    intro inner member path
    exact absent (acyclic.mem_occurrences_substitute.mpr ⟨unbound, inner, member, path⟩)

end Resolve

end Bindings

end HornLogic
