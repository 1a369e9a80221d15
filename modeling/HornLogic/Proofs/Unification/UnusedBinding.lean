import HornLogic.Proofs.Bindings.Expansion
import HornLogic.Proofs.Unification.Extension
import HornLogic.Proofs.Unification.OccursCheck
import HornLogic.Proofs.Unification.Solutions

/-!
# A binding that nothing mentions

Bindings may have one more entry, the oldest one, for a variable that occurs neither in
the other entries nor in the terms that are looked at.  Walks and resolution come to the
same under them, and unification adds the same entries.  So a variable that was made for a
single step of a search can be forgotten after it.
-/

namespace HornLogic

def Term.Lacks (name : String) (term : Term) : Prop :=
  name ∉ term.occurrences

theorem Term.lacks_var {name other : String} : (Term.var other).Lacks name ↔ other ≠ name := by
  simp [Lacks, eq_comm]

theorem Term.Lacks.ne_of_mem {name other : String} {term : Term} (lacks : term.Lacks name)
    (occurs : other ∈ term.occurrences) : other ≠ name := by
  rintro rfl
  exact lacks occurs

theorem Term.Lacks.arg {name functor : String} {args : List Term}
    (lacks : (Term.app functor args).Lacks name) {arg : Term} (member : arg ∈ args) :
    arg.Lacks name :=
  fun occurs => lacks (Term.occurrences_arg_subset member occurs)

namespace Bindings

/-- `wider` has one more entry, the oldest one, whose variable is mentioned nowhere. -/
structure AddsUnused (occursCheck : Bool) (name : String) (value : Term)
    (bindings wider : Bindings) : Prop where
  entries : wider.entries = bindings.entries ++ [(name, value)]
  valueLacks : value.Lacks name
  unused : bindings.All (Term.Lacks name)
  chains : bindings.ChainsEnd
  acyclic : occursCheck = true → bindings.Acyclic

namespace AddsUnused

variable {occursCheck : Bool} {name : String} {value : Term} {bindings wider : Bindings}

theorem get?_eq (adds : AddsUnused occursCheck name value bindings wider) {other : String}
    (differs : other ≠ name) : wider.get? other = bindings.get? other := by
  apply Option.ext
  intro term
  rw [get?_eq_some_iff, get?_eq_some_iff, adds.entries, List.mem_append]
  simp [differs]

theorem size_eq (adds : AddsUnused occursCheck name value bindings wider) :
    wider.size = bindings.size + 1 := by
  rw [size, adds.entries, List.length_append, List.length_singleton, size]

theorem follow_eq (adds : AddsUnused occursCheck name value bindings wider) (steps : Nat)
    {term : Term} (lacks : term.Lacks name) :
    wider.follow steps term = bindings.follow steps term := by
  induction steps generalizing term with
  | zero => rfl
  | succ steps induction =>
      cases term with
      | atom other => rfl
      | app functor args => rfl
      | var other =>
          simp only [follow, adds.get?_eq (Term.lacks_var.mp lacks)]
          cases bound : bindings.get? other with
          | none => rfl
          | some inner => exact induction (adds.unused other inner bound).2

theorem walk_eq (adds : AddsUnused occursCheck name value bindings wider) {term : Term}
    (lacks : term.Lacks name) : wider.walk term = bindings.walk term := by
  obtain ⟨length, fits, chain, ends⟩ := adds.chains.exists_chain_walk term
  calc
    wider.walk term = bindings.follow (bindings.size + 1 + 1) term := by
      rw [walk, adds.size_eq, adds.follow_eq _ lacks]
    _ = bindings.walk term := chain.follow_eq ends (by omega)

theorem lacks_walk (adds : AddsUnused occursCheck name value bindings wider) {term : Term}
    (lacks : term.Lacks name) : (bindings.walk term).Lacks name :=
  adds.unused.walk lacks

theorem resolveWithin_eq (adds : AddsUnused occursCheck name value bindings wider)
    (room : Nat) (expanding : List String) {other : String} (differs : other ≠ name) :
    wider.resolveWithin room expanding other = bindings.resolveWithin room expanding other := by
  induction room generalizing expanding other with
  | zero => rfl
  | succ room induction =>
      simp only [resolveWithin, adds.get?_eq differs]
      cases bound : bindings.get? other with
      | none => rfl
      | some inner =>
          have innerLacks := (adds.unused other inner bound).2
          have same : inner.subst (wider.resolveWithin room (other :: expanding)) =
              inner.subst (bindings.resolveWithin room (other :: expanding)) :=
            Term.subst_congr fun last occurs => induction _ (innerLacks.ne_of_mem occurs)
          simp only [same]

/-- The additional entry gives resolution more room, which it does not need. -/
theorem substitute_eq (adds : AddsUnused occursCheck name value bindings wider) {term : Term}
    (lacks : term.Lacks name) : term.substitute wider = term.substitute bindings := by
  have enough : (bindings.expandable []).card ≤ bindings.size + 1 :=
    bindings.card_expandable_nil_le.trans (Nat.le_succ _)
  calc
    term.substitute wider = term.subst (bindings.resolveWithin (bindings.size + 1) []) := by
      rw [Term.substitute]
      apply Term.subst_congr
      intro other occurs
      rw [resolve, adds.size_eq]
      exact adds.resolveWithin_eq _ _ (lacks.ne_of_mem occurs)
    _ = bindings.expand [] term := (bindings.expand_eq_subst enough term).symm
    _ = term.substitute bindings := bindings.expand_nil term

/-- The additional entry closes no cycle. -/
theorem acyclic_wider (adds : AddsUnused occursCheck name value bindings wider)
    (acyclic : bindings.Acyclic) : wider.Acyclic := by
  have mentions : ∀ {first second}, wider.Mentions first second →
      second ≠ name ∧ (first ≠ name → bindings.Mentions first second) := by
    intro first second ⟨inner, bound, occurs⟩
    by_cases same : first = name
    · have stored : (name, value) ∈ wider.entries := by simp [adds.entries]
      rw [same, get?_eq_some_iff.mpr stored] at bound
      cases bound
      exact ⟨adds.valueLacks.ne_of_mem occurs, fun differs => absurd same differs⟩
    · rw [adds.get?_eq same] at bound
      have innerLacks := (adds.unused first inner bound).2
      exact ⟨innerLacks.ne_of_mem occurs, fun _ => ⟨inner, bound, occurs⟩⟩
  have paths : ∀ {first last}, Relation.TransGen wider.Mentions first last →
      last ≠ name ∧ (first ≠ name → Relation.TransGen bindings.Mentions first last) := by
    intro first last path
    induction path with
    | single mention =>
        obtain ⟨target, old⟩ := mentions mention
        exact ⟨target, fun differs => .single (old differs)⟩
    | tail _ mention induction =>
        obtain ⟨middle, before⟩ := induction
        obtain ⟨target, old⟩ := mentions mention
        exact ⟨target, fun differs => .tail (before differs) (old middle)⟩
  intro first cycle
  obtain ⟨differs, old⟩ := paths cycle
  exact acyclic first (old differs)

end AddsUnused

end Bindings

/-- Both attempts come to the same, apart from an additional oldest entry. -/
inductive Attempt.WithOldest (entry : String × Term) : Attempt → Attempt → Prop where
  | unified {bindings wider : Bindings} (entries : wider.entries = bindings.entries ++ [entry]) :
      WithOldest entry (.unified bindings) (.unified wider)
  | clash : WithOldest entry .clash .clash
  | unfinished : WithOldest entry .unfinished .unfinished

namespace Bindings.AddsUnused

variable {occursCheck : Bool} {name : String} {value : Term} {bindings wider : Bindings}

theorem bindChecked_withOldest (adds : AddsUnused occursCheck name value bindings wider)
    {other : String} (unbound : bindings.get? other = none) (differs : other ≠ name)
    {term : Term} (lacks : term.Lacks name) :
    Attempt.WithOldest (name, value) (bindings.bindChecked occursCheck other term)
      (wider.bindChecked occursCheck other term) := by
  have widerUnbound : wider.get? other = none := by rw [adds.get?_eq differs, unbound]
  have bound : Attempt.WithOldest (name, value) (.unified (bindings.bind other term))
      (.unified (wider.bind other term)) := by
    apply Attempt.WithOldest.unified
    rw [entries_bind_of_unbound unbound, entries_bind_of_unbound widerUnbound, adds.entries,
      List.cons_append]
  cases occursCheck with
  | false => exact bound
  | true =>
      have acyclic := adds.acyclic rfl
      rw [acyclic.bindChecked_eq, (adds.acyclic_wider acyclic).bindChecked_eq,
        adds.substitute_eq lacks]
      split
      · exact .clash
      · exact bound

section

variable {effort : Nat} {left right : Term}

/-- What unification adds does not mention the variable either. -/
theorem unified (adds : AddsUnused occursCheck name value bindings wider)
    (leftLacks : left.Lacks name) (rightLacks : right.Lacks name)
    {extended widerExtended : Bindings}
    (unifies : unify occursCheck effort left right bindings = .unified extended)
    (entries : widerExtended.entries = extended.entries ++ [(name, value)]) :
    AddsUnused occursCheck name value extended widerExtended where
  entries := entries
  valueLacks := adds.valueLacks
  unused := unify_keeps_all (fun _ _ lacks _ member => lacks.arg member) adds.unused leftLacks
    rightLacks unifies
  chains := (unify_extends adds.chains unifies).2
  acyclic checked := by
    subst checked
    exact (unified_solutions (adds.acyclic rfl) unifies).1

theorem unifyPairs_withOldest
    (pair : ∀ left right {bindings wider : Bindings},
      AddsUnused occursCheck name value bindings wider → left.Lacks name → right.Lacks name →
        Attempt.WithOldest (name, value) (unify occursCheck effort left right bindings)
          (unify occursCheck effort left right wider))
    {lefts rights : List Term} (leftsLack : ∀ left ∈ lefts, left.Lacks name)
    (rightsLack : ∀ right ∈ rights, right.Lacks name)
    (adds : AddsUnused occursCheck name value bindings wider) :
    Attempt.WithOldest (name, value)
      (unifyPairs (unify occursCheck effort) lefts rights bindings)
      (unifyPairs (unify occursCheck effort) lefts rights wider) := by
  induction lefts generalizing rights bindings wider with
  | nil => exact .unified adds.entries
  | cons left lefts induction =>
      cases rights with
      | nil => exact .unified adds.entries
      | cons right rights =>
          obtain ⟨leftLacks, leftsLack⟩ := List.forall_mem_cons.mp leftsLack
          obtain ⟨rightLacks, rightsLack⟩ := List.forall_mem_cons.mp rightsLack
          have first := pair left right adds leftLacks rightLacks
          generalize narrow : unify occursCheck effort left right bindings = answer at first
          generalize wide : unify occursCheck effort left right wider = widerAnswer at first
          cases first with
          | clash =>
              simp only [unifyPairs, narrow, wide]
              exact .clash
          | unfinished =>
              simp only [unifyPairs, narrow, wide]
              exact .unfinished
          | unified entries =>
              rw [unifyPairs_cons narrow, unifyPairs_cons wide]
              exact induction leftsLack rightsLack
                (adds.unified leftLacks rightLacks narrow entries)

theorem unify_withOldest (effort : Nat) (left right : Term)
    (adds : AddsUnused occursCheck name value bindings wider)
    (leftLacks : left.Lacks name) (rightLacks : right.Lacks name) :
    Attempt.WithOldest (name, value) (unify occursCheck effort left right bindings)
      (unify occursCheck effort left right wider) := by
  induction effort generalizing left right bindings wider with
  | zero => exact .unfinished
  | succ effort induction =>
      have leftEndLacks := adds.lacks_walk leftLacks
      have rightEndLacks := adds.lacks_walk rightLacks
      have bound : ∀ {other : String} {term : Term}, bindings.get? other = none →
          (Term.var other).Lacks name → term.Lacks name →
          Attempt.WithOldest (name, value) (bindings.bindChecked occursCheck other term)
            (wider.bindChecked occursCheck other term) := by
        intro other term unbound otherLacks lacks
        exact adds.bindChecked_withOldest unbound (Term.lacks_var.mp otherLacks) lacks
      by_cases equal : bindings.walk left = bindings.walk right
      · simp only [unify, adds.walk_eq leftLacks, adds.walk_eq rightLacks, equal, if_true]
        exact .unified adds.entries
      · simp only [unify, adds.walk_eq leftLacks, adds.walk_eq rightLacks, equal, if_false]
        cases leftEnd : bindings.walk left with
        | var other =>
            rw [leftEnd] at leftEndLacks
            exact bound (adds.chains.get?_eq_none_of_walk leftEnd) leftEndLacks rightEndLacks
        | atom leftName =>
            cases rightEnd : bindings.walk right with
            | var other =>
                rw [leftEnd] at leftEndLacks
                rw [rightEnd] at rightEndLacks
                exact bound (adds.chains.get?_eq_none_of_walk rightEnd) rightEndLacks
                  leftEndLacks
            | atom rightName => exact .clash
            | app rightName rights => exact .clash
        | app leftName lefts =>
            rw [leftEnd] at leftEndLacks
            cases rightEnd : bindings.walk right with
            | var other =>
                rw [rightEnd] at rightEndLacks
                exact bound (adds.chains.get?_eq_none_of_walk rightEnd) rightEndLacks
                  leftEndLacks
            | atom rightName => exact .clash
            | app rightName rights =>
                rw [rightEnd] at rightEndLacks
                by_cases agree : leftName = rightName ∧ lefts.length = rights.length
                · simp only [agree, and_self, if_true]
                  exact unifyPairs_withOldest
                    (fun left right _ _ adds leftLacks rightLacks =>
                      induction left right adds leftLacks rightLacks)
                    (fun _ member => leftEndLacks.arg member)
                    (fun _ member => rightEndLacks.arg member) adds
                · simp only [agree, if_false]
                  exact .clash

end

end Bindings.AddsUnused

end HornLogic
