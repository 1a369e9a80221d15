import HornLogic.Proofs.FirstOccurrences
import HornLogic.Proofs.Term.Substitution
import Mathlib.Algebra.Group.End
import Mathlib.Data.Fintype.Sum

/-!
# Injective renamings

A renaming that gives different names to different variables changes nothing
but the names: two terms are equal exactly when their renamed forms are, and
the variables of a renamed term are the renamed variables, in the same order.
A renaming of finitely many variables extends to a permutation of all names that
leaves the names alone which it has nothing to do with.  Terms that are instances
of each other differ by such a renaming only.
-/

namespace HornLogic

namespace Term

section Equations

variable (change : String → String)

@[simp] theorem rename_atom (name : String) : (atom name).rename change = atom name :=
  rfl

@[simp] theorem rename_var (name : String) :
    (var name).rename change = var (change name) :=
  rfl

@[simp] theorem rename_app (functor : String) (args : List Term) :
    (app functor args).rename change = app functor (args.map (rename change)) :=
  subst_app _ _ _

@[simp] theorem isVar_rename (term : Term) : (term.rename change).isVar = term.isVar := by
  cases term <;> rfl

theorem occurrences_rename (term : Term) :
    (term.rename change).occurrences = term.occurrences.map change := by
  induction term with
  | atom name => rfl
  | var name => rfl
  | app functor args induction =>
      rw [rename_app, occurrences_app, occurrences_app, List.map_flatMap,
        List.flatMap_map]
      exact List.flatMap_congr induction

end Equations

theorem rename_congr {first second : String → String} {term : Term}
    (agree : ∀ name ∈ term.occurrences, first name = second name) :
    term.rename first = term.rename second :=
  subst_congr fun name member => by rw [agree name member]

theorem rename_rename (first second : String → String) (term : Term) :
    (term.rename first).rename second = term.rename (second ∘ first) :=
  subst_rename _ _ _

/-- A renaming that keeps the variables of a term keeps the term. -/
theorem rename_eq_self {change : String → String} {term : Term}
    (kept : ∀ name ∈ term.occurrences, change name = name) : term.rename change = term := by
  calc
    term.rename change = term.subst var :=
      subst_congr fun name member => by rw [kept name member]
    _ = term := subst_self term

/-- Renaming the instance of a term is instantiating the renamed term, if the
values of the variables are renamed as well. -/
theorem rename_subst {change : String → String} {assign renamed : String → Term}
    {term : Term}
    (values : ∀ name ∈ term.occurrences, renamed (change name) = (assign name).rename change) :
    (term.rename change).subst renamed = (term.subst assign).rename change := by
  rw [subst_rename, rename, subst_subst]
  exact subst_congr values

section Injective

variable {change : String → String} (injective : Function.Injective change)
include injective

theorem rename_inj {left right : Term} :
    left.rename change = right.rename change ↔ left = right := by
  have restored : ∀ term : Term,
      (term.rename change).rename (Function.invFun change) = term := by
    intro term
    rw [rename_rename]
    exact rename_eq_self fun name _ => Function.leftInverse_invFun injective name
  constructor
  · intro same
    rw [← restored left, same, restored right]
  · intro same
    rw [same]

theorem rename_eq_var_iff {term : Term} {name : String} :
    term.rename change = var (change name) ↔ term = var name :=
  @rename_inj change injective term (var name)

theorem variableNames_rename (term : Term) :
    (term.rename change).variableNames = term.variableNames.map change := by
  rw [variableNames, occurrences_rename, eraseDups_map injective, variableNames]

end Injective

end Term

/-- An injective renaming of finitely many things extends to a permutation of all
things, which leaves alone those that are neither renamed nor come up as new ones. -/
theorem exists_permutation_extending {α : Type} [DecidableEq α] {change : α → α}
    {names : List α} (injective : Set.InjOn change {name | name ∈ names}) :
    ∃ permutation : Equiv.Perm α,
      (∀ name ∈ names, permutation name = change name) ∧
      ∀ name, name ∉ names → name ∉ names.map change → permutation name = name := by
  let moved : Finset α := names.toFinset ∪ (names.map change).toFinset
  let sources : Finset moved := Finset.univ.filter fun name => name.val ∈ names
  have inSources : ∀ {name : moved}, name ∈ sources ↔ name.val ∈ names := by
    simp [sources]
  obtain ⟨within, agrees⟩ : ∃ within : moved ≃ moved,
      ∀ name ∈ sources, (within name : α) = change name := by
    apply Finset.exists_equiv_extend_of_card_eq (Fintype.card_coe moved)
    · intro name member
      obtain ⟨source, inside, rfl⟩ := Finset.mem_image.mp member
      have renamed := List.mem_map_of_mem (f := change) (inSources.mp inside)
      exact Finset.mem_union_right _ (List.mem_toFinset.mpr renamed)
    · intro first firstMember second secondMember same
      exact Subtype.ext (injective (inSources.mp firstMember) (inSources.mp secondMember) same)
  refine ⟨Equiv.Perm.ofSubtype within, ?_, ?_⟩
  · intro name member
    have inside : name ∈ moved := Finset.mem_union_left _ (List.mem_toFinset.mpr member)
    rw [Equiv.Perm.ofSubtype_apply_of_mem within inside]
    exact agrees ⟨name, inside⟩ (inSources.mpr member)
  · intro name source target
    apply Equiv.Perm.ofSubtype_apply_of_not_mem
    simpa [moved] using ⟨source, by simpa using target⟩

/-- If some terms are instances of others and these are instances of them in turn, they are
the same up to a renaming. -/
theorem Term.exists_permutation_of_instances {names : List String}
    {first second : String → Term} {assign back : String → Term}
    (instances : ∀ name ∈ names, second name = (first name).subst assign)
    (instancesBack : ∀ name ∈ names, first name = (second name).subst back) :
    ∃ permutation : Equiv.Perm String,
      ∀ name ∈ names, second name = (first name).rename permutation := by
  let occurring := names.flatMap fun name => (first name).occurrences
  have restored : ∀ name ∈ occurring, (assign name).subst back = var name := by
    intro name member
    obtain ⟨asked, askedMember, occurs⟩ := List.mem_flatMap.mp member
    have whole : (first asked).subst (fun name => (assign name).subst back) =
        (first asked).subst var := by
      rw [subst_self, ← subst_subst, ← instances asked askedMember,
        ← instancesBack asked askedMember]
    exact subst_eq_subst_iff.mp whole name occurs
  -- What becomes a variable again was replaced by a variable.
  have renamed : ∀ name, ∃ other, name ∈ occurring →
      assign name = var other ∧ back other = var name := by
    intro name
    by_cases member : name ∈ occurring
    · have again := restored name member
      cases value : assign name with
      | var other => exact ⟨other, fun _ => ⟨rfl, by simpa [value] using again⟩⟩
      | atom constant => simp [value] at again
      | app functor args => simp [value] at again
    · exact ⟨name, fun occurs => absurd occurs member⟩
  choose change changes using renamed
  have injective : Set.InjOn change {name | name ∈ occurring} := by
    intro name member other otherMember same
    have back := (changes name member).2
    rw [same, (changes other otherMember).2] at back
    exact (Term.var.inj back).symm
  obtain ⟨permutation, extending, _⟩ := exists_permutation_extending injective
  refine ⟨permutation, ?_⟩
  intro asked askedMember
  rw [instances asked askedMember]
  apply subst_congr
  intro name occurs
  have member : name ∈ occurring := List.mem_flatMap.mpr ⟨asked, askedMember, occurs⟩
  rw [(changes name member).1, extending name member]

end HornLogic
