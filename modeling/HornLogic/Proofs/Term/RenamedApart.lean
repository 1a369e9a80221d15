import HornLogic.Proofs.Term.FreshNames
import HornLogic.Proofs.Term.Renaming

/-!
# Terms and clauses that are renamed apart

What is renamed with two numbers shares no variable, whatever the names were before:
a name that looks like a fresh one gets another mark, and the last mark counts.  For
the same reason nothing is lost by renaming.  Both hold of everything that consists of
variables with names and of parts that renaming keeps.
-/

namespace HornLogic

theorem freshName_injective (suffix : Nat) : Function.Injective (freshName suffix) :=
  fun _ _ same => (freshName_inj.mp same).1

/-- Fresh names of two lists are different exactly if their numbers are, or the names
that they are made of. -/
theorem disjoint_map_freshName_iff {first second : Nat} {names others : List String} :
    (names.map (freshName first)).Disjoint (others.map (freshName second)) ↔
      first ≠ second ∨ names.Disjoint others := by
  simp only [List.disjoint_left, List.mem_map]
  constructor
  · intro apart
    by_cases same : first = second
    · subst same
      exact .inr fun name member otherMember =>
        apart ⟨name, member, rfl⟩ ⟨name, otherMember, rfl⟩
    · exact .inl same
  · rintro apart _ ⟨name, member, rfl⟩ ⟨other, otherMember, same⟩
    obtain ⟨rfl, rfl⟩ := freshName_inj.mp same
    exact apart.elim (fun differ => differ rfl) fun disjoint => disjoint member otherMember

/-- Renaming with a number makes all names fresh and changes nothing else. -/
structure Freshens {α : Type} (names : α → List String) (freshen : Nat → α → α) : Prop where
  names_eq : ∀ suffix item, names (freshen suffix item) = (names item).map (freshName suffix)
  injective : ∀ suffix, Function.Injective (freshen suffix)
  unnamed : ∀ suffix item, names item = [] → freshen suffix item = item

namespace Freshens

variable {α β : Type} {names : α → List String} {freshen : Nat → α → α}
  {otherNames : β → List String} {otherFreshen : Nat → β → β}

theorem disjoint_iff (freshens : Freshens names freshen)
    (otherFreshens : Freshens otherNames otherFreshen) {first second : Nat} {left : α}
    {right : β} :
    (names (freshen first left)).Disjoint (otherNames (otherFreshen second right)) ↔
      first ≠ second ∨ (names left).Disjoint (otherNames right) := by
  rw [freshens.names_eq, otherFreshens.names_eq, disjoint_map_freshName_iff]

theorem names_eq_nil_iff (freshens : Freshens names freshen) {suffix : Nat} {item : α} :
    names (freshen suffix item) = [] ↔ names item = [] := by
  rw [freshens.names_eq, List.map_eq_nil_iff]

theorem eq_iff (freshens : Freshens names freshen) {first second : Nat} {left right : α} :
    freshen first left = freshen second right ↔
      left = right ∧ (first = second ∨ names left = []) := by
  constructor
  · intro same
    by_cases sameNumber : first = second
    · subst sameNumber
      exact ⟨freshens.injective first same, .inl rfl⟩
    · have apart : (names (freshen first left)).Disjoint (names (freshen second right)) :=
        (freshens.disjoint_iff freshens).mpr (.inl sameNumber)
      have noneAfter : names (freshen first left) = [] := by
        rw [← same] at apart
        exact List.eq_nil_iff_forall_not_mem.mpr fun name member => apart member member
      have noneLeft : names left = [] := freshens.names_eq_nil_iff.mp noneAfter
      have noneRight : names right = [] := freshens.names_eq_nil_iff.mp (same ▸ noneAfter)
      refine ⟨?_, .inr noneLeft⟩
      calc
        left = freshen first left := (freshens.unnamed first left noneLeft).symm
        _ = freshen second right := same
        _ = right := freshens.unnamed second right noneRight
  · rintro ⟨rfl, rfl | none⟩
    · rfl
    · rw [freshens.unnamed first left none, freshens.unnamed second left none]

end Freshens

namespace Term

theorem freshens : Freshens occurrences freshen where
  names_eq suffix term := term.occurrences_rename (freshName suffix)
  injective suffix _ _ same := (rename_inj (freshName_injective suffix)).mp same
  unnamed suffix term none := rename_eq_self fun name member => by simp [none] at member

end Term

namespace Clause

def names (clause : Clause) : List String :=
  (clause.head :: clause.body).flatMap Term.occurrences

theorem freshens : Freshens names freshen where
  names_eq suffix clause := by
    simp only [names, freshen, rename, ← List.map_cons, List.flatMap_map, List.map_flatMap,
      Term.occurrences_rename]
  injective suffix left right same := by
    have renamedInjective : Function.Injective (Term.rename (freshName suffix)) :=
      fun _ _ => (Term.rename_inj (freshName_injective suffix)).mp
    obtain ⟨sameHead, sameBody⟩ := Clause.mk.inj same
    cases left
    cases right
    exact congrArg₂ Clause.mk (renamedInjective sameHead)
      (renamedInjective.list_map sameBody)
  unnamed suffix clause none := by
    have kept : ∀ term ∈ clause.head :: clause.body, term.rename (freshName suffix) = term :=
      fun term member => Term.freshens.unnamed suffix term
        (List.flatMap_eq_nil_iff.mp none term member)
    obtain ⟨keptHead, keptGoals⟩ := List.forall_mem_cons.mp kept
    have keptBody : clause.body.map (Term.rename (freshName suffix)) = clause.body := by
      calc
        clause.body.map (Term.rename (freshName suffix)) = clause.body.map id :=
          List.map_congr_left keptGoals
        _ = clause.body := List.map_id clause.body
    exact congrArg₂ Clause.mk keptHead keptBody

end Clause

/-- What is renamed with different numbers shares no variable, terms and clauses alike, and
with one number it shares the variables that it shared before.  Terms, or clauses, that are
the same after renaming were the same before; they have no variables if the numbers are
different. -/
theorem freshen_separates (first second : Nat) :
    (∀ left right : Term,
      ((left.freshen first).occurrences.Disjoint (right.freshen second).occurrences ↔
        first ≠ second ∨ left.occurrences.Disjoint right.occurrences) ∧
      (left.freshen first = right.freshen second ↔
        left = right ∧ (first = second ∨ left.occurrences = []))) ∧
    (∀ left right : Clause,
      ((left.freshen first).names.Disjoint (right.freshen second).names ↔
        first ≠ second ∨ left.names.Disjoint right.names) ∧
      (left.freshen first = right.freshen second ↔
        left = right ∧ (first = second ∨ left.names = []))) ∧
    ∀ (term : Term) (clause : Clause),
      (term.freshen first).occurrences.Disjoint (clause.freshen second).names ↔
        first ≠ second ∨ term.occurrences.Disjoint clause.names := by
  refine ⟨?_, ?_, ?_⟩
  · intro left right
    exact ⟨Term.freshens.disjoint_iff Term.freshens, Term.freshens.eq_iff⟩
  · intro left right
    exact ⟨Clause.freshens.disjoint_iff Clause.freshens, Clause.freshens.eq_iff⟩
  · intro term clause
    exact Term.freshens.disjoint_iff Clause.freshens

end HornLogic
