import HornLogic.Proofs.Search.Freshness
import HornLogic.Proofs.Search.RenamedSteps
import HornLogic.Proofs.Search.Reporting
import Mathlib.Algebra.Group.Embedding
import Mathlib.Data.Nat.Nth
import Mathlib.Order.Interval.Set.Infinite

/-!
# Renumbered names

A clause that is tried with another number gets other names, and apart from the number
they are the same.  An injective change of the numbers is therefore an injective
renaming, which leaves alone the names that were written in a clause or a query.  So a
search gives the same answers, up to the numbers, whatever number it begins with.
-/

namespace HornLogic

open Classical in
/-- Puts another number into a fresh name that was made of a written name. -/
noncomputable def renumberedBy (numbering : Nat → Nat) (name : String) : String :=
  if made : ∃ parts : Nat × String, WrittenName parts.2 ∧ freshName parts.1 parts.2 = name then
    freshName (numbering made.choose.1) made.choose.2
  else name

section

variable (numbering : Nat ↪ Nat)

theorem renumberedBy_freshName {name : String} (written : WrittenName name) (fresh : Nat) :
    renumberedBy numbering (freshName fresh name) = freshName (numbering fresh) name := by
  have made : ∃ parts : Nat × String, WrittenName parts.2 ∧
      freshName parts.1 parts.2 = freshName fresh name :=
    ⟨(fresh, name), written, rfl⟩
  obtain ⟨names, numbers⟩ := freshName_inj.mp made.choose_spec.2
  rw [renumberedBy, dif_pos made, names, numbers]

theorem renumberedBy_of_other {name : String}
    (other : ∀ original, WrittenName original → ∀ fresh, freshName fresh original ≠ name) :
    renumberedBy numbering name = name := by
  apply dif_neg
  rintro ⟨⟨fresh, original⟩, written, made⟩
  exact other original written fresh made

theorem renumberedBy_cases (name : String) :
    (∃ fresh original, WrittenName original ∧ freshName fresh original = name ∧
      renumberedBy numbering name = freshName (numbering fresh) original) ∨
    (∀ original, WrittenName original → ∀ fresh, freshName fresh original ≠ name) ∧
      renumberedBy numbering name = name := by
  by_cases made : ∃ fresh original, WrittenName original ∧ freshName fresh original = name
  · obtain ⟨fresh, original, written, rfl⟩ := made
    exact .inl ⟨fresh, original, written, rfl, renumberedBy_freshName numbering written fresh⟩
  · have other : ∀ original, WrittenName original →
        ∀ fresh, freshName fresh original ≠ name := by
      intro original written fresh same
      exact made ⟨fresh, original, written, same⟩
    exact .inr ⟨other, renumberedBy_of_other numbering other⟩

theorem renumberedBy_injective : Function.Injective (renumberedBy numbering) := by
  intro first second same
  rcases renumberedBy_cases numbering first with
    ⟨firstFresh, firstName, firstWritten, rfl, firstValue⟩ | ⟨firstOther, firstValue⟩
  · rcases renumberedBy_cases numbering second with
      ⟨secondFresh, secondName, _, rfl, secondValue⟩ | ⟨secondOther, secondValue⟩
    · rw [firstValue, secondValue] at same
      obtain ⟨rfl, numbers⟩ := freshName_inj.mp same
      rw [numbering.injective numbers]
    · rw [firstValue, secondValue] at same
      exact absurd same (secondOther firstName firstWritten _)
  · rcases renumberedBy_cases numbering second with
      ⟨secondFresh, secondName, secondWritten, rfl, secondValue⟩ | ⟨_, secondValue⟩
    · rw [firstValue, secondValue] at same
      exact absurd same.symm (firstOther secondName secondWritten _)
    · rwa [firstValue, secondValue] at same

/-- Puts other numbers into the fresh names that were made of written names, and
leaves all other names alone. -/
noncomputable def renumberBy : String ↪ String :=
  ⟨renumberedBy numbering, renumberedBy_injective numbering⟩

theorem renumberBy_freshName {name : String} (written : WrittenName name) (fresh : Nat) :
    renumberBy numbering (freshName fresh name) = freshName (numbering fresh) name :=
  renumberedBy_freshName numbering written fresh

theorem renumberBy_of_written {name : String} (written : WrittenName name) :
    renumberBy numbering name = name := by
  apply renumberedBy_of_other numbering
  intro original originalWritten fresh made
  exact originalWritten.not_freshName fresh (made ▸ written)

end

theorem Clause.Parsed.freshen_renumberBy {clause : Clause} (parsed : clause.Parsed)
    (numbering : Nat ↪ Nat) (fresh : Nat) :
    (clause.freshen fresh).rename (renumberBy numbering) =
      clause.freshen (numbering fresh) := by
  have renamed : ∀ term ∈ clause.head :: clause.body,
      (term.rename (freshName fresh)).rename (renumberBy numbering) =
        term.rename (freshName (numbering fresh)) := by
    intro term member
    rw [Term.rename_rename]
    apply Term.rename_congr
    intro name occurs
    exact renumberBy_freshName numbering (parsed.names term member name occurs) fresh
  obtain ⟨head, body⟩ := List.forall_mem_cons.mp renamed
  simp only [Clause.freshen, Clause.rename, Clause.mk.injEq, List.map_map]
  exact ⟨head, List.map_congr_left body⟩

theorem Term.Parsed.rename_renumberBy {term : Term} (parsed : term.Parsed)
    (numbering : Nat ↪ Nat) : term.rename (renumberBy numbering) = term :=
  Term.rename_eq_self fun name member =>
    renumberBy_of_written numbering (parsed.names name member)

theorem Search.reportedVariables_renumberBy {query : Term} (parsed : query.Parsed)
    (numbering : Nat ↪ Nat) :
    (reportedVariables query).map (renumberBy numbering) = reportedVariables query := by
  conv_rhs => rw [← List.map_id (reportedVariables query)]
  refine List.map_congr_left fun name member => ?_
  exact renumberBy_of_written numbering (parsed.names name (occurs_of_reported member))

theorem Search.solutionUnder_renumberBy {query : Term} (parsed : query.Parsed)
    (numbering : Nat ↪ Nat) (bindings : Bindings) :
    solutionUnder (reportedVariables query) (bindings.rename (renumberBy numbering)) =
      (solutionUnder (reportedVariables query) bindings).rename (renumberBy numbering) := by
  rw [← solutionUnder_rename, reportedVariables_renumberBy parsed]

theorem Search.start_renumberBy {query : Term} (parsed : query.Parsed) {search : Search}
    (started : Search.start query = .ok search) (numbering : Nat ↪ Nat) :
    search.rename (renumberBy numbering) = search := by
  obtain rfl := eq_of_start started
  simp [Search.rename, Phase.rename, Goal.rename, reportedVariables_renumberBy parsed,
    parsed.rename_renumberBy]

theorem Prover.stocks_of_start (prover : Prover) {query : Term} {search : Search}
    (started : Search.start query = .ok search) : prover.Stocks search := by
  obtain rfl := eq_of_start started
  exact stocks_of_no_choice

/-- Two answers are the same if the fresh names in them are counted from the numbers with
which the searches began. -/
def SameFrom (first second : Nat) (answer other : Option Item) : Prop :=
  answer.map (Item.rename (renumberBy (addRightEmbedding second))) =
    other.map (Item.rename (renumberBy (addRightEmbedding first)))

theorem SameFrom.symm {first second : Nat} {answer other : Option Item}
    (same : SameFrom first second answer other) : SameFrom second first other answer :=
  Eq.symm same

namespace Prover

variable {prover : Prover} (counts : prover.Counts) {query : Term} {search : Search}
  (parsed : ∀ signature, ∀ clause ∈ prover.candidates signature, clause.Parsed)
  (written : query.Parsed) (started : Search.start query = .ok search)
include counts parsed written started

theorem gives_add_iff (fresh shift calls : Nat) {answer : Option Item} {last : Nat} :
    prover.Gives (fresh + shift) search calls answer last ↔
      ∃ original next, prover.Gives fresh search calls original next ∧
        original.map (Item.rename (renumberBy (addRightEmbedding shift))) = answer ∧
        next + shift = last := by
  have stocks := prover.stocks_of_start started
  have renumbers : ∀ number, prover.Renumbers prover.nextNumber
      (renumberBy (addRightEmbedding shift)) (· + shift) number := by
    intro number
    constructor
    · simp only [counts number, counts (number + shift)]
      exact Nat.add_right_comm number 1 shift
    · intro signature clause stored
      exact (parsed signature clause stored).freshen_renumberBy _ number
  have renamed : ∀ effort, prover.nthNext effort calls (fresh + shift) search =
      (prover.nthNext effort calls fresh search).rename
        (renumberBy (addRightEmbedding shift)) (· + shift) := by
    intro effort
    have shifted := nthNext_rename prover.nextNumber (renumberBy (addRightEmbedding shift))
      (· + shift) effort calls fresh stocks fun trials _ => renumbers _
    rwa [Search.start_renumberBy written started] at shifted
  simp only [Gives, renamed, Pull.answer?_rename, Option.map_eq_some_iff]
  constructor
  · rintro ⟨effort, after, ⟨original, next, between⟩, answered, same⟩
    cases same
    exact ⟨original, next, ⟨effort, between, answered⟩, rfl, rfl⟩
  · rintro ⟨original, next, ⟨effort, between, answered⟩, rfl, rfl⟩
    exact ⟨effort, _, _, answered, rfl⟩

/-- Whatever number a search begins with, it gives the same answers and takes as many
numbers for them. -/
theorem Gives.from_other {first calls next : Nat} {answer : Option Item}
    (gives : prover.Gives first search calls answer next) (second : Nat) :
    ∃ other last, prover.Gives second search calls other last ∧
      SameFrom first second answer other ∧ next + second = last + first := by
  have later : prover.Gives (first + second) search calls
      (answer.map (Item.rename (renumberBy (addRightEmbedding second)))) (next + second) :=
    (gives_add_iff counts parsed written started first second calls).mpr
      ⟨answer, next, gives, rfl, rfl⟩
  rw [Nat.add_comm first second] at later
  obtain ⟨other, last, otherGives, same, numbers⟩ :=
    (gives_add_iff counts parsed written started second first calls).mp later
  exact ⟨other, last, otherGives, same.symm, numbers.symm⟩

end Prover

/-- Some numbers, in their order, are the images of consecutive ones. -/
theorem exists_numbering (kept : Nat → Prop) [DecidablePred kept] :
    ∃ numbering : Nat ↪ Nat, StrictMono numbering ∧
      ∀ number, kept number → numbering (Nat.count kept number) = number := by
  by_cases endless : (Set.ofPred kept).Infinite
  · have increases := Nat.nth_strictMono endless
    exact ⟨⟨Nat.nth kept, increases.injective⟩, increases, fun number => Nat.nth_count⟩
  · -- Beyond the last of these numbers any number will do.
    obtain ⟨last, bounds⟩ := (Set.not_infinite.mp endless).bddAbove
    have endless : (Set.ofPred fun number => kept number ∨ last < number).Infinite :=
      (Set.Ioi_infinite last).mono fun number beyond => .inr beyond
    have increases := Nat.nth_strictMono endless
    refine ⟨⟨Nat.nth fun number => kept number ∨ last < number, increases.injective⟩,
      increases, fun number keeps => ?_⟩
    have same : Nat.count kept number =
        Nat.count (fun number => kept number ∨ last < number) number := by
      refine List.countP_congr fun earlier before => ?_
      have within : ¬ last < earlier :=
        Nat.not_lt.mpr ((List.mem_range.mp before).le.trans (bounds keeps))
      simp [within]
    rw [same]
    exact Nat.nth_count (.inl keeps)

end HornLogic
