import HornLogic.Proofs.Bindings.Acyclicity
import HornLogic.Search.Basic

/-!
# The values of a solution

A solution gives to a reported variable its value under the bindings of the
branch, with all variables in it resolved, unless that is the variable itself.
It gives no value to any other variable.
-/

namespace HornLogic

namespace Bindings

theorem get?_ofList {pairs : List (String × Term)} {value : String → Term}
    (determined : ∀ pair ∈ pairs, pair.2 = value pair.1) (name : String) :
    (ofList pairs).get? name =
      if name ∈ pairs.map Prod.fst then some (value name) else none := by
  have folded : ∀ start : Bindings,
      (pairs.foldl (fun bindings pair => bindings.bind pair.1 pair.2) start).get? name =
        if name ∈ pairs.map Prod.fst then some (value name) else start.get? name := by
    induction pairs with
    | nil => simp
    | cons pair pairs induction =>
        intro start
        obtain ⟨first, others⟩ := List.forall_mem_cons.mp determined
        rw [List.foldl_cons, induction others, get?_bind, first]
        by_cases later : name ∈ pairs.map Prod.fst
        · simp [later]
        · by_cases same : name = pair.1
          · simp [same]
          · simp [later, same]
  exact folded empty

end Bindings

namespace Search

theorem occurs_of_reported {query : Term} {name : String}
    (member : name ∈ reportedVariables query) : name ∈ query.occurrences :=
  List.mem_eraseDups.mp (List.mem_filter.mp member).1

variable {reported : List String} {bindings : Bindings} {name : String}

theorem mem_reportedValues_iff {pair : String × Term} :
    pair ∈ reported.filterMap (reportedValue? bindings) ↔
      pair.1 ∈ reported ∧ pair.2 = (Term.var pair.1).substitute bindings ∧
        pair.2 ≠ .var pair.1 := by
  obtain ⟨name, value⟩ := pair
  simp only [List.mem_filterMap, reportedValue?]
  constructor
  · intro ⟨other, member, found⟩
    by_cases same : (Term.var other).substitute bindings = .var other
    · simp [same] at found
    · obtain ⟨rfl, rfl⟩ : other = name ∧ (Term.var other).substitute bindings = value := by
        simpa [same] using found
      exact ⟨member, rfl, same⟩
  · intro ⟨member, valueEq, differs⟩
    subst valueEq
    exact ⟨name, member, by simp [differs]⟩

/-- The reported variables that have a value, in the order in which they are reported. -/
theorem map_fst_reportedValues :
    (reported.filterMap (reportedValue? bindings)).map Prod.fst =
      reported.filter fun name => (Term.var name).substitute bindings ≠ .var name := by
  induction reported with
  | nil => rfl
  | cons name reported induction =>
      by_cases same : (Term.var name).substitute bindings = .var name
      · simpa [List.filterMap_cons, reportedValue?, same] using induction
      · simpa [List.filterMap_cons, reportedValue?, same] using induction

theorem toList_solutionUnder (distinct : reported.Nodup) :
    (solutionUnder reported bindings).bindings.toList =
      reported.filterMap (reportedValue? bindings) := by
  have names : ((reported.filterMap (reportedValue? bindings)).map Prod.fst).Nodup := by
    rw [map_fst_reportedValues]
    exact distinct.filter _
  rw [Bindings.toList, solutionUnder, Bindings.entries_ofList names, List.reverse_reverse]

theorem get?_solutionUnder :
    (solutionUnder reported bindings).get? name =
      if name ∈ reported ∧ (Term.var name).substitute bindings ≠ .var name then
        some ((Term.var name).substitute bindings)
      else none := by
  have determined : ∀ pair ∈ reported.filterMap (reportedValue? bindings),
      pair.2 = (Term.var pair.1).substitute bindings :=
    fun _ member => (mem_reportedValues_iff.mp member).2.1
  have names : name ∈ (reported.filterMap (reportedValue? bindings)).map Prod.fst ↔
      name ∈ reported ∧ (Term.var name).substitute bindings ≠ .var name := by
    rw [map_fst_reportedValues, List.mem_filter, decide_eq_true_iff]
  have found := @Bindings.get?_ofList _
    (fun name => (Term.var name).substitute bindings) determined name
  rw [if_congr names rfl rfl] at found
  exact found

end Search

end HornLogic
