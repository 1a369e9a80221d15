import Mathlib.Data.List.Basic
import Mathlib.Data.List.Induction

/-!
# First occurrences

Without the later repetitions of its items, a list has every item once, in the order in
which the items first occur in it.  An injective function changes nothing about that
order.
-/

namespace HornLogic

variable {α β : Type} [DecidableEq α] [DecidableEq β]

theorem eraseDups_concat (items : List α) (item : α) :
    (items ++ [item]).eraseDups =
      if item ∈ items then items.eraseDups else items.eraseDups ++ [item] := by
  rw [List.eraseDups_append]
  by_cases known : item ∈ items
  · simp [List.removeAll, known]
  · simp [List.removeAll, known, List.eraseDups_cons]

theorem eraseDups_map {change : α → β} (injective : Function.Injective change)
    (items : List α) : (items.map change).eraseDups = items.eraseDups.map change := by
  induction items using List.reverseRecOn with
  | nil => rfl
  | append_singleton items item induction =>
      rw [List.map_append, List.map_singleton, eraseDups_concat, eraseDups_concat, induction]
      by_cases known : item ∈ items
      · simp [known, List.mem_map_of_injective injective]
      · simp [known, List.mem_map_of_injective injective]

/-- What is left stands in the order of first occurrence. -/
theorem pairwise_idxOf_eraseDups (items : List α) :
    items.eraseDups.Pairwise (items.idxOf · < items.idxOf ·) := by
  induction items using List.reverseRecOn with
  | nil => exact .nil
  | append_singleton items item induction =>
      have before : ∀ other ∈ items.eraseDups,
          (items ++ [item]).idxOf other = items.idxOf other :=
        fun other member => List.idxOf_append_of_mem (List.mem_eraseDups.mp member)
      have first : items.eraseDups.Pairwise
          ((items ++ [item]).idxOf · < (items ++ [item]).idxOf ·) := by
        apply induction.imp_of_mem
        intro upper lower upperMember lowerMember less
        rwa [before upper upperMember, before lower lowerMember]
      rw [eraseDups_concat]
      by_cases known : item ∈ items
      · rwa [if_pos known]
      · rw [if_neg known, List.pairwise_append]
        refine ⟨first, List.pairwise_singleton _ _, ?_⟩
        intro other member last lastMember
        cases List.mem_singleton.mp lastMember
        rw [before other member, List.idxOf_append_of_notMem known]
        exact Nat.lt_add_right _ (List.idxOf_lt_length_of_mem (List.mem_eraseDups.mp member))

theorem nodup_eraseDups (items : List α) : items.eraseDups.Nodup := by
  apply (pairwise_idxOf_eraseDups items).imp
  intro first second less same
  exact Nat.ne_of_lt less (congrArg items.idxOf same)

end HornLogic
