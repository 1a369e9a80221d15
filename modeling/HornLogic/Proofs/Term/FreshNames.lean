import HornLogic.Term.Renaming

/-!
# Fresh names

The name and the number that a fresh name was made of can be read back from
it: the number is what follows the last mark, since a number has no mark in it.
So fresh names are the same only if they were made of the same name and the
same number.
-/

namespace HornLogic

theorem toList_freshName (suffix : Nat) (name : String) :
    (freshName suffix name).toList = name.toList ++ '#' :: Nat.toDigits 10 suffix := by
  simp [freshName]

theorem mark_mem_freshName (suffix : Nat) (name : String) :
    '#' ∈ (freshName suffix name).toList := by
  rw [toList_freshName]
  exact List.mem_append_right _ List.mem_cons_self

theorem mark_notMem_digits (number : Nat) : '#' ∉ Nat.toDigits 10 number := by
  intro member
  have digit := Nat.isDigit_of_mem_toDigits (by decide) (by decide) member
  cases digit

/-- The parts around the last occurrence of a mark are unique. -/
theorem append_cons_inj_of_notMem {α : Type} {mark : α}
    {first second before after : List α}
    (beforeClear : mark ∉ before) (afterClear : mark ∉ after)
    (same : first ++ mark :: before = second ++ mark :: after) :
    first = second ∧ before = after := by
  rcases List.append_eq_append_iff.mp same with
    ⟨between, rfl, split⟩ | ⟨between, rfl, split⟩
  · cases between with
    | nil => simpa using split
    | cons next between =>
        obtain ⟨_, rfl⟩ := List.cons.inj split
        simp at beforeClear
  · cases between with
    | nil => simpa [eq_comm] using split
    | cons next between =>
        obtain ⟨_, rfl⟩ := List.cons.inj split
        simp at afterClear

theorem freshName_inj {first second : Nat} {name other : String} :
    freshName first name = freshName second other ↔ name = other ∧ first = second := by
  constructor
  · intro same
    have lists := congrArg String.toList same
    rw [toList_freshName, toList_freshName] at lists
    obtain ⟨names, digits⟩ := append_cons_inj_of_notMem (mark_notMem_digits first)
      (mark_notMem_digits second) lists
    have numbers := congrArg (fun digits => Nat.ofDigitChars 10 digits 0) digits
    simp only [Nat.ofDigitChars_ten_toDigits] at numbers
    exact ⟨String.toList_inj.mp names, numbers⟩
  · intro ⟨sameName, sameNumber⟩
    rw [sameName, sameNumber]

end HornLogic
