import HornLogic.Source.Parser

/-!
# Laws of what is read

A law of terms that holds of atoms and of variables with the name of an
identifier, and that applications take over from their arguments, holds of
every term that a reader makes: readers build terms in no other way.
-/

namespace HornLogic.Source

/-- A law that holds of everything that is built as readers build terms. -/
structure Readable (law : Term → Prop) : Prop where
  atom : ∀ name, law (.atom name)
  identifier : ∀ name : String, (∀ c ∈ name.toList, isIdentifierRest c) → law (.var name)
  app : ∀ functor args, (∀ arg ∈ args, law arg) → law (.app functor args)

/-- Everything that is read obeys a law. -/
def Reader.Obeys {α : Type} (read : Reader α) (law : α → Prop) : Prop :=
  ∀ {text value rest}, read text = .ok (value, rest) → law value

section

variable {law : Term → Prop}

theorem Readable.both (readable : Readable law) {left right : Term}
    (leftLaw : law left) (rightLaw : law right) : law (.both left right) := by
  apply readable.app
  simp [leftLaw, rightLaw]

theorem Readable.notUnifiable (readable : Readable law) {left right : Term}
    (leftLaw : law left) (rightLaw : law right) : law (.notUnifiable left right) := by
  apply readable.app
  simp [leftLaw, rightLaw]

theorem Readable.joinGoals (readable : Readable law) {first : Term} {goals : List Term}
    (firstLaw : law first) (goalsLaw : ∀ goal ∈ goals, law goal) :
    law (.joinGoals first goals) := by
  induction goals generalizing first with
  | nil => exact firstLaw
  | cons second goals induction =>
      obtain ⟨secondLaw, othersLaw⟩ := List.forall_mem_cons.mp goalsLaw
      exact readable.both firstLaw (induction secondLaw othersLaw)

variable {read : Reader Term}

theorem readGoal_obeys (readable : Readable law) (obeys : read.Obeys law) :
    (readGoal read).Obeys law := by
  intro text value rest success
  unfold readGoal at success
  cases first : read text with
  | error place => simp [first] at success
  | ok found =>
      obtain ⟨left, afterLeft⟩ := found
      have leftLaw := obeys first
      simp only [first] at success
      split at success
      · rename_i right afterRight second
        cases success
        obtain ⟨afterOperator, _, second⟩ := Option.map_eq_some_iff.mp second
        exact readable.notUnifiable leftLaw (obeys second)
      · cases success
        exact leftLaw

theorem readFurtherGoals_obey (readable : Readable law) (obeys : read.Obeys law)
    (bound : Nat) (text : List Char) :
    ∀ goal ∈ (readFurtherGoals read bound text).1, law goal := by
  induction bound generalizing text with
  | zero =>
      intro goal member
      cases member
  | succ bound induction =>
      unfold readFurtherGoals
      split
      · rename_i goal rest found
        obtain ⟨afterComma, _, found⟩ := Option.map_eq_some_iff.mp found
        show ∀ other ∈ goal :: (readFurtherGoals read bound rest).1, law other
        exact List.forall_mem_cons.mpr
          ⟨readGoal_obeys readable obeys found, induction rest⟩
      · intro goal member
        cases member

theorem readGoals_obeys (readable : Readable law) (obeys : read.Obeys law)
    (bound : Nat) :
    (readGoals read bound).Obeys fun goals =>
      law goals.1 ∧ ∀ goal ∈ goals.2, law goal := by
  intro text value rest success
  unfold readGoals at success
  cases first : readGoal read text with
  | error place => simp [first] at success
  | ok found =>
      simp only [first] at success
      cases success
      constructor
      · exact readGoal_obeys readable obeys first
      · exact readFurtherGoals_obey readable obeys bound _

theorem readInParentheses_obeys (readable : Readable law) (obeys : read.Obeys law)
    {bound : Nat} {text rest : List Char} {term : Term}
    (success : readInParentheses read bound text = some (term, rest)) : law term := by
  unfold readInParentheses at success
  split at success
  · cases success
  · rename_i first goals after found
    obtain ⟨afterClosing, _, same⟩ := Option.map_eq_some_iff.mp success
    cases same
    obtain ⟨firstLaw, goalsLaw⟩ := readGoals_obeys readable obeys bound found
    exact readable.joinGoals firstLaw goalsLaw

theorem readArguments_obey (readable : Readable law) (obeys : read.Obeys law)
    {bound : Nat} {text rest : List Char} {args : List Term}
    (success : readArguments read bound text = some (args, rest)) :
    ∀ arg ∈ args, law arg := by
  unfold readArguments at success
  split at success
  · obtain ⟨afterClosing, _, same⟩ := Option.map_eq_some_iff.mp success
    cases same
    intro arg member
    cases member
  · rename_i first goals after found
    obtain ⟨afterClosing, _, same⟩ := Option.map_eq_some_iff.mp success
    cases same
    exact List.forall_mem_cons.mpr (readGoals_obeys readable obeys bound found)

theorem readApplication_obeys (readable : Readable law) (obeys : read.Obeys law)
    (bound : Nat) (name text : List Char) :
    law (readApplication read bound name text).1 := by
  unfold readApplication
  split
  · split
    · rename_i args rest found
      exact readable.app _ _ (readArguments_obey readable obeys found)
    · exact readable.atom _
  · exact readable.atom _

theorem readTermHere_obeys (readable : Readable law) (obeys : read.Obeys law)
    (bound : Nat) : (readTermHere read bound).Obeys law := by
  intro text value rest success
  unfold readTermHere at success
  split at success
  · split at success
    · rename_i found
      cases success
      exact readInParentheses_obeys readable obeys found
    · cases success
  · split at success
    · cases success
      apply readable.identifier
      intro c member
      rw [String.toList_ofList] at member
      exact List.all_eq_true.mp List.all_takeWhile c member
    · split at success
      · cases success
      · rename_i name after _
        obtain ⟨rfl, rfl⟩ := Prod.mk.inj (Except.ok.inj success)
        exact readApplication_obeys readable obeys bound name after

theorem readTerm_obeys (readable : Readable law) (bound : Nat) :
    Reader.Obeys (readTerm bound) law := by
  induction bound with
  | zero =>
      intro text value rest success
      cases success
  | succ bound induction =>
      intro text value rest success
      exact readTermHere_obeys readable induction bound success

theorem readBody_obeys (readable : Readable law) (bound : Nat) (text : List Char) :
    ∀ goal ∈ (readBody bound text).1, law goal := by
  unfold readBody
  split
  · rename_i first goals rest found
    obtain ⟨afterArrow, _, found⟩ := Option.map_eq_some_iff.mp found
    show ∀ goal ∈ first :: goals, law goal
    exact List.forall_mem_cons.mpr
      (readGoals_obeys readable (readTerm_obeys readable bound) bound found)
  · intro goal member
    cases member

/-- The law holds of the head and of the goals of a clause that is read. -/
theorem readClause_obeys (readable : Readable law) (bound : Nat) :
    Reader.Obeys (readClause bound) fun clause =>
      law clause.head ∧ ∀ goal ∈ clause.body, law goal := by
  intro text value rest success
  unfold readClause at success
  split at success
  · cases success
  · rename_i head afterHead found
    dsimp only at success
    split at success
    · cases success
      constructor
      · exact readTerm_obeys readable bound found
      · exact readBody_obeys readable bound afterHead
    · cases success

theorem readClauses_obey (readable : Readable law) (bound count : Nat)
    (text : List Char) :
    ∀ clause ∈ (readClauses bound count text).1,
      law clause.head ∧ ∀ goal ∈ clause.body, law goal := by
  induction count generalizing text with
  | zero =>
      intro clause member
      cases member
  | succ count induction =>
      unfold readClauses
      split
      · intro clause member
        cases member
      · rename_i clause rest found
        show ∀ other ∈ clause :: (readClauses bound count rest).1,
          law other.head ∧ ∀ goal ∈ other.body, law goal
        exact List.forall_mem_cons.mpr
          ⟨readClause_obeys readable bound found, induction rest⟩

theorem readQuery_obeys (readable : Readable law) (bound : Nat) :
    Reader.Obeys (readQuery bound) law := by
  intro text value rest success
  unfold readQuery at success
  split at success
  · cases success
  · rename_i first goals after found
    cases success
    obtain ⟨firstLaw, goalsLaw⟩ :=
      readGoals_obeys readable (readTerm_obeys readable bound) bound found
    exact readable.joinGoals firstLaw goalsLaw

end

/-- What is parsed obeys the laws of its reader. -/
theorem parseAll_obeys {α : Type} {law : α → Prop} {read : (bound : Nat) → Reader α}
    (obeys : ∀ bound, (read bound).Obeys law) {text : String} {value : α}
    (parsed : parseAll read text = .ok value) : law value := by
  unfold parseAll at parsed
  split at parsed
  · cases parsed
  · rename_i found
    split at parsed
    · cases parsed
      exact obeys _ found
    · cases parsed

/-- What is parsed and then changed was something that obeys the laws. -/
theorem exists_of_map_parseAll {α β : Type} {law : α → Prop}
    {read : (bound : Nat) → Reader α} (obeys : ∀ bound, (read bound).Obeys law)
    {change : α → β} {text : String} {value : β}
    (parsed : (parseAll read text).map change = .ok value) :
    ∃ found, law found ∧ change found = value := by
  cases found : parseAll read text with
  | error fault =>
      rw [found] at parsed
      cases parsed
  | ok original =>
      rw [found] at parsed
      cases parsed
      exact ⟨original, parseAll_obeys obeys found, rfl⟩

end HornLogic.Source
