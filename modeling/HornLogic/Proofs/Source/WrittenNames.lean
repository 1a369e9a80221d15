import HornLogic.Source.Layout
import HornLogic.Source.Name
import Mathlib.Data.List.TakeWhile

/-!
# Written names are read back

A name that is written plain or between quotes is read back, whatever it is
made of, if no character of an identifier follows it.  The first character of
a written term says at once what it is: a name, a variable or a term in
parentheses.  It is never layout, so nothing of it is skipped.
-/

namespace HornLogic.Source

/-- No character of an identifier stands at the front of a text. -/
def EndsName (rest : List Char) : Prop :=
  ∀ c ∈ rest.head?, isIdentifierRest c = false

theorem span_run {holds : Char → Bool} {run rest : List Char}
    (all : run.all holds = true) (ends : ∀ c ∈ rest.head?, holds c = false) :
    (run ++ rest).takeWhile holds = run ∧ (run ++ rest).dropWhile holds = rest := by
  have every : ∀ c ∈ run, holds c = true := List.all_eq_true.mp all
  rw [List.takeWhile_append_of_pos every, List.dropWhile_append_of_pos every]
  cases rest with
  | nil => simp
  | cons c rest => simp [ends c (by simp)]

/-- The characters that a written name begins with. -/
def isNameStart (c : Char) : Bool :=
  c.isLower || c.isDigit || c == '\''

/-- The characters that a written term begins with. -/
def isTermStart (c : Char) : Bool :=
  isNameStart c || isVariableStart c || c == '('

theorem ne_of_isTermStart {c other : Char} (start : isTermStart c = true)
    (never : isTermStart other = false) : c ≠ other := by
  rintro rfl
  rw [start] at never
  cases never

/-- The character neither is layout nor begins a comment. -/
def isSolid (c : Char) : Bool :=
  !isLayout c && c != '%'

theorem skipLayout_solid {c : Char} (solid : isSolid c = true) (rest : List Char) :
    skipLayout (c :: rest) = c :: rest := by
  obtain ⟨noLayout, noComment⟩ : isLayout c = false ∧ c ≠ '%' := by
    simpa [isSolid] using solid
  simp [skipLayout, dropLayout, noLayout, noComment]

theorem isSolid_of_isTermStart {c : Char} (start : isTermStart c = true) :
    isSolid c = true := by
  simp only [isSolid, isLayout, Bool.and_eq_true, Bool.not_eq_true', Bool.or_eq_false_iff,
    beq_eq_false_iff_ne, bne_iff_ne]
  exact ⟨⟨⟨⟨ne_of_isTermStart start (by decide), ne_of_isTermStart start (by decide)⟩,
    ne_of_isTermStart start (by decide)⟩, ne_of_isTermStart start (by decide)⟩,
    ne_of_isTermStart start (by decide)⟩

theorem skipLayout_termStart {c : Char} (start : isTermStart c = true)
    (rest : List Char) : skipLayout (c :: rest) = c :: rest :=
  skipLayout_solid (isSolid_of_isTermStart start) rest

theorem isTermStart_of_isNameStart {c : Char} (start : isNameStart c = true) :
    isTermStart c = true := by
  simp [isTermStart, start]

theorem isTermStart_of_isVariableStart {c : Char} (start : isVariableStart c = true) :
    isTermStart c = true := by
  simp [isTermStart, start]

theorem not_isLower_of_isDigit {c : Char} (digit : c.isDigit = true) :
    c.isLower = false := by
  cases lower : c.isLower with
  | false => rfl
  | true =>
      have lowerRange : c.isLower = (decide ('a'.val ≤ c.val) && decide (c.val ≤ 'z'.val)) := rfl
      simp only [lowerRange, Char.isDigit, Bool.and_eq_true, decide_eq_true_eq,
        UInt32.le_iff_toNat_le, ge_iff_le] at digit lower
      have ends : 'a'.val.toNat = 97 ∧ '9'.val.toNat = 57 := by decide
      omega

theorem not_isVariableStart_of_isNameStart {c : Char} (start : isNameStart c = true) :
    isVariableStart c = false := by
  cases upper : isVariableStart c with
  | false => rfl
  | true =>
      have lowerRange : c.isLower = (decide ('a'.val ≤ c.val) && decide (c.val ≤ 'z'.val)) := rfl
      have upperRange : c.isUpper = decide ('A'.val ≤ c.val ∧ c.val ≤ 'Z'.val) := rfl
      simp only [isNameStart, isVariableStart, lowerRange, Char.isDigit, upperRange,
        Bool.or_eq_true, Bool.and_eq_true, decide_eq_true_eq, beq_iff_eq,
        UInt32.le_iff_toNat_le, ge_iff_le] at start upper
      have letters : 'A'.val.toNat = 65 ∧ 'Z'.val.toNat = 90 ∧ 'a'.val.toNat = 97 := by
        decide
      have digits : '0'.val.toNat = 48 ∧ '9'.val.toNat = 57 := by decide
      rcases upper with between | rfl
      · rcases start with (lower | digit) | rfl
        · omega
        · omega
        · revert between
          decide
      · revert start
        decide

theorem isIdentifierRest_of_isVariableStart {c : Char} (start : isVariableStart c = true) :
    isIdentifierRest c = true := by
  rcases Bool.or_eq_true_iff.mp start with upper | underscore
  · have letter : c.isAlphanum = (c.isUpper || c.isLower || c.isDigit) := rfl
    simp [isIdentifierRest, letter, upper]
  · simp [isIdentifierRest, underscore]

theorem isIdentifierRest_of_isDigit {c : Char} (digit : c.isDigit = true) :
    isIdentifierRest c = true := by
  simp [isIdentifierRest, Char.isAlphanum, digit]

/-- What was put between quotes is read up to the closing quote. -/
theorem readQuoted_escapeQuoted (start name rest : List Char) :
    readQuoted start (escapeQuoted name ++ '\'' :: rest) = .ok (name, rest) := by
  induction name with
  | nil => rfl
  | cons c name induction =>
      by_cases quoteMark : c = '\''
      · subst quoteMark
        simp [escapeQuoted, readQuoted, unescape?, induction]
      · by_cases backslash : c = '\\'
        · subst backslash
          simp [escapeQuoted, readQuoted, unescape?, induction]
        · simp [escapeQuoted, readQuoted, quoteMark, backslash, induction]

theorem exists_writeName_eq_cons (name : String) :
    ∃ c rest, writeName name = c :: rest ∧ isNameStart c = true := by
  unfold writeName
  cases plain : isPlain name.toList with
  | false => exact ⟨'\'', _, rfl, rfl⟩
  | true =>
      cases characters : name.toList with
      | nil => simp [characters, isPlain] at plain
      | cons c rest =>
          refine ⟨c, rest, by simp, ?_⟩
          rw [characters, isPlain] at plain
          split at plain
          · simp [isNameStart, *]
          · simp_all [isNameStart]

theorem readName_writeName (name : String) {rest : List Char} (ends : EndsName rest) :
    readName (writeName name ++ rest) = .ok (name.toList, rest) := by
  unfold writeName
  cases plain : isPlain name.toList with
  | false =>
      have quoted := readQuoted_escapeQuoted (escapeQuoted name.toList ++ '\'' :: rest)
        name.toList rest
      simpa [quote, readName] using quoted
  | true =>
      cases characters : name.toList with
      | nil => simp [characters, isPlain] at plain
      | cons c others =>
          rw [characters, isPlain] at plain
          cases lower : c.isLower with
          | true =>
              have identifier : others.all isIdentifierRest = true := by
                simpa [lower] using plain
              obtain ⟨taken, left⟩ := span_run identifier ends
              simp [readName, lower, taken, left]
          | false =>
              obtain ⟨digit, digits⟩ : c.isDigit = true ∧ others.all Char.isDigit = true := by
                simpa [lower] using plain
              have endsDigits : ∀ next ∈ rest.head?, next.isDigit = false := by
                intro next member
                have outside := ends next member
                cases known : next.isDigit with
                | false => rfl
                | true =>
                    rw [isIdentifierRest_of_isDigit known] at outside
                    cases outside
              obtain ⟨taken, left⟩ := span_run digits endsDigits
              simp [readName, lower, digit, taken, left]

end HornLogic.Source
