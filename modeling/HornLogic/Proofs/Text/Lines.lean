import HornLogic.Text.Blank
import Mathlib.Data.List.DropRight

/-!
# Trimmed texts and their lines

What trimming leaves of a text, texts that are put together from lines, and what becomes of
them when each line is trimmed.
-/

namespace HornLogic.Text

theorem trimEnd_cons (c : Char) (text : List Char) :
    trimEnd (c :: text) =
      if isBlank c ∧ trimEnd text = [] then [] else c :: trimEnd text := by
  unfold trimEnd
  rw [List.reverse_cons, List.dropWhile_append]
  by_cases spent : text.reverse.dropWhile isBlank = []
  · by_cases blank : isBlank c = true
    · simp [spent, blank]
    · simp [spent, blank]
  · simp [spent]

theorem trimStart_trimEnd (text : List Char) :
    trimStart (trimEnd text) = trim text := by
  unfold trim
  induction text with
  | nil => rfl
  | cons c text induction =>
      by_cases blank : isBlank c = true
      · have start : trimStart (c :: text) = trimStart text :=
          List.dropWhile_cons_of_pos blank
        rw [start, ← induction, trimEnd_cons]
        by_cases spent : trimEnd text = []
        · simp [blank, spent]
        · simp [spent, trimStart, blank]
      · have start : trimStart (c :: text) = c :: text :=
          List.dropWhile_cons_of_neg blank
        rw [start, trimEnd_cons]
        simp [blank, trimStart]

theorem mem_of_mem_trimEnd {c : Char} {text : List Char} (member : c ∈ trimEnd text) :
    c ∈ text := by
  unfold trimEnd at member
  exact List.mem_reverse.mp ((List.dropWhile_sublist _).subset (List.mem_reverse.mp member))

theorem mem_of_mem_trim {c : Char} {line : List Char} (member : c ∈ trim line) : c ∈ line :=
  (List.dropWhile_sublist _).subset (mem_of_mem_trimEnd member)

theorem trimEnd_trimEnd (text : List Char) : trimEnd (trimEnd text) = trimEnd text := by
  simp [trimEnd, List.dropWhile_idempotent]

theorem trimStart_trim (text : List Char) : trimStart (trim text) = trim text := by
  rw [← trimStart_trimEnd, trimStart, trimStart, List.dropWhile_idempotent]

theorem trim_trim (text : List Char) : trim (trim text) = trim text := by
  rw [trim, trimStart_trim, trim, trimEnd_trimEnd]

theorem trimEnd_append_blanks {blanks : List Char} (blank : ∀ c ∈ blanks, isBlank c = true)
    (text : List Char) : trimEnd (text ++ blanks) = trimEnd text := by
  have dropped : blanks.reverse.dropWhile isBlank = [] :=
    List.dropWhile_eq_nil_iff.mpr (by simpa using blank)
  simp [trimEnd, List.dropWhile_append, dropped]

theorem trimEnd_concat {c : Char} (visible : isBlank c = false) (text : List Char) :
    trimEnd (text ++ [c]) = text ++ [c] := by
  simp [trimEnd, visible]

/-- Trimming takes blanks from the end of a text. -/
theorem exists_trimEnd_append (text : List Char) :
    ∃ blanks, text = trimEnd text ++ blanks ∧ ∀ c ∈ blanks, isBlank c = true := by
  refine ⟨(text.reverse.takeWhile isBlank).reverse, ?_, ?_⟩
  · have parts := @List.takeWhile_append_dropWhile _ isBlank text.reverse
    rw [trimEnd, ← List.reverse_append, parts, List.reverse_reverse]
  · intro c member
    exact List.mem_takeWhile_imp (List.mem_reverse.mp member)

/-- Nothing more stands in the line. -/
def AtLineEnd (text : List Char) : Prop :=
  ∀ c ∈ text.head?, c = '\n'

instance (text : List Char) : Decidable (AtLineEnd text) :=
  inferInstanceAs (Decidable (∀ c ∈ text.head?, c = '\n'))

theorem atLineEnd_nil : AtLineEnd [] := by
  simp [AtLineEnd]

theorem atLineEnd_cons (rest : List Char) : AtLineEnd ('\n' :: rest) := by
  simp [AtLineEnd]

/-- A text from its lines. -/
def joinLines (lines : List (List Char)) : List Char :=
  ['\n'].intercalate lines

theorem joinLines_cons_cons (first second : List Char) (lines : List (List Char)) :
    joinLines (first :: second :: lines) = first ++ '\n' :: joinLines (second :: lines) := by
  simp [joinLines, List.intercalate]

theorem exists_joinLines_cons (lines : List (List Char)) :
    ∃ rest, AtLineEnd rest ∧ ∀ first, joinLines (first :: lines) = first ++ rest := by
  cases lines with
  | nil => exact ⟨[], atLineEnd_nil, fun first => by simp [joinLines]⟩
  | cons second lines =>
      exact ⟨'\n' :: joinLines (second :: lines), atLineEnd_cons _,
        fun first => joinLines_cons_cons ..⟩

/-- A text from its lines, each with its end. -/
def withEnds (lines : List (List Char)) : List Char :=
  lines.flatMap (· ++ ['\n'])

theorem withEnds_cons (line : List Char) (lines : List (List Char)) :
    withEnds (line :: lines) = line ++ '\n' :: withEnds lines := by
  simp [withEnds]

theorem withEnds_append (first second : List (List Char)) :
    withEnds (first ++ second) = withEnds first ++ withEnds second :=
  List.flatMap_append

/-- Only the end of the last line is missing when lines are joined. -/
theorem joinLines_concat (lines : List (List Char)) (last : List Char) :
    joinLines (lines ++ [last]) = withEnds lines ++ last := by
  induction lines with
  | nil => simp [joinLines, withEnds]
  | cons first lines induction =>
      obtain ⟨second, others, same⟩ : ∃ second others, lines ++ [last] = second :: others :=
        List.exists_cons_of_ne_nil (by simp)
      rw [same] at induction
      rw [List.cons_append, same, joinLines_cons_cons, induction, withEnds_cons]
      simp

theorem joinLines_append_end {lines : List (List Char)} (nonempty : lines ≠ []) :
    joinLines lines ++ ['\n'] = withEnds lines := by
  obtain ⟨others, last, rfl⟩ := (List.eq_nil_or_concat' lines).resolve_left nonempty
  rw [joinLines_concat, withEnds_append]
  simp [withEnds]

theorem not_mem_of_mem_splitOn {separator : Char} {text part : List Char}
    (member : part ∈ text.splitOn separator) : separator ∉ part := by
  induction text generalizing part with
  | nil =>
      rw [List.splitOn_nil, List.mem_singleton] at member
      simp [member]
  | cons c text induction =>
      obtain ⟨first, others, split⟩ :=
        List.exists_cons_of_ne_nil (List.splitOn_ne_nil separator text)
      rw [split] at induction
      rw [List.splitOn_cons_eq_if_modifyHead, split] at member
      by_cases here : c = separator
      · simp only [here, beq_self_eq_true, if_true] at member
        rcases List.mem_cons.mp member with rfl | later
        · exact List.not_mem_nil
        · exact induction later
      · simp only [beq_false_of_ne here, Bool.false_eq_true, if_false,
          List.modifyHead_cons] at member
        rcases List.mem_cons.mp member with rfl | later
        · exact List.not_mem_cons_of_ne_of_not_mem (Ne.symm here) (induction List.mem_cons_self)
        · exact induction (List.mem_cons_of_mem _ later)

/-- The blanks that may stand within a line. -/
def isLineBlank (c : Char) : Bool :=
  isBlank c && c != '\n'

/-- Puts a character in front of a text whose lines are trimmed, except for blanks that the
first line begins with: a blank at the end of a line is left out, and what follows a line
end is trimmed there too. -/
def putTrimmed (c : Char) (text : List Char) : List Char :=
  if c = '\n' then '\n' :: text.dropWhile isLineBlank
  else if isBlank c ∧ AtLineEnd text then text
  else c :: text

theorem foldr_putTrimmed {line : List Char} (oneLine : '\n' ∉ line) {rest : List Char}
    (ends : AtLineEnd rest) : line.foldr putTrimmed rest = trimEnd line ++ rest := by
  induction line with
  | nil => rfl
  | cons c line induction =>
      simp only [List.mem_cons, not_or] at oneLine
      rw [List.foldr_cons, induction oneLine.2, putTrimmed, if_neg (Ne.symm oneLine.1),
        trimEnd_cons]
      by_cases blank : isBlank c = true
      · cases kept : trimEnd line with
        | nil => simp [blank, ends]
        | cons d others =>
            have inLine : d ∈ line := mem_of_mem_trimEnd (kept ▸ List.mem_cons_self)
            have more : ¬ AtLineEnd (d :: (others ++ rest)) := by
              intro atEnd
              rw [atEnd d rfl] at inLine
              exact oneLine.2 inLine
            simp [more]
      · simp [blank]

theorem mem_of_mem_foldr_putTrimmed {c : Char} {text : List Char}
    (member : c ∈ text.foldr putTrimmed []) : c ∈ text := by
  induction text with
  | nil => exact member
  | cons first text induction =>
      rw [List.foldr_cons, putTrimmed] at member
      split at member
      · next lineEnd =>
          rcases List.mem_cons.mp member with rfl | later
          · exact List.mem_cons.mpr (.inl lineEnd.symm)
          · exact List.mem_cons_of_mem _ (induction ((List.dropWhile_sublist _).subset later))
      · split at member
        · exact List.mem_cons_of_mem _ (induction member)
        · exact (List.mem_cons.mp member).elim (fun same => same ▸ List.mem_cons_self)
            fun later => List.mem_cons_of_mem _ (induction later)

theorem dropWhile_isLineBlank {line : List Char} (oneLine : '\n' ∉ line) {rest : List Char}
    (ends : AtLineEnd rest) :
    (line ++ rest).dropWhile isLineBlank = trimStart line ++ rest := by
  induction line with
  | nil =>
      cases rest with
      | nil => rfl
      | cons c rest =>
          obtain rfl : c = '\n' := ends c rfl
          rfl
  | cons c line induction =>
      simp only [List.mem_cons, not_or] at oneLine
      have noEnd : c ≠ '\n' := Ne.symm oneLine.1
      by_cases blank : isBlank c = true
      · simpa [isLineBlank, blank, noEnd, trimStart] using induction oneLine.2
      · simp [isLineBlank, blank, trimStart]

/-- Trimming from the end leaves the blanks that the first line begins with. -/
theorem foldr_joinLines {first : List Char} {lines : List (List Char)}
    (oneLine : '\n' ∉ first) (oneLines : ∀ line ∈ lines, '\n' ∉ line) :
    (joinLines (first :: lines)).foldr putTrimmed [] =
      joinLines (trimEnd first :: lines.map trim) := by
  induction lines generalizing first with
  | nil => simpa [joinLines] using foldr_putTrimmed oneLine atLineEnd_nil
  | cons second lines induction =>
      obtain ⟨secondOneLine, othersOneLine⟩ := List.forall_mem_cons.mp oneLines
      have others := induction secondOneLine othersOneLine
      obtain ⟨rest, ends, joined⟩ := exists_joinLines_cons (lines.map trim)
      have trimmed : putTrimmed '\n' (joinLines (trimEnd second :: lines.map trim)) =
          '\n' :: joinLines (trim second :: lines.map trim) := by
        have kept : '\n' ∉ trimEnd second := mt mem_of_mem_trimEnd secondOneLine
        rw [putTrimmed, if_pos rfl, joined, dropWhile_isLineBlank kept ends,
          trimStart_trimEnd, joined]
      rw [joinLines_cons_cons, List.foldr_append, List.foldr_cons, others, trimmed,
        foldr_putTrimmed oneLine (atLineEnd_cons _), List.map_cons,
        joinLines_cons_cons]

/-- What trimming every line makes of a text. -/
theorem joinLines_map_trim {first : List Char} {lines : List (List Char)}
    (oneLine : '\n' ∉ first) (oneLines : ∀ line ∈ lines, '\n' ∉ line) :
    joinLines ((first :: lines).map trim) =
      ((joinLines (first :: lines)).foldr putTrimmed []).dropWhile isLineBlank := by
  obtain ⟨rest, ends, joined⟩ := exists_joinLines_cons (lines.map trim)
  have kept : '\n' ∉ trimEnd first := mt mem_of_mem_trimEnd oneLine
  rw [foldr_joinLines oneLine oneLines, joined, dropWhile_isLineBlank kept ends,
    trimStart_trimEnd, List.map_cons, joined]

end HornLogic.Text
