import HornLogic.Proofs.Source.Places
import HornLogic.Proofs.Source.TrimmedLines

/-!
# Programs that are cut at line ends

A program can be cut after each line on which a clause ends, if nothing but a comment comes
after the full stop: the lines up to there are a program, and so are the lines after it.
-/

namespace HornLogic

namespace Text

/-- Nothing but blanks and perhaps a comment after them. -/
def OnlyComment (line : List Char) : Prop :=
  ∀ c ∈ (trimStart line).head?, c = '%'

instance (line : List Char) : Decidable (OnlyComment line) :=
  inferInstanceAs (Decidable (∀ c ∈ (trimStart line).head?, c = '%'))

end Text

namespace Source

open Text (OnlyComment AtLineEnd withEnds)

/-- A line with nothing but a comment is layout, if its blanks are. -/
theorem exists_layout_of_onlyComment {line : List Char} (only : OnlyComment line)
    (layout : ∀ c ∈ line.takeWhile Text.isBlank, isLayout c = true)
    (noEnd : '\n' ∉ line) (noReturn : '\r' ∉ line) :
    ∃ layout : Layout, layout.text = line ∧ ∀ rest, AtLineEnd rest → layout.Fits rest := by
  induction line with
  | nil => exact ⟨.none, rfl, fun _ _ => trivial⟩
  | cons c line induction =>
      simp only [List.mem_cons, not_or] at noEnd noReturn
      by_cases blank : Text.isBlank c = true
      · rw [List.takeWhile_cons_of_pos blank] at layout
        obtain ⟨first, others⟩ := List.forall_mem_cons.mp layout
        have onlyLater : OnlyComment line := by
          simpa [OnlyComment, Text.trimStart, blank] using only
        obtain ⟨after, rfl, fits⟩ := induction onlyLater others noEnd.2 noReturn.2
        exact ⟨.blank c after, rfl, fun rest ends => ⟨isLayout_iff.mp first, fits rest ends⟩⟩
      · obtain rfl : c = '%' := only c (by simp [Text.trimStart, blank])
        refine ⟨.comment line .none, by simp [Layout.text], fun rest ends => ⟨⟨?_, ?_⟩, trivial⟩⟩
        · intro d member lineEnd
          rcases lineEnd with rfl | rfl
          · exact noReturn.2 member
          · exact noEnd.2 member
        · intro d member
          exact not_not.mpr (.inr (ends d member))

theorem onlyComment_of_atEnd {line rest : List Char} (atEnd : AtEnd (line ++ rest)) :
    OnlyComment line := by
  induction line with
  | nil => nofun
  | cons c line induction =>
      by_cases layout : isLayout c = true
      · have later : AtEnd (line ++ rest) := by
          simpa [AtEnd, skipLayout, dropLayout, layout] using atEnd
        have blank : Text.isBlank c = true := by
          rcases isLayout_iff.mp layout with rfl | rfl | rfl | rfl <;> decide
        simpa [OnlyComment, Text.trimStart, blank] using induction later
      · by_cases comment : c = '%'
        · subst comment
          intro d member
          cases member
          rfl
        · have stays : skipLayout (c :: line ++ rest) = c :: (line ++ rest) :=
            skipLayout_solid (by simpa [isSolid, comment] using layout) _
          rw [AtEnd, stays] at atEnd
          cases atEnd

namespace LineProgram

variable {text line rest : List Char} {clauses : List Clause}

theorem exists_layout_line (program : LineProgram (line ++ '\n' :: rest) clauses)
    (only : OnlyComment line) (noEnd : '\n' ∉ line) :
    ∃ layout : Layout, layout.text = line ∧ ∀ later, AtLineEnd later → layout.Fits later := by
  have noReturn : '\r' ∉ line := fun member => program.noReturn (List.mem_append_left _ member)
  refine exists_layout_of_onlyComment only ?_ noEnd noReturn
  have parts := @List.takeWhile_append_dropWhile _ Text.isBlank line
  refine @isLayout_of_blanks _ (line.dropWhile Text.isBlank ++ '\n' :: rest) ?_ ?_
  · exact fun c member => List.mem_takeWhile_imp member
  · rw [← List.append_assoc, parts]
    exact fun c member => not_isBlank_of_isTermStart (program.front_isTermStart c member)

theorem after_line (program : LineProgram (line ++ '\n' :: rest) clauses)
    (only : OnlyComment line) (noEnd : '\n' ∉ line) : LineProgram rest clauses := by
  obtain ⟨layout, rfl, fits⟩ := program.exists_layout_line only noEnd
  have lineFits : layout.Fits ('\n' :: rest) := fits _ (Text.atLineEnd_cons rest)
  refine program.front ?_ fun member => program.noReturn (by simp [member])
  rw [lineFits.skipLayout_append]
  rfl

theorem append_end (program : LineProgram text clauses) : LineProgram (text ++ ['\n']) clauses := by
  obtain ⟨⟨trees, after, derives, values, unbroken⟩, noReturn⟩ := program
  obtain ⟨rfl, fits, afterFits⟩ := Grammar.program_derives_iff.mp derives
  rw [List.mem_append, not_or] at noReturn
  obtain ⟨again, written, againFits, againValues, againNames⟩ :=
    fits.exists_laidOut relays_cons unbroken noReturn.1 (after.text ++ ['\n'])
  have skipped : skipLayout (after.text ++ ['\n']) = [] := by
    have lineFits : after.Fits ['\n'] := afterFits.before_lineEnd (by simp [EndsLine])
    rw [lineFits.skipLayout_append]
    rfl
  obtain ⟨newAfter, newText, newFits⟩ := AtEnd.exists_layout skipped
  rw [← newText] at againFits
  refine ⟨⟨again, newAfter, Grammar.program_derives_iff.mpr ⟨?_, againFits, newFits⟩,
    againValues.trans values, againNames ▸ unbroken⟩, ?_⟩
  · rw [newText, ← written, List.foldr_cons_eq_append', List.append_assoc]
  · simpa [List.mem_append] using noReturn

theorem along (program : LineProgram text clauses) : Along LineEndAllowed .code text := by
  obtain ⟨⟨trees, after, derives, _, unbroken⟩, noReturn⟩ := program
  obtain ⟨rfl, fits, afterFits⟩ := Grammar.program_derives_iff.mp derives
  rw [List.mem_append, not_or] at noReturn
  obtain ⟨along, place⟩ := Grammar.along_clauses (fits.passes unbroken noReturn.1)
  rw [Along.append_iff, place]
  exact ⟨along, (afterFits.along noReturn.2).1.mono fun _ _ allowed => allowed.2⟩

/-- A program is cut after a line with a full stop in code that nothing but a comment
follows. -/
theorem cut {before behind : List Char}
    (program : LineProgram (before ++ '.' :: (behind ++ '\n' :: rest)) clauses)
    (inCode : Place.code.after before = .code) (only : OnlyComment behind)
    (noEnd : '\n' ∉ behind) :
    ∃ ended others, LineProgram (before ++ '.' :: behind) ended ∧ LineProgram rest others ∧
      clauses = ended ++ others := by
  obtain ⟨⟨trees, after, derives, rfl, unbroken⟩, noReturn⟩ := program
  obtain ⟨written, fits, afterFits⟩ := Grammar.program_derives_iff.mp derives
  have noneWritten := noReturn
  rw [← written, List.mem_append, not_or] at noneWritten
  simp only [List.mem_append, List.mem_cons, not_or] at noReturn
  obtain ⟨noneBefore, _, noneBehind, _, noneRest⟩ := noReturn
  obtain ⟨ended, others, rfl, endedText, othersText⟩ := Grammar.exists_split_at_stop
    (fits.passes unbroken noneWritten.1) (afterFits.along noneWritten.2).1 written inCode
  obtain ⟨endedFit, othersFit⟩ := Grammar.programFits_append.mp fits
  rw [List.flatMap_append, List.forall_mem_append] at unbroken
  have othersProgram :
      LineProgram (behind ++ '\n' :: rest) (others.map ClauseTree.value) := by
    refine ⟨⟨others, after, Grammar.program_derives_iff.mpr ⟨othersText, othersFit, afterFits⟩,
      rfl, unbroken.2⟩, ?_⟩
    simp [noneBehind, noneRest]
  -- What follows the full stop in its line is layout, also at the end of a text.
  obtain ⟨layout, rfl, layoutFits⟩ := othersProgram.exists_layout_line only noEnd
  obtain ⟨again, againText, againFit, againValues, againNames⟩ :=
    endedFit.exists_laidOut relays_cons unbroken.1 (by simp [endedText, noneBefore]) layout.text
  have written : again.flatMap ClauseTree.text ++ layout.text = before ++ '.' :: layout.text := by
    rw [← againText, List.foldr_cons_eq_append', endedText]
    simp
  have endedProgram :
      LineProgram (before ++ '.' :: layout.text) (ended.map ClauseTree.value) := by
    refine ⟨⟨again, layout, Grammar.program_derives_iff.mpr
      ⟨written, againFit, layoutFits [] Text.atLineEnd_nil⟩, againValues,
      againNames ▸ unbroken.1⟩, ?_⟩
    simp [noneBefore, noneBehind]
  exact ⟨_, _, endedProgram, othersProgram.after_line only noEnd, List.map_append⟩

/-- If a program has clauses, its last full stop stands in code with layout after it. -/
theorem exists_last_stop (program : LineProgram text clauses) :
    (AtEnd text ∧ clauses = []) ∨ ∃ before behind, text = before ++ '.' :: behind ∧
      Place.code.after before = .code ∧ AtEnd behind := by
  obtain ⟨⟨trees, after, derives, rfl, unbroken⟩, noReturn⟩ := program
  obtain ⟨rfl, fits, afterFits⟩ := Grammar.program_derives_iff.mp derives
  rw [List.mem_append, not_or] at noReturn
  by_cases none : trees = []
  · subst none
    exact .inl ⟨afterFits.atEnd, rfl⟩
  · obtain ⟨before, stops, inCode⟩ :=
      Grammar.exists_last_stop (fits.passes unbroken noReturn.1) none
    exact .inr ⟨before, after.text, by simp [stops], inCode, afterFits.atEnd⟩

end LineProgram

end Source

end HornLogic
