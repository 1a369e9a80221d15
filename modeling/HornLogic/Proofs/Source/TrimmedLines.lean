import HornLogic.Proofs.Source.Relayout
import HornLogic.Proofs.Text.Lines

/-!
# Programs with trimmed lines

Blanks at the ends of lines are layout or belong to comments, unless a line ends inside of
a quoted name.  A program without such a name is therefore the same program when each of
its lines is trimmed.
-/

namespace HornLogic.Source

open Text (putTrimmed AtLineEnd isLineBlank)

/-- Layout may lose the blanks that it begins with, up to the end of the line. -/
theorem Layout.Fits.dropWhile_isLineBlank {layout : Layout} {rest : List Char}
    (fits : layout.Fits rest) (visible : ∀ c ∈ rest.head?, Text.isBlank c = false) :
    ∃ again : Layout, (layout.text ++ rest).dropWhile isLineBlank = again.text ++ rest ∧
      again.Fits rest := by
  induction layout with
  | none =>
      refine ⟨.none, ?_, trivial⟩
      cases rest with
      | nil => rfl
      | cons c rest => simp [Layout.text, isLineBlank, visible c rfl]
  | blank c after induction =>
      by_cases lineBlank : isLineBlank c = true
      · simpa [Layout.text, lineBlank] using induction fits.2
      · exact ⟨.blank c after, by simp [Layout.text, lineBlank], fits⟩
  | comment body after =>
      exact ⟨.comment body after, rfl, fits⟩

/-- Trimmed layout is layout. -/
theorem Layout.Fits.exists_trimmed {layout : Layout} {rest later : List Char}
    (fits : layout.Fits rest) (noReturn : '\r' ∉ layout.text)
    (visible : ∀ c ∈ rest.head?, Text.isBlank c = false)
    (laterVisible : ∀ c ∈ later.head?, Text.isBlank c = false)
    (ends : rest = [] → later = []) :
    ∃ again : Layout, layout.text.foldr putTrimmed later = again.text ++ later ∧
      again.Fits later := by
  induction layout with
  | none => exact ⟨.none, rfl, trivial⟩
  | blank c after induction =>
      simp only [Layout.text, List.mem_cons, not_or] at noReturn
      obtain ⟨again, trimmed, againFits⟩ := induction fits.2 noReturn.2
      rw [Layout.text, List.foldr_cons, trimmed, putTrimmed]
      split
      · next lineEnd =>
          obtain ⟨onward, dropped, onwardFits⟩ := againFits.dropWhile_isLineBlank laterVisible
          exact ⟨.blank '\n' onward, by rw [dropped]; rfl, .inr (.inr (.inr rfl)), onwardFits⟩
      · split
        · exact ⟨again, rfl, againFits⟩
        · exact ⟨.blank c again, rfl, fits.1, againFits⟩
  | comment body after induction =>
      simp only [Layout.text, List.mem_cons, List.mem_append, not_or] at noReturn
      obtain ⟨again, trimmed, againFits⟩ := induction fits.2 noReturn.2.2
      -- A comment ends with its line, or with the text.
      have lineEnds : AtLineEnd (again.text ++ later) := by
        rw [← trimmed]
        cases characters : after.text with
        | nil =>
            have none : rest = [] := by
              cases rest with
              | nil => rfl
              | cons c rest =>
                  have lineEnd := not_not.mp (fits.1.2 c (by simp [characters]))
                  have hidden := visible c rfl
                  rcases lineEnd with rfl | rfl <;> cases hidden
            rw [ends none]
            exact Text.atLineEnd_nil
        | cons c others =>
            have lineEnd := not_not.mp (fits.1.2 c (by simp [characters]))
            rw [characters] at noReturn
            obtain rfl : c = '\n' :=
              lineEnd.resolve_left fun same => noReturn.2.2 (by simp [same])
            rw [List.foldr_cons, putTrimmed, if_pos rfl]
            exact Text.atLineEnd_cons _
      have oneLine : '\n' ∉ body := fun member => fits.1.1 _ member (.inr rfl)
      refine ⟨.comment (Text.trimEnd body) again, ?_, ⟨?_, ?_⟩, againFits⟩
      · rw [Layout.text, List.foldr_cons, List.foldr_append, trimmed,
          Text.foldr_putTrimmed oneLine lineEnds]
        simp [putTrimmed, Layout.text, Text.isBlank]
      · exact fun c member => fits.1.1 c (Text.mem_of_mem_trimEnd member)
      · intro c member
        exact not_not.mpr (.inr (lineEnds c member))

theorem foldr_putTrimmed_part {part : List Char} (oneLine : '\n' ∉ part)
    (visible : ∀ c ∈ part.getLast?, Text.isBlank c = false) (rest : List Char) :
    part.foldr putTrimmed rest = part ++ rest := by
  induction part with
  | nil => rfl
  | cons c part induction =>
      simp only [List.mem_cons, not_or] at oneLine
      cases part with
      | nil =>
          have shown := visible c rfl
          simp [putTrimmed, Ne.symm oneLine.1, shown]
      | cons d others =>
          have more : ¬ AtLineEnd (d :: others ++ rest) := by
            intro atEnd
            exact oneLine.2 (by simp [atEnd d rfl])
          rw [List.foldr_cons, induction oneLine.2 (by simpa using visible), putTrimmed,
            if_neg (Ne.symm oneLine.1), if_neg fun both => more both.2]
          rfl

theorem relays_putTrimmed : Relays putTrimmed where
  part := foldr_putTrimmed_part
  layout {layout c rest} visible _ fits noReturn later := by
    have shown : ∀ others, ∀ d ∈ (c :: others).head?, Text.isBlank d = false := by
      intro others d member
      cases member
      exact visible
    exact fits.exists_trimmed noReturn (shown rest) (shown later) nofun

namespace LineProgram

variable {clauses : List Clause}

theorem trimmed_from_end {text : List Char} (program : LineProgram text clauses) :
    LineProgram (text.foldr putTrimmed []) clauses := by
  have stillNoReturn := mt Text.mem_of_mem_foldr_putTrimmed program.noReturn
  obtain ⟨⟨trees, after, derives, values, unbroken⟩, noReturn⟩ := program
  obtain ⟨rfl, fits, afterFits⟩ := Grammar.program_derives_iff.mp derives
  rw [List.mem_append, not_or] at noReturn
  obtain ⟨newAfter, afterText, newAfterFits⟩ :=
    @Layout.Fits.exists_trimmed after [] [] afterFits noReturn.2 nofun nofun fun _ => rfl
  obtain ⟨again, againText, againFit, againValues, againNames⟩ :=
    fits.exists_laidOut relays_putTrimmed unbroken noReturn.1 newAfter.text
  refine ⟨⟨again, newAfter, Grammar.program_derives_iff.mpr ⟨?_, againFit, newAfterFits⟩,
    againValues.trans values, againNames ▸ unbroken⟩, stillNoReturn⟩
  rw [List.foldr_append, afterText, List.append_nil, againText]

theorem trimmed_in_front {text : List Char} (program : LineProgram text clauses) :
    LineProgram (text.dropWhile isLineBlank) clauses := by
  refine program.front ?_ fun member =>
    program.noReturn ((List.dropWhile_sublist _).subset member)
  have parts := @List.takeWhile_append_dropWhile _ isLineBlank text
  have blanks : ∀ c ∈ text.takeWhile isLineBlank, Text.isBlank c = true := by
    intro c member
    have lineBlank := List.mem_takeWhile_imp member
    exact (Bool.and_eq_true_iff.mp lineBlank).1
  have layout := @isLayout_of_blanks _ (text.dropWhile isLineBlank) blanks (by
    rw [parts]
    exact fun c member => not_isBlank_of_isTermStart (program.front_isTermStart c member))
  have skipped := skipLayout_blanks layout (text.dropWhile isLineBlank)
  rw [parts] at skipped
  exact skipped.symm

/-- All lines of a program can be trimmed. -/
theorem trimmed {lines : List (List Char)}
    (program : LineProgram (Text.joinLines lines) clauses) (nonempty : lines ≠ [])
    (oneLines : ∀ line ∈ lines, '\n' ∉ line) :
    LineProgram (Text.joinLines (lines.map Text.trim)) clauses := by
  obtain ⟨first, others, rfl⟩ := List.exists_cons_of_ne_nil nonempty
  obtain ⟨firstOneLine, othersOneLine⟩ := List.forall_mem_cons.mp oneLines
  rw [Text.joinLines_map_trim firstOneLine othersOneLine]
  exact program.trimmed_from_end.trimmed_in_front

end LineProgram

end HornLogic.Source
