import HornLogic.Proofs.Source.Concatenation

/-!
# Rejected programs

Clauses are read as long as there is one, and a fault shows what comes after the layout
behind the last of them.  A clause is there whatever comes after it, so these are the first
clauses of the text for everyone who reads it: no front of the text that is a program goes
on longer, and at the place that is shown no clause can be read from any front.
-/

namespace HornLogic

namespace Source

theorem dropLayout_suffix (inComment : Bool) (text : List Char) :
    dropLayout inComment text <:+ text := by
  fun_induction dropLayout inComment text with
  | case1 => exact List.suffix_refl _
  | case2 c rest induction => exact induction.trans (List.suffix_cons _ _)
  | case3 c rest layout induction => exact induction.trans (List.suffix_cons _ _)
  | case4 rest layout induction => exact induction.trans (List.suffix_cons _ _)
  | case5 c rest layout mark => exact List.suffix_refl _

theorem skipLayout_skipLayout (text : List Char) :
    skipLayout (skipLayout text) = skipLayout text := by
  obtain ⟨layout, written, fits⟩ := exists_layout text
  rw [← fits.skipLayout_append, written]

/-- What follows layout up to the end of a text begins outside of a comment or in one. -/
theorem dropLayout_append_of_atEnd {inComment : Bool} {text : List Char}
    (atEnd : dropLayout inComment text = []) :
    ∃ within, ∀ rest, dropLayout inComment (text ++ rest) = dropLayout within rest := by
  fun_induction dropLayout inComment text with
  | case1 inComment => exact ⟨inComment, fun _ => rfl⟩
  | case2 c text induction => exact induction atEnd
  | case3 c text layout induction =>
      obtain ⟨within, onwards⟩ := induction atEnd
      exact ⟨within, fun rest => by simpa [dropLayout, layout] using onwards rest⟩
  | case4 text layout induction =>
      obtain ⟨within, onwards⟩ := induction atEnd
      exact ⟨within, fun rest => by simpa [dropLayout, layout] using onwards rest⟩
  | case5 c text layout mark => cases atEnd

theorem AtEnd.length_skipLayout_le {front : List Char} (atEnd : AtEnd front)
    (rest : List Char) : (skipLayout (front ++ rest)).length ≤ rest.length := by
  obtain ⟨within, onwards⟩ := dropLayout_append_of_atEnd atEnd
  rw [skipLayout, onwards]
  exact (dropLayout_suffix within rest).length_le

/-- No clause begins the text. -/
def NoClause (text : List Char) : Prop :=
  ∀ tree : ClauseTree, ∀ rest, tree.Fits rest → tree.text ++ rest ≠ text

theorem NoClause.skipLayout {text : List Char} (none : NoClause text) :
    NoClause (skipLayout text) := by
  intro tree rest fits written
  have same : Source.skipLayout text = Source.skipLayout (tree.text ++ rest) := by
    rw [written, skipLayout_skipLayout]
  obtain ⟨again, newWritten, newFits, _⟩ := fits.exists_front same
  exact none again rest newFits newWritten

/-- Reading stops where no clause begins. -/
theorem noClause_of_readClauses {bound count : Nat} {text rest : List Char}
    {clauses : List Clause} (read : readClauses bound count text = (clauses, rest))
    (enough : text.length < bound) (enoughClauses : text.length ≤ count) : NoClause rest := by
  induction count generalizing text clauses with
  | zero =>
      obtain rfl : text = [] := List.eq_nil_of_length_eq_zero (by omega)
      obtain ⟨_, rfl⟩ := Prod.mk.inj read
      intro tree rest _ written
      have nonempty := tree.length_text_pos
      have empty := congrArg List.length written
      rw [List.length_append, List.length_nil] at empty
      omega
  | succ count induction =>
      unfold readClauses at read
      split at read
      · next place failed =>
          obtain ⟨_, rfl⟩ := Prod.mk.inj read
          rintro tree rest fits rfl
          rw [List.length_append] at enough
          rw [fits.readClause (by omega)] at failed
          cases failed
      · next clause afterClause firstRead =>
          obtain ⟨_, rfl⟩ := Prod.mk.inj read
          obtain ⟨first, rfl, _⟩ := ClauseTree.exists_clause firstRead
          have nonempty := first.length_text_pos
          rw [List.length_append] at enough enoughClauses
          exact induction rfl (by omega) (by omega)

namespace Grammar

variable {trees others : List ClauseTree} {rest behind : List Char}

/-- Clauses up to where no clause begins are the clauses that any front of the text begins
with and some more. -/
theorem ProgramFits.exists_more (fits : ProgramFits trees rest) (none : NoClause rest)
    (othersFit : ProgramFits others behind)
    (same : others.flatMap ClauseTree.text ++ behind = trees.flatMap ClauseTree.text ++ rest) :
    ∃ more, ProgramFits more rest ∧ behind = more.flatMap ClauseTree.text ++ rest := by
  induction others generalizing trees with
  | nil => exact ⟨trees, fits, same⟩
  | cons other others induction =>
      rw [List.flatMap_cons, List.append_assoc] at same
      cases trees with
      | nil => exact absurd same (none other _ othersFit.1)
      | cons first trees =>
          rw [List.flatMap_cons, List.append_assoc] at same
          obtain ⟨rfl, sameOthers⟩ := othersFit.1.unique fits.1 same
          exact induction fits.2 othersFit.2 sameOthers

/-- What is left after the layout before clauses is no shorter than what is left after
that behind them. -/
theorem ProgramFits.length_skipLayout_le (fits : ProgramFits trees rest) :
    (skipLayout rest).length ≤ (skipLayout (trees.flatMap ClauseTree.text ++ rest)).length := by
  cases trees with
  | nil => exact Nat.le_refl _
  | cons first trees =>
      obtain ⟨again, written, _⟩ := fits.1.exists_front (skipLayout_skipLayout _)
      have skipped := (dropLayout_suffix false rest).length_le
      rw [List.flatMap_cons, List.append_assoc, ← written]
      simp only [List.length_append]
      rw [skipLayout]
      omega

end Grammar

/-- Clauses and layout stand before a text that no clause begins. -/
structure StopsAt (text : List Char) (trees : List ClauseTree) (before : Layout)
    (rest : List Char) : Prop where
  written : trees.flatMap ClauseTree.text ++ (before.text ++ rest) = text
  clauses : Grammar.ProgramFits trees (before.text ++ rest)
  layout : before.Fits rest
  visible : skipLayout rest = rest
  noClause : NoClause (before.text ++ rest)

namespace StopsAt

variable {text front behind rest : List Char} {trees others : List ClauseTree}
  {before after : Layout}

theorem derives (stops : StopsAt text trees before rest) :
    Grammar.program.Derives (trees.flatMap ClauseTree.text ++ before.text) trees before := by
  have layout : before.Fits [] := stops.layout.before_lineEnd (by simp)
  exact Grammar.program_derives_iff.mpr ⟨rfl, stops.clauses.before_any _, layout⟩

theorem noClause_rest (stops : StopsAt text trees before rest) : NoClause rest := by
  have skipped := stops.noClause.skipLayout
  rwa [stops.layout.skipLayout_append, stops.visible] at skipped

theorem length_rest_le (stops : StopsAt text trees before rest)
    (derives : Grammar.program.Derives front others after) (split : text = front ++ behind) :
    rest.length ≤ behind.length := by
  obtain ⟨rfl, fits, afterFits⟩ := Grammar.program_derives_iff.mp derives
  have same : others.flatMap ClauseTree.text ++ (after.text ++ behind) =
      trees.flatMap ClauseTree.text ++ (before.text ++ rest) := by
    rw [stops.written, split, List.append_assoc]
  obtain ⟨more, moreFit, left⟩ :=
    stops.clauses.exists_more stops.noClause (fits.before_any (after.text ++ behind)) same
  calc
    rest.length = (skipLayout (before.text ++ rest)).length := by
      rw [stops.layout.skipLayout_append, stops.visible]
    _ ≤ (skipLayout (after.text ++ behind)).length := by
      rw [left]
      exact moreFit.length_skipLayout_le
    _ ≤ behind.length := afterFits.atEnd.length_skipLayout_le behind

end StopsAt

/-- A fault shows the place where reading stops. -/
theorem exists_stopsAt_of_rejected {text : String} {fault : Fault}
    (rejected : Clause.parseProgram text = .error fault) :
    ∃ trees before rest, StopsAt text.toList trees before rest ∧
      fault = faultAt .trailingText rest := by
  cases read : readClauses (text.toList.length + 1) (text.toList.length + 1) text.toList with
  | mk clauses behind =>
      obtain ⟨trees, written, fits, _⟩ := Grammar.exists_program read
      have noClause := noClause_of_readClauses read (Nat.lt_succ_self _) (Nat.le_succ _)
      obtain ⟨before, split, layout⟩ := exists_layout behind
      have fault_eq : fault = faultAt .trailingText (skipLayout behind) := by
        simp only [Clause.parseProgram, parseAll, read] at rejected
        split at rejected
        · cases rejected
        · exact (Except.error.inj rejected).symm
      rw [← split] at written fits noClause
      exact ⟨trees, before, skipLayout behind,
        ⟨written, fits, layout, skipLayout_skipLayout behind, noClause⟩, fault_eq⟩

end Source

open Source

/-- A text is split after the longest front of it that is a program. -/
structure SplitsAfterProgram (text accepted rest : String) : Prop where
  whole : text = accepted ++ rest
  parses : ∃ clauses, Clause.parseProgram accepted = .ok clauses
  longest : ∀ front behind clauses, text = front ++ behind →
    Clause.parseProgram front = .ok clauses → front.length ≤ accepted.length

theorem Source.StopsAt.splitsAfterProgram {text : String} {trees : List ClauseTree}
    {before : Layout} {rest : List Char}
    (stops : StopsAt text.toList trees before rest) :
    SplitsAfterProgram text (String.ofList (trees.flatMap ClauseTree.text ++ before.text))
      (String.ofList rest) where
  whole := by
    apply String.toList_inj.mp
    simp [← stops.written]
  parses := by
    refine ⟨_, Grammar.parseProgram_eq_ok_iff.mpr ⟨trees, before, ?_, rfl⟩⟩
    rw [String.toList_ofList]
    exact stops.derives
  longest front behind clauses split parsed := by
    obtain ⟨others, after, derives, _⟩ := Grammar.parseProgram_eq_ok_iff.mp parsed
    have characters : text.toList = front.toList ++ behind.toList := by
      rw [split, String.toList_append]
    have shorter := stops.length_rest_le derives characters
    have lengths := congrArg List.length (stops.written.trans characters)
    simp only [List.length_append] at lengths
    rw [String.length_ofList, List.length_append, ← String.length_toList]
    omega

/-- The fault of a text that is no program shows the text after the longest front of it
that is one: the first malformed clause begins there, since no front of what comes there is
a clause.  It says whether anything but blanks comes there. -/
theorem rejected_program_shows_malformed_clause {text : String} {fault : Fault}
    (rejected : Clause.parseProgram text = .error fault) :
    ∃ accepted rest cause, SplitsAfterProgram text accepted rest ∧
      (∀ front behind, rest = front ++ behind → ∀ clause, Clause.parse front ≠ .ok clause) ∧
      fault = .unreadable cause (String.ofList (rest.toList.take 32)) ∧
      cause.message = if rest.toList.all Text.isBlank then "unexpected end of input"
        else "unexpected input (End of file)" := by
  obtain ⟨trees, before, rest, stops, rfl⟩ := exists_stopsAt_of_rejected rejected
  refine ⟨_, _, if rest.all Text.isBlank then .endOfInput else .trailingText,
    stops.splitsAfterProgram, ?_, ?_, ?_⟩
  · intro front behind split clause parsed
    obtain ⟨tree, after, derives, _⟩ :=
      ((Grammar.clause_describes.decides _ front).accepts _).mp parsed
    have written : tree.text ++ after.text = front.toList := derives.written
    have fits : tree.Fits after.text := derives.fits
    apply stops.noClause_rest tree (after.text ++ behind.toList) (fits.before_any _)
    rw [← List.append_assoc, written, ← String.toList_append, ← split, String.toList_ofList]
  · rw [String.toList_ofList]
    rfl
  · rw [String.toList_ofList]
    split <;> rfl

/-- Reading stops after the comment, and the fault shows the first 32 characters from
there, though the goal that cannot be read comes later. -/
theorem rejected_program_shows_malformed_clause_cut :
    ∃ fault,
      Clause.parseProgram "p(a). % b\n q(X) :- r(X,), s(X, X), t(Y, Y). u." = .error fault ∧
      fault = .unreadable .trailingText "q(X) :- r(X,), s(X, X), t(Y, Y)." ∧
      ∃ accepted rest,
        SplitsAfterProgram "p(a). % b\n q(X) :- r(X,), s(X, X), t(Y, Y). u." accepted rest ∧
        ∀ front behind, rest = front ++ behind → ∀ clause, Clause.parse front ≠ .ok clause := by
  have rejected :
      Clause.parseProgram "p(a). % b\n q(X) :- r(X,), s(X, X), t(Y, Y). u." =
        .error (.unreadable .trailingText "q(X) :- r(X,), s(X, X), t(Y, Y).") := by
    decide +kernel
  obtain ⟨accepted, rest, _, splits, noClause, _⟩ :=
    rejected_program_shows_malformed_clause rejected
  exact ⟨_, rejected, rfl, accepted, rest, splits, noClause⟩

/-- A vertical tab is a blank, but it is no layout. -/
example : Clause.parseProgram "p.\x0b" = .error (.unreadable .endOfInput "\x0b") := by
  decide +kernel

end HornLogic
