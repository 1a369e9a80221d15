import HornLogic.Proofs.Source.Relayout

/-!
# Programs one after the other

A derivation looks no further than at the character after it, and after a clause not even
that far, since a full stop ends it.  So the clauses of a program are there whatever comes
after them.  A line end closes the comment that a program may end with, and the program
after it goes on as it would alone.
-/

namespace HornLogic

namespace Source

section

variable {rest later : List Char}

theorem EndsNamesAs.append (ends : EndsNamesAs rest later) (front : List Char) :
    EndsNamesAs (front ++ rest) (front ++ later) := by
  cases front with
  | nil => exact ends
  | cons c front => exact endsNamesAs_of_alike rfl

theorem head?_append_alike (front : List Char) (alike : later.head? = rest.head?) :
    (front ++ later).head? = (front ++ rest).head? := by
  rw [List.head?_append, List.head?_append, alike]

theorem endsNamesAs_mark (front : List Char) (mark : Char) :
    EndsNamesAs (front ++ mark :: rest) (front ++ mark :: later) :=
  endsNamesAs_of_alike (head?_append_alike front rfl)

/-- A derivation fits before every text that ends its last name. -/
theorem Tree.Fits.before {kind : Nonterminal} {tree : Tree kind} (fits : tree.Fits rest)
    (ends : EndsNamesAs rest later) : tree.Fits later := by
  induction tree generalizing rest later with
  | group before inside closing induction =>
      obtain ⟨beforeFits, insideFits, closingFits⟩ := fits
      refine ⟨beforeFits.before_alike rfl, induction insideFits ?_, closingFits.before_alike rfl⟩
      exact endsNamesAs_mark _ _
  | identifier before first others =>
      obtain ⟨beforeFits, begins, run⟩ := fits
      exact ⟨beforeFits.before_alike rfl, begins, run.before ends isIdentifierRest_iff.mpr⟩
  | named before name args induction =>
      obtain ⟨beforeFits, nameFits, argsFit⟩ := fits
      obtain ⟨c, others, characters, _⟩ := nameFits.exists_text_eq_cons
      rw [characters] at beforeFits
      refine ⟨?_, nameFits.before (ends.append _), induction argsFit ends⟩
      rw [characters]
      exact beforeFits.before_alike rfl
  | noArguments => trivial
  | emptyArguments closing => exact Layout.Fits.before_alike fits rfl
  | someArguments inside closing induction =>
      obtain ⟨insideFits, closingFits⟩ := fits
      refine ⟨induction insideFits ?_, closingFits.before_alike rfl⟩
      exact endsNamesAs_mark _ _
  | single primary induction => exact induction fits ends
  | test left operator right leftInduction rightInduction =>
      obtain ⟨leftFits, operatorFits, rightFits⟩ := fits
      refine ⟨leftInduction leftFits ?_, operatorFits.before_alike rfl,
        rightInduction rightFits ends⟩
      exact endsNamesAs_mark _ _
  | last goal induction => exact induction fits ends
  | more goal comma others goalInduction othersInduction =>
      obtain ⟨goalFits, commaFits, othersFit⟩ := fits
      refine ⟨goalInduction goalFits ?_, commaFits.before_alike rfl,
        othersInduction othersFit ends⟩
      exact endsNamesAs_mark _ _

theorem ClauseTree.Fits.before_any {tree : ClauseTree} (fits : tree.Fits rest)
    (later : List Char) : tree.Fits later := by
  obtain ⟨headFits, bodyFits, stopFits⟩ := fits
  have afterBody : (tree.stop.text ++ '.' :: later).head? =
      (tree.stop.text ++ '.' :: rest).head? := head?_append_alike _ rfl
  refine ⟨headFits.before (endsNamesAs_of_alike (head?_append_alike _ afterBody)), ?_,
    stopFits.before_alike rfl⟩
  cases body : tree.body with
  | none => trivial
  | some both =>
      rw [body] at bodyFits
      exact ⟨bodyFits.1.before_alike rfl, bodyFits.2.before (endsNamesAs_of_alike afterBody)⟩

end

namespace Grammar

variable {trees others : List ClauseTree} {text rest : List Char} {after : Layout}

theorem ProgramFits.before_any (fits : ProgramFits trees rest) (later : List Char) :
    ProgramFits trees later := by
  induction trees with
  | nil => trivial
  | cons first trees induction => exact ⟨fits.1.before_any _, induction fits.2⟩

theorem Derives.after_clauses (derives : program.Derives text others after)
    (fits : ProgramFits trees rest) :
    program.Derives (trees.flatMap ClauseTree.text ++ text) (trees ++ others) after := by
  obtain ⟨rfl, othersFit, afterFits⟩ := program_derives_iff.mp derives
  refine program_derives_iff.mpr ⟨?_, ?_, afterFits⟩
  · rw [List.flatMap_append, List.append_assoc]
  · exact programFits_append.mpr ⟨fits.before_any _, othersFit⟩

end Grammar

end Source

open Source

/-- Two programs with a line end between them are one program, with the clauses of the
first one before those of the second one. -/
theorem parseProgram_append_line {first second : String} {clauses others : List Clause}
    (parsed : Clause.parseProgram first = .ok clauses)
    (otherParsed : Clause.parseProgram second = .ok others) :
    Clause.parseProgram (first ++ "\n" ++ second) = .ok (clauses ++ others) := by
  obtain ⟨trees, after, derives, rfl⟩ := Grammar.parseProgram_eq_ok_iff.mp parsed
  obtain ⟨otherTrees, otherAfter, otherDerives, rfl⟩ :=
    Grammar.parseProgram_eq_ok_iff.mp otherParsed
  obtain ⟨written, fits, afterFits⟩ := Grammar.program_derives_iff.mp derives
  have lineFits : after.Fits ('\n' :: second.toList) :=
    afterFits.before_lineEnd (by simp [EndsLine])
  have same : skipLayout (after.text ++ '\n' :: second.toList) = skipLayout second.toList :=
    lineFits.skipLayout_append
  obtain ⟨again, newAfter, newDerives, values, _⟩ := otherDerives.exists_front same
  refine Grammar.parseProgram_eq_ok_iff.mpr ⟨trees ++ again, newAfter, ?_, ?_⟩
  · have whole := newDerives.after_clauses fits
    rw [← List.append_assoc, written] at whole
    simpa using whole
  · rw [List.map_append, values, List.map_append]

/-- The comment at the end of the first program ends with its line, and the anonymous
variables of the second one are counted as in that program alone. -/
theorem parseProgram_append_line_after_comment :
    ∃ clauses others : List Clause,
      Clause.parseProgram "p(_, X). % q(_)." = .ok clauses ∧
      Clause.parseProgram "% a\nq(_) :- p(_, 'b')." = .ok others ∧
      Clause.parseProgram ("p(_, X). % q(_)." ++ "\n" ++ "% a\nq(_) :- p(_, 'b').") =
        .ok (clauses ++ others) ∧
      clauses = [⟨.app "p" [.var (freshName 1 "_"), .var "X"], []⟩] ∧
      others = [⟨.app "q" [.var (freshName 1 "_")],
        [.app "p" [.var (freshName 2 "_"), .atom "b"]]⟩] := by
  have parsed : Clause.parseProgram "p(_, X). % q(_)." =
      .ok [⟨.app "p" [.var (freshName 1 "_"), .var "X"], []⟩] := by
    decide +kernel
  have otherParsed : Clause.parseProgram "% a\nq(_) :- p(_, 'b')." =
      .ok [⟨.app "q" [.var (freshName 1 "_")],
        [.app "p" [.var (freshName 2 "_"), .atom "b"]]⟩] := by
    decide +kernel
  exact ⟨_, _, parsed, otherParsed, parseProgram_append_line parsed otherParsed, rfl, rfl⟩

end HornLogic
