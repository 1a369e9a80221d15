import HornLogic.Proofs.Source.RejectedPrograms

/-!
# The parsers agree

Terms, queries, clauses and programs share their goals.  So a term is a query, a clause is
a program of one clause, and what may stand as the body of a clause is what may stand as a
query that has no prompt and no full stop.  A line end before the full stop of the clause
closes the comment that the body may end with.
-/

namespace HornLogic

namespace Source

/-- What is left after layout is left also before more text. -/
theorem dropLayout_append {inComment : Bool} {text : List Char}
    (left : dropLayout inComment text ≠ []) (rest : List Char) :
    dropLayout inComment (text ++ rest) = dropLayout inComment text ++ rest := by
  fun_induction dropLayout inComment text with
  | case1 inComment => exact absurd rfl left
  | case2 c text induction => exact induction left
  | case3 c text layout induction => simpa [dropLayout, layout] using induction left
  | case4 text layout induction => simpa [dropLayout, layout] using induction left
  | case5 c text layout mark => simp [dropLayout, layout, mark]

theorem atEnd_of_length_le {front rest : List Char}
    (short : (skipLayout (front ++ rest)).length ≤ rest.length) : AtEnd front := by
  by_contra left
  have longer : (skipLayout (front ++ rest)).length = (skipLayout front).length + rest.length := by
    rw [skipLayout, dropLayout_append left, List.length_append, skipLayout]
  have some : 0 < (skipLayout front).length := List.length_pos_of_ne_nil left
  omega

theorem AtEnd.after_lineEnd {front rest : List Char} (atEnd : AtEnd (front ++ '\n' :: rest)) :
    AtEnd rest := by
  have frontAtEnd : AtEnd front := atEnd_of_length_le (by rw [atEnd]; exact Nat.zero_le _)
  obtain ⟨within, onwards⟩ := dropLayout_append_of_atEnd frontAtEnd
  have later : dropLayout within ('\n' :: rest) = [] := (onwards _).symm.trans atEnd
  cases within with
  | true => exact later
  | false => exact later

theorem eq_nil_or_of_append_eq_concat {front rest text : List Char} {c : Char}
    (same : front ++ rest = text ++ [c]) :
    rest = [] ∨ ∃ before, rest = before ++ [c] ∧ front ++ before = text := by
  rcases List.eq_nil_or_concat' rest with rfl | ⟨before, last, rfl⟩
  · exact .inl rfl
  · rw [← List.append_assoc] at same
    obtain ⟨fronts, lasts⟩ := List.append_inj' same rfl
    cases lasts
    exact .inr ⟨before, rfl, fronts⟩

theorem last_visible_append {front rest : List Char}
    (frontVisible : ∀ c ∈ front.getLast?, Text.isBlank c = false)
    (restVisible : ∀ c ∈ rest.getLast?, Text.isBlank c = false) :
    ∀ c ∈ (front ++ rest).getLast?, Text.isBlank c = false := by
  cases rest with
  | nil => rwa [List.append_nil]
  | cons first others => rwa [List.getLast?_append_of_ne_nil front (List.cons_ne_nil _ _)]

theorem last_visible_mark {mark : Char} (front : List Char) {rest : List Char}
    (markVisible : Text.isBlank mark = false)
    (restVisible : ∀ c ∈ rest.getLast?, Text.isBlank c = false) :
    ∀ c ∈ (front ++ mark :: rest).getLast?, Text.isBlank c = false := by
  rw [List.getLast?_append_of_ne_nil front (List.cons_ne_nil _ _), ← List.singleton_append]
  exact last_visible_append (by simpa using markVisible) restVisible

/-- The last character of what is derived is no blank. -/
theorem Tree.Fits.last_visible {kind : Nonterminal} {tree : Tree kind} {rest : List Char}
    (fits : tree.Fits rest) : ∀ c ∈ tree.text.getLast?, Text.isBlank c = false := by
  have closed : ∀ front : List Char, ∀ c ∈ (front ++ [')']).getLast?, Text.isBlank c = false :=
    fun front => last_visible_mark front (by decide) (by simp)
  induction tree generalizing rest with
  | group before inside closing induction =>
      have visible := closed (before.text ++ '(' :: (inside.text ++ closing.text))
      simpa only [text, List.append_assoc, List.cons_append] using visible
  | identifier before first others =>
      obtain ⟨_, begins, run⟩ := fits
      have start := not_isBlank_of_isTermStart begins.isTermStart
      refine last_visible_mark before.text start fun c last => ?_
      exact not_isBlank_of_isIdentifierRest
        (isIdentifierRest_iff.mpr (run.1 c (List.mem_of_mem_getLast? last)))
  | named before name args induction =>
      obtain ⟨_, nameFits, argsFit⟩ := fits
      obtain ⟨c, others, characters, _⟩ := nameFits.exists_text_eq_cons
      have visible := last_visible_append nameFits.last_visible (induction argsFit)
      rw [text, List.getLast?_append_of_ne_nil _ (by simp [characters])]
      exact visible
  | noArguments => simp
  | emptyArguments closing => exact closed ('(' :: closing.text)
  | someArguments inside closing induction =>
      have visible := closed ('(' :: (inside.text ++ closing.text))
      simpa only [text, List.append_assoc, List.cons_append] using visible
  | single primary induction => exact induction fits
  | test left operator right leftInduction rightInduction =>
      have visible := last_visible_mark (left.text ++ (operator.text ++ ['\\']))
        (by decide : Text.isBlank '=' = false) (rightInduction fits.2.2)
      simpa only [text, List.append_assoc, List.cons_append, List.nil_append] using visible
  | last goal induction => exact induction fits
  | more goal comma others goalInduction othersInduction =>
      have visible := last_visible_mark (goal.text ++ comma.text)
        (by decide : Text.isBlank ',' = false) (othersInduction fits.2.2)
      simpa only [text, List.append_assoc] using visible

theorem Tree.Fits.exists_front_goal {tree : Tree .goal} {rest text : List Char}
    (fits : tree.Fits rest) (same : skipLayout text = skipLayout (tree.text ++ rest)) :
    ∃ again : Tree .goal, again.text ++ rest = text ∧ again.Fits rest ∧
      again.value = tree.value := by
  cases tree with
  | single primary =>
      obtain ⟨again, written, againFits, value, _⟩ := Tree.Fits.exists_front fits same
      exact ⟨.single again, written, againFits, value⟩
  | test left operator right =>
      rw [text_test_append] at same
      obtain ⟨again, written, againFits, value, _⟩ := fits.1.exists_front same
      exact ⟨.test again operator right, by rw [text_test_append, written],
        ⟨againFits, fits.2⟩, by simp [value]⟩

/-- The layout in front of goals can be replaced by that before any text that goes on in the
same way. -/
theorem Tree.Fits.exists_front_goals {tree : Tree .goals} {rest text : List Char}
    (fits : tree.Fits rest) (same : skipLayout text = skipLayout (tree.text ++ rest)) :
    ∃ again : Tree .goals, again.text ++ rest = text ∧ again.Fits rest ∧
      again.value = tree.value := by
  cases tree with
  | last goal =>
      obtain ⟨again, written, againFits, value⟩ := Tree.Fits.exists_front_goal fits same
      exact ⟨.last again, written, againFits, by simp [value]⟩
  | more goal comma others =>
      rw [text_more_append] at same
      obtain ⟨again, written, againFits, value⟩ := fits.1.exists_front_goal same
      exact ⟨.more again comma others, by rw [text_more_append, written],
        ⟨againFits, fits.2⟩, by simp [value]⟩

/-- The head `p`. -/
def plainHead : Tree .primary :=
  .named .none (.plain 'p' []) .noArguments

theorem plainHead_fits (rest : List Char) : plainHead.Fits (' ' :: rest) := by
  refine ⟨trivial, ⟨isLower_iff.mp (by decide), by simp, ?_⟩, trivial⟩
  intro c member
  cases member
  exact mt isIdentifierRest_iff.mpr (by decide)

/-- The clause with the head `p` that has this text as its body. -/
def clauseWithBody (text : List Char) : List Char :=
  'p' :: ' ' :: ':' :: '-' :: ' ' :: (text ++ ['\n', '.'])

section

variable {text : List Char} {tree : ClauseTree} {goals : Tree .goals} {stop after : Layout}

theorem clauseWithBody_text (text : List Char) :
    clauseWithBody text = plainHead.text ++
      ((Layout.blank ' ' .none).text ++ ':' :: '-' :: ' ' :: (text ++ ['\n', '.'])) :=
  rfl

theorem exists_goals_of_clause
    (derives : Grammar.clause.Derives (clauseWithBody text) tree after) :
    ∃ goals : Tree .goals, ∃ stop : Layout,
      tree.value = ⟨.atom "p", goals.value.1 :: goals.value.2⟩ ∧
      goals.text ++ (stop.text ++ '.' :: after.text) = ' ' :: (text ++ ['\n', '.']) ∧
      goals.Fits (stop.text ++ '.' :: after.text) ∧ stop.Fits ('.' :: after.text) := by
  have written : tree.text ++ after.text = clauseWithBody text := derives.written
  have fits : tree.Fits after.text := derives.fits
  rw [ClauseTree.text_append, clauseWithBody_text] at written
  have follows : FollowsTerm ((Layout.blank ' ' .none).text ++
      ':' :: '-' :: ' ' :: (text ++ ['\n', '.'])) :=
    @followsTerm_cons ' ' (by decide) (by decide) _
  obtain ⟨headSame, rests⟩ := tree.head.isUnique fits.1 (plainHead_fits _) fits.followsHead
    follows written
  have arrowFits : (Layout.blank ' ' .none).Fits (':' :: '-' :: ' ' :: (text ++ ['\n', '.'])) :=
    ⟨.inl rfl, trivial⟩
  obtain ⟨head, body, stop⟩ := tree
  obtain rfl : head = plainHead := headSame
  cases body with
  | none =>
      obtain ⟨_, differs, _⟩ := fits.2.2.unique_cons arrowFits rests
      cases differs
  | some both =>
      obtain ⟨arrow, goals⟩ := both
      rw [ClauseTree.bodyText_some_append] at rests
      obtain ⟨_, _, goalsWritten⟩ := fits.2.1.1.unique_cons arrowFits rests
      exact ⟨goals, stop, rfl, (List.cons.inj goalsWritten).2, fits.2.1.2, fits.2.2⟩

theorem query_derives_bare_iff :
    Grammar.query.Derives text ⟨none, goals, none⟩ after ↔
      goals.text ++ after.text = text ∧ goals.Fits after.text ∧ after.Fits [] := by
  constructor
  · rintro ⟨written, ⟨_, fits, _⟩, atEnd⟩
    exact ⟨by simpa [Grammar.query, QueryTree.text, optionalToken] using written, fits, atEnd⟩
  · rintro ⟨written, fits, atEnd⟩
    exact ⟨by simpa [Grammar.query, QueryTree.text, optionalToken] using written,
      ⟨by simp, fits, by simp⟩, atEnd⟩

theorem after_eq_nil (afterAtEnd : AtEnd after.text)
    (written : goals.text ++ (stop.text ++ '.' :: after.text) = ' ' :: (text ++ ['\n', '.'])) :
    after.text = [] := by
  have noLayout : ¬ AtEnd ['.'] := by
    intro atEnd
    cases atEnd
  have whole : (goals.text ++ (stop.text ++ ['.'])) ++ after.text =
      ((' ' :: text) ++ ['\n']) ++ ['.'] := by simpa using written
  rcases eq_nil_or_of_append_eq_concat whole with none | ⟨before, ends, front⟩
  · exact none
  · rcases eq_nil_or_of_append_eq_concat front with rfl | ⟨earlier, rfl, _⟩
    · rw [ends] at afterAtEnd
      exact absurd afterAtEnd noLayout
    · rw [ends, List.append_assoc] at afterAtEnd
      exact absurd (AtEnd.after_lineEnd afterAtEnd) noLayout

theorem exists_query_of_goals (afterAtEnd : AtEnd after.text)
    (written : goals.text ++ (stop.text ++ '.' :: after.text) = ' ' :: (text ++ ['\n', '.']))
    (fits : goals.Fits (stop.text ++ '.' :: after.text))
    (stopFits : stop.Fits ('.' :: after.text)) :
    ∃ again : Tree .goals, ∃ queryAfter,
      Grammar.query.Derives text ⟨none, again, none⟩ queryAfter ∧ again.value = goals.value := by
  have ended : after.text = [] := after_eq_nil afterAtEnd written
  rw [ended] at written fits stopFits
  have whole : goals.text ++ stop.text = (' ' :: text) ++ ['\n'] := by
    have more : (goals.text ++ stop.text) ++ ['.'] = (' ' :: text ++ ['\n']) ++ ['.'] := by
      simpa using written
    exact List.append_cancel_right more
  obtain none | ⟨before, stopText, front⟩ := eq_nil_or_of_append_eq_concat whole
  · -- The line end is no part of the goals.
    rw [none, List.append_nil] at whole
    have visible := fits.last_visible '\n' (by rw [whole, List.getLast?_concat]; rfl)
    cases visible
  · have beforeAtEnd : AtEnd before := by
      apply atEnd_of_length_le
      have skipped : skipLayout (before ++ ['\n', '.']) = ['.'] := by
        have stopSkipped := stopFits.skipLayout_append
        rwa [stopText, List.append_assoc] at stopSkipped
      rw [skipped]
      exact Nat.le_succ 1
    obtain ⟨queryAfter, rfl, afterFits⟩ := beforeAtEnd.exists_layout
    have ends : EndsName queryAfter.text := by
      have ends := afterFits.endsName (by simp [EndsName])
      rwa [List.append_nil] at ends
    have same : skipLayout text = skipLayout (goals.text ++ queryAfter.text) := by
      rw [front]
      rfl
    obtain ⟨again, againWritten, againFits, value⟩ :=
      (fits.before ends.endsNamesAs).exists_front_goals same
    exact ⟨again, queryAfter, query_derives_bare_iff.mpr ⟨againWritten, againFits, afterFits⟩,
      value⟩

theorem exists_clause_of_query
    (derives : Grammar.query.Derives text ⟨none, goals, none⟩ after) :
    ∃ tree : ClauseTree, Grammar.clause.Derives (clauseWithBody text) tree .none ∧
      tree.value = ⟨.atom "p", goals.value.1 :: goals.value.2⟩ := by
  obtain ⟨written, fits, afterFits⟩ := query_derives_bare_iff.mp derives
  have lineFits : after.Fits ['\n', '.'] := afterFits.before_lineEnd (by simp [EndsLine])
  obtain ⟨stop, stopWritten, stopFits⟩ := exists_layout (after.text ++ ['\n', '.'])
  have skipped : skipLayout (after.text ++ ['\n', '.']) = ['.'] := lineFits.skipLayout_append
  rw [skipped] at stopWritten stopFits
  have ends : EndsName (stop.text ++ ['.']) := stopFits.endsName (endsName_mark (by decide) [])
  have same : skipLayout (' ' :: (text ++ ['\n', '.'])) =
      skipLayout (goals.text ++ (stop.text ++ ['.'])) := by
    rw [stopWritten, ← List.append_assoc, written]
    rfl
  obtain ⟨again, againWritten, againFits, value⟩ :=
    (fits.before ends.endsNamesAs).exists_front_goals same
  refine ⟨⟨plainHead, some (.blank ' ' .none, again), stop⟩,
    ⟨?_, ⟨plainHead_fits _, ⟨⟨.inl rfl, trivial⟩, againFits⟩, stopFits⟩, trivial⟩, ?_⟩
  · have whole := congrArg (plainHead.text ++ (Layout.blank ' ' .none).text ++ ':' :: '-' :: ·)
      againWritten
    simpa [Grammar.clause, ClauseTree.text, ClauseTree.bodyText, clauseWithBody_text,
      Layout.text] using whole
  · rw [← value]
    rfl

end

/-- A clause alone is derived as a program of this clause. -/
theorem program_derives_singleton_iff {text : List Char} {tree : ClauseTree} {after : Layout} :
    Grammar.program.Derives text [tree] after ↔ Grammar.clause.Derives text tree after := by
  rw [Grammar.program_derives_iff, List.flatMap_singleton]
  constructor
  · rintro ⟨written, fits, atEnd⟩
    exact ⟨written, fits.1, atEnd⟩
  · rintro ⟨written, fits, atEnd⟩
    exact ⟨written, ⟨fits, trivial⟩, atEnd⟩

end Source

/-- The anonymous variables of goals get the same numbers when the goals are joined. -/
theorem Term.conjunction_numberAnonymousArgs (used : Nat) (first : Term) (others : List Term) :
    conjunction (numberAnonymousArgs used (first :: others)).1 =
      some ((joinGoals first others).numberAnonymous used).1 := by
  induction others generalizing used first with
  | nil => rfl
  | cons second others induction =>
      have onwards := induction (first.numberAnonymous used).2 second
      simp only [numberAnonymousArgs, conjunction, Option.some_inj] at onwards
      simp only [numberAnonymousArgs, conjunction, joinGoals, both, numberAnonymous, onwards]

/-- The head `p` has no anonymous variables, so those of the body are counted from one. -/
theorem Clause.nameAnonymous_plainHead (goals : Term × List Term) :
    (Clause.nameAnonymous ⟨.atom "p", goals.1 :: goals.2⟩).head = .atom "p" ∧
      Term.conjunction (Clause.nameAnonymous ⟨.atom "p", goals.1 :: goals.2⟩).body =
        some (Term.joinGoals goals.1 goals.2).nameAnonymous :=
  ⟨rfl, Term.conjunction_numberAnonymousArgs 0 goals.1 goals.2⟩

open Source

theorem toList_clauseWithBody (text : String) :
    ("p :- " ++ text ++ "\n.").toList = clauseWithBody text.toList := by
  simp [clauseWithBody]

/-- A text is a query if it is a term, and a program of one clause if it is this clause.
It is the body of a clause just if it is a query without prompt and full stop, and then its
goals are those of the query. -/
theorem parsers_agree (text : String) :
    (∀ term, Term.parse text = .ok term → Term.parseQuery text = .ok term) ∧
    (∀ clause, Clause.parse text = .ok clause ↔ Clause.parseProgram text = .ok [clause]) ∧
    (∀ clause, Clause.parse ("p :- " ++ text ++ "\n.") = .ok clause →
      clause.head = .atom "p" ∧
        ∃ query, Term.parseQuery text = .ok query ∧
          Term.conjunction clause.body = some query) ∧
    ∀ query, Term.parseQuery text = .ok query →
      (∀ (tree : QueryTree) after, Grammar.query.Derives text.toList tree after →
        tree.prompt = none ∧ tree.stop = none) →
      ∃ clause, Clause.parse ("p :- " ++ text ++ "\n.") = .ok clause ∧
        clause.head = .atom "p" ∧ Term.conjunction clause.body = some query := by
  have queries := (Grammar.query_describes.decides Term.nameAnonymous text).accepts
  have clauses := (Grammar.clause_describes.decides Clause.nameAnonymous text).accepts
  have bodies := (Grammar.clause_describes.decides Clause.nameAnonymous
    ("p :- " ++ text ++ "\n.")).accepts
  rw [toList_clauseWithBody] at bodies
  refine ⟨?_, ?_, ?_, ?_⟩
  · intro term parsed
    obtain ⟨tree, after, ⟨written, fits, atEnd⟩, rfl⟩ :=
      ((Grammar.term_describes.decides Term.nameAnonymous text).accepts term).mp parsed
    exact (queries _).mpr ⟨⟨none, .last tree, none⟩, after,
      query_derives_bare_iff.mpr ⟨written, fits, atEnd⟩, rfl⟩
  · intro clause
    rw [Grammar.parseProgram_eq_ok_iff]
    constructor
    · intro parsed
      obtain ⟨tree, after, derives, rfl⟩ := (clauses clause).mp parsed
      exact ⟨[tree], after, program_derives_singleton_iff.mpr derives, rfl⟩
    · rintro ⟨trees, after, derives, values⟩
      obtain ⟨tree, rfl⟩ : ∃ tree, trees = [tree] := by
        rw [← List.length_eq_one_iff]
        simpa using congrArg List.length values
      exact (clauses clause).mpr ⟨tree, after, program_derives_singleton_iff.mp derives,
        (List.cons.inj values).1⟩
  · intro clause parsed
    obtain ⟨tree, after, derives, rfl⟩ := (bodies clause).mp parsed
    obtain ⟨goals, stop, value, written, fits, stopFits⟩ := exists_goals_of_clause derives
    obtain ⟨again, queryAfter, queryDerives, goalsSame⟩ :=
      exists_query_of_goals derives.atEnd.atEnd written fits stopFits
    have named := Clause.nameAnonymous_plainHead goals.value
    rw [← value, ← goalsSame] at named
    exact ⟨named.1, _, (queries _).mpr ⟨_, queryAfter, queryDerives, rfl⟩, named.2⟩
  · intro query parsed bare
    obtain ⟨tree, after, derives, rfl⟩ := (queries query).mp parsed
    obtain ⟨prompt, goals, stop⟩ := tree
    obtain ⟨rfl, rfl⟩ : prompt = none ∧ stop = none := bare _ after derives
    obtain ⟨clauseTree, clauseDerives, value⟩ := exists_clause_of_query derives
    have named := Clause.nameAnonymous_plainHead goals.value
    rw [← value] at named
    exact ⟨_, (bodies _).mpr ⟨clauseTree, .none, clauseDerives, rfl⟩, named⟩

example : Clause.parse ("p :- " ++ "q(_), (_, X) % both." ++ "\n.") =
      .ok ⟨.atom "p", [.app "q" [.var "_#1"], .both (.var "_#2") (.var "X")]⟩ ∧
    Term.parseQuery "q(_), (_, X) % both." =
      .ok (.both (.app "q" [.var "_#1"]) (.both (.var "_#2") (.var "X"))) := by
  decide +kernel

end HornLogic
