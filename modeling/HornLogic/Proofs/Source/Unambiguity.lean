import HornLogic.Proofs.Source.Derivations

/-!
# Derivations are unique

Two derivations from one nonterminal that make up the same text, each before something
that does not belong to it, are the same derivation.  Layout before a part ends where
the part begins; the first character tells a group, a variable and a name apart; and
where one derivation ends and the other goes on, the token with which it goes on would
stand in what follows the first one.
-/

namespace HornLogic.Source

theorem Layout.Fits.not_followsGoal {operator : Layout} {rest : List Char}
    (fits : operator.Fits ('\\' :: '=' :: rest)) :
    ¬ FollowsGoal (operator.text ++ '\\' :: '=' :: rest) := by
  intro follows
  have operates : Source.token? ['\\', '='] (operator.text ++ '\\' :: '=' :: rest) = some rest :=
    fits.token? (by decide)
  rw [follows.noTest] at operates
  cases operates

theorem Layout.Fits.not_followsGoals {comma : Layout} {rest : List Char}
    (fits : comma.Fits (',' :: rest)) : ¬ FollowsGoals (comma.text ++ ',' :: rest) := by
  intro follows
  have separates : Source.token? [','] (comma.text ++ ',' :: rest) = some rest :=
    @Layout.Fits.token? comma ',' [] rest fits (by decide)
  rw [follows.noComma] at separates
  cases separates

namespace Tree

/-- The first character of a term says how it is derived. -/
def OpensWith (c : Char) : Tree .primary → Prop
  | .group _ _ _ => c = '('
  | .identifier _ _ _ => isVariableStart c = true
  | .named _ _ _ => isNameStart c = true

theorem Fits.exists_opensWith {tree : Tree .primary} {rest : List Char}
    (fits : tree.Fits rest) :
    ∃ c, (skipLayout (tree.text ++ rest)).head? = some c ∧ tree.OpensWith c := by
  cases tree with
  | group before inside closing =>
      refine ⟨'(', ?_, rfl⟩
      rw [text_group_append, fits.1.skipLayout_append, skipLayout_termStart (by decide)]
      rfl
  | identifier before first others =>
      refine ⟨first, ?_, isVariableStart_iff.mpr fits.2.1⟩
      rw [text_identifier_append, fits.1.skipLayout_append,
        skipLayout_termStart fits.2.1.isTermStart]
      rfl
  | named before name args =>
      obtain ⟨c, others, characters, start⟩ := fits.2.1.exists_text_eq_cons
      refine ⟨c, ?_, start⟩
      rw [text_named_append, fits.1.skipLayout_append, characters, List.cons_append,
        skipLayout_termStart (isTermStart_of_isNameStart start)]
      rfl

/-- Terms that make up the same text open with the same character. -/
theorem Fits.open_alike {tree other : Tree .primary} {rest otherRest : List Char}
    (fits : tree.Fits rest) (otherFits : other.Fits otherRest)
    (same : tree.text ++ rest = other.text ++ otherRest) :
    ∃ c, tree.OpensWith c ∧ other.OpensWith c := by
  obtain ⟨c, front, opens⟩ := fits.exists_opensWith
  obtain ⟨otherFirst, otherFront, otherOpens⟩ := otherFits.exists_opensWith
  rw [same, otherFront] at front
  obtain rfl : otherFirst = c := Option.some.inj front
  exact ⟨otherFirst, opens, otherOpens⟩

/-- No other derivation makes up the same text as this one. -/
def IsUnique {kind : Nonterminal} (tree : Tree kind) : Prop :=
  ∀ {other : Tree kind} {rest otherRest : List Char}, tree.Fits rest → other.Fits otherRest →
    kind.Follows rest → kind.Follows otherRest →
    tree.text ++ rest = other.text ++ otherRest → tree = other ∧ rest = otherRest

theorem IsUnique.closed {inside other : Tree .goals} (unique : inside.IsUnique)
    {closing otherClosing : Layout} {rest otherRest : List Char}
    (insideFits : inside.Fits (closing.text ++ ')' :: rest))
    (closingFits : closing.Fits (')' :: rest))
    (otherFits : other.Fits (otherClosing.text ++ ')' :: otherRest))
    (otherClosingFits : otherClosing.Fits (')' :: otherRest))
    (same : inside.text ++ (closing.text ++ ')' :: rest) =
      other.text ++ (otherClosing.text ++ ')' :: otherRest)) :
    inside = other ∧ closing = otherClosing ∧ rest = otherRest := by
  obtain ⟨insides, sameClosing⟩ := unique insideFits otherFits
    (closingFits.followsGoals (followsGoals_closing rest))
    (otherClosingFits.followsGoals (followsGoals_closing otherRest)) same
  obtain ⟨closings, _, rests⟩ := closingFits.unique_cons otherClosingFits sameClosing
  exact ⟨insides, closings, rests⟩

theorem isUnique_group {inside : Tree .goals} (unique : inside.IsUnique)
    (before closing : Layout) : (group before inside closing).IsUnique := by
  intro other rest otherRest fits otherFits _ _ same
  obtain ⟨c, rfl, opens⟩ := fits.open_alike otherFits same
  cases other with
  | identifier otherBefore first others => cases opens
  | named otherBefore name args => cases opens
  | group otherBefore otherInside otherClosing =>
      obtain ⟨beforeFits, insideFits, closingFits⟩ := fits
      obtain ⟨otherBeforeFits, otherInsideFits, otherClosingFits⟩ := otherFits
      rw [text_group_append, text_group_append] at same
      obtain ⟨rfl, _, sameInside⟩ := beforeFits.unique_cons otherBeforeFits same
      obtain ⟨rfl, rfl, rfl⟩ := unique.closed insideFits closingFits otherInsideFits
        otherClosingFits sameInside
      exact ⟨rfl, rfl⟩

theorem isUnique_identifier (before : Layout) (first : Char) (others : List Char) :
    (identifier before first others).IsUnique := by
  intro other rest otherRest fits otherFits _ _ same
  obtain ⟨c, starts, opens⟩ := fits.open_alike otherFits same
  cases other with
  | group otherBefore inside closing =>
      cases opens
      cases starts
  | named otherBefore name args =>
      have noVariable := not_isVariableStart_of_isNameStart opens
      rw [OpensWith, noVariable] at starts
      cases starts
  | identifier otherBefore otherFirst otherOthers =>
      obtain ⟨beforeFits, begins, run⟩ := fits
      obtain ⟨otherBeforeFits, otherBegins, otherRun⟩ := otherFits
      rw [text_identifier_append, text_identifier_append] at same
      obtain ⟨rfl, rfl, sameOthers⟩ := beforeFits.unique_cons otherBeforeFits same
        (isSolid_of_isTermStart begins.isTermStart)
        (isSolid_of_isTermStart otherBegins.isTermStart)
      obtain ⟨rfl, rfl⟩ := run.unique otherRun sameOthers
      exact ⟨rfl, rfl⟩

theorem isUnique_named {args : Tree .arguments} (unique : args.IsUnique)
    (before : Layout) (name : NameTree) : (named before name args).IsUnique := by
  intro other rest otherRest fits otherFits follows otherFollows same
  obtain ⟨c, starts, opens⟩ := fits.open_alike otherFits same
  cases other with
  | group otherBefore inside closing =>
      cases opens
      cases starts
  | identifier otherBefore first others =>
      have noVariable := not_isVariableStart_of_isNameStart starts
      rw [OpensWith, noVariable] at opens
      cases opens
  | named otherBefore otherName otherArgs =>
      obtain ⟨beforeFits, nameFits, argsFit⟩ := fits
      obtain ⟨otherBeforeFits, otherNameFits, otherArgsFit⟩ := otherFits
      rw [text_named_append, text_named_append] at same
      obtain ⟨rfl, sameNames⟩ := beforeFits.unique otherBeforeFits
        (nameFits.skipLayout_append _) (otherNameFits.skipLayout_append _) same
      obtain ⟨rfl, sameArgs⟩ := nameFits.unique otherNameFits sameNames
      obtain ⟨rfl, rfl⟩ := unique argsFit otherArgsFit follows otherFollows sameArgs
      exact ⟨rfl, rfl⟩

/-- No text begins with arguments in parentheses if it may follow a term. -/
theorem not_followsTerm_open (rest : List Char) : ¬ FollowsTerm ('(' :: rest) :=
  fun follows => follows.noArguments '(' rfl rfl

theorem Fits.ne_closing {goals : Tree .goals} {closing : Layout} {rest otherRest : List Char}
    (fits : goals.Fits otherRest) (closingFits : closing.Fits (')' :: rest)) :
    goals.text ++ otherRest ≠ closing.text ++ ')' :: rest := by
  intro same
  obtain ⟨c, others, front, start⟩ := fits.skipLayout_append (by simp)
  rw [same, closingFits.skipLayout_append, skipLayout_solid (by decide)] at front
  cases front
  cases start

theorem isUnique_noArguments : noArguments.IsUnique := by
  intro other rest otherRest _ _ follows _ same
  have begins : rest = other.text ++ otherRest := same
  subst begins
  cases other with
  | noArguments => exact ⟨rfl, rfl⟩
  | emptyArguments closing => exact absurd follows (not_followsTerm_open _)
  | someArguments inside closing => exact absurd follows (not_followsTerm_open _)

theorem isUnique_emptyArguments (closing : Layout) : (emptyArguments closing).IsUnique := by
  intro other rest otherRest fits otherFits _ otherFollows same
  cases other with
  | noArguments =>
      have begins : (emptyArguments closing).text ++ rest = otherRest := same
      subst begins
      exact absurd otherFollows (not_followsTerm_open _)
  | emptyArguments otherClosing =>
      rw [text_emptyArguments_append, text_emptyArguments_append] at same
      obtain ⟨rfl, _, rfl⟩ := Layout.Fits.unique_cons fits otherFits (List.cons.inj same).2
      exact ⟨rfl, rfl⟩
  | someArguments inside otherClosing =>
      rw [text_emptyArguments_append, text_someArguments_append] at same
      exact absurd (List.cons.inj same).2.symm (otherFits.1.ne_closing fits)

theorem isUnique_someArguments {inside : Tree .goals} (unique : inside.IsUnique)
    (closing : Layout) : (someArguments inside closing).IsUnique := by
  intro other rest otherRest fits otherFits _ otherFollows same
  cases other with
  | noArguments =>
      have begins : (someArguments inside closing).text ++ rest = otherRest := same
      subst begins
      exact absurd otherFollows (not_followsTerm_open _)
  | emptyArguments otherClosing =>
      rw [text_someArguments_append, text_emptyArguments_append] at same
      exact absurd (List.cons.inj same).2 (fits.1.ne_closing otherFits)
  | someArguments otherInside otherClosing =>
      rw [text_someArguments_append, text_someArguments_append] at same
      obtain ⟨rfl, rfl, rfl⟩ := unique.closed fits.1 fits.2 otherFits.1 otherFits.2
        (List.cons.inj same).2
      exact ⟨rfl, rfl⟩

theorem isUnique_single {primary : Tree .primary} (unique : primary.IsUnique) :
    (single primary).IsUnique := by
  intro other rest otherRest fits otherFits follows otherFollows same
  have follows : FollowsGoal rest := follows
  have otherFollows : FollowsGoal otherRest := otherFollows
  cases other with
  | single otherPrimary =>
      obtain ⟨rfl, rfl⟩ := unique fits otherFits follows.toFollowsTerm
        otherFollows.toFollowsTerm same
      exact ⟨rfl, rfl⟩
  | test left operator right =>
      obtain ⟨leftFits, operatorFits, _⟩ := otherFits
      rw [text_test_append] at same
      obtain ⟨_, rfl⟩ := unique fits leftFits follows.toFollowsTerm
        (followsTerm_operator operatorFits) same
      exact absurd follows operatorFits.not_followsGoal

theorem isUnique_test {left right : Tree .primary} (leftUnique : left.IsUnique)
    (rightUnique : right.IsUnique) (operator : Layout) :
    (test left operator right).IsUnique := by
  intro other rest otherRest fits otherFits follows otherFollows same
  have follows : FollowsGoal rest := follows
  have otherFollows : FollowsGoal otherRest := otherFollows
  obtain ⟨leftFits, operatorFits, rightFits⟩ := fits
  rw [text_test_append] at same
  cases other with
  | single otherPrimary =>
      obtain ⟨_, rfl⟩ := leftUnique leftFits otherFits (followsTerm_operator operatorFits)
        otherFollows.toFollowsTerm same
      exact absurd otherFollows operatorFits.not_followsGoal
  | test otherLeft otherOperator otherRight =>
      obtain ⟨otherLeftFits, otherOperatorFits, otherRightFits⟩ := otherFits
      rw [text_test_append] at same
      obtain ⟨rfl, sameOperator⟩ := leftUnique leftFits otherLeftFits
        (followsTerm_operator operatorFits) (followsTerm_operator otherOperatorFits) same
      obtain ⟨rfl, _, sameRight⟩ := operatorFits.unique_cons otherOperatorFits sameOperator
      obtain ⟨rfl, rfl⟩ := rightUnique rightFits otherRightFits follows.toFollowsTerm
        otherFollows.toFollowsTerm (List.cons.inj sameRight).2
      exact ⟨rfl, rfl⟩

theorem isUnique_last {goal : Tree .goal} (unique : goal.IsUnique) :
    (last goal).IsUnique := by
  intro other rest otherRest fits otherFits follows otherFollows same
  have follows : FollowsGoals rest := follows
  have otherFollows : FollowsGoals otherRest := otherFollows
  cases other with
  | last otherGoal =>
      obtain ⟨rfl, rfl⟩ := unique fits otherFits follows.toFollowsGoal
        otherFollows.toFollowsGoal same
      exact ⟨rfl, rfl⟩
  | more otherGoal comma others =>
      obtain ⟨otherGoalFits, commaFits, _⟩ := otherFits
      rw [text_more_append] at same
      obtain ⟨_, rfl⟩ := unique fits otherGoalFits follows.toFollowsGoal
        (commaFits.followsGoal (followsGoal_comma _)) same
      exact absurd follows commaFits.not_followsGoals

theorem isUnique_more {goal : Tree .goal} {others : Tree .goals}
    (goalUnique : goal.IsUnique) (othersUnique : others.IsUnique) (comma : Layout) :
    (more goal comma others).IsUnique := by
  intro other rest otherRest fits otherFits follows otherFollows same
  have otherFollows : FollowsGoals otherRest := otherFollows
  obtain ⟨goalFits, commaFits, othersFit⟩ := fits
  have goalFollows := commaFits.followsGoal (followsGoal_comma (others.text ++ rest))
  rw [text_more_append] at same
  cases other with
  | last otherGoal =>
      obtain ⟨_, rfl⟩ := goalUnique goalFits otherFits goalFollows
        otherFollows.toFollowsGoal same
      exact absurd otherFollows commaFits.not_followsGoals
  | more otherGoal otherComma otherOthers =>
      obtain ⟨otherGoalFits, otherCommaFits, otherOthersFit⟩ := otherFits
      rw [text_more_append] at same
      obtain ⟨rfl, sameComma⟩ := goalUnique goalFits otherGoalFits goalFollows
        (otherCommaFits.followsGoal (followsGoal_comma _)) same
      obtain ⟨rfl, _, sameOthers⟩ := commaFits.unique_cons otherCommaFits sameComma
      obtain ⟨rfl, rfl⟩ := othersUnique othersFit otherOthersFit follows otherFollows
        sameOthers
      exact ⟨rfl, rfl⟩

/-- Derivations from one nonterminal that make up the same text are the same. -/
theorem isUnique {kind : Nonterminal} (tree : Tree kind) : tree.IsUnique := by
  induction tree with
  | group before inside closing unique => exact isUnique_group unique before closing
  | identifier before first others => exact isUnique_identifier before first others
  | named before name args unique => exact isUnique_named unique before name
  | noArguments => exact isUnique_noArguments
  | emptyArguments closing => exact isUnique_emptyArguments closing
  | someArguments inside closing unique => exact isUnique_someArguments unique closing
  | single primary unique => exact isUnique_single unique
  | test left operator right leftUnique rightUnique =>
      exact isUnique_test leftUnique rightUnique operator
  | last goal unique => exact isUnique_last unique
  | more goal comma others goalUnique othersUnique =>
      exact isUnique_more goalUnique othersUnique comma

end Tree

end HornLogic.Source
