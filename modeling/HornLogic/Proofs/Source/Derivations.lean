import HornLogic.Proofs.Source.Tokens
import HornLogic.Proofs.Source.WrittenTerms

/-!
# Terms and goals are read as they are derived

A derivation of a term or of goals is read to its end, if what follows it could not
belong to it, and whatever is read has a derivation.  A reader that gives up an optional
part goes on where that part would have begun: what it gave up is then not lost, since it
stands in what follows.
-/

namespace HornLogic.Source

theorem Layout.Fits.followsTerm {layout : Layout} {rest : List Char}
    (fits : layout.Fits rest) (follows : FollowsTerm rest) :
    FollowsTerm (layout.text ++ rest) := by
  cases layout with
  | none => exact follows
  | blank c after =>
      rcases fits.1 with rfl | rfl | rfl | rfl
      all_goals exact followsTerm_cons (by decide) (by decide) _
  | comment body after => exact followsTerm_cons (by decide) (by decide) _

theorem Layout.Fits.followsGoal {layout : Layout} {rest : List Char}
    (fits : layout.Fits rest) (follows : FollowsGoal rest) :
    FollowsGoal (layout.text ++ rest) :=
  ⟨fits.followsTerm follows.toFollowsTerm, by
    rw [fits.token?_append]
    exact follows.noTest⟩

/-- Layout may stand before everything that may follow goals. -/
theorem Layout.Fits.followsGoals {layout : Layout} {rest : List Char}
    (fits : layout.Fits rest) (follows : FollowsGoals rest) :
    FollowsGoals (layout.text ++ rest) :=
  ⟨fits.followsGoal follows.toFollowsGoal, by
    rw [fits.token?_append]
    exact follows.noComma⟩

/-- The text does not go on with something that would belong to the derivation. -/
def Nonterminal.Follows : Nonterminal → List Char → Prop
  | .primary => FollowsTerm
  | .arguments => FollowsTerm
  | .goal => FollowsGoal
  | .goals => FollowsGoals

namespace Tree

section

variable (before closing operator comma : Layout) (rest : List Char)

theorem text_group_append (inside : Tree .goals) :
    (group before inside closing).text ++ rest =
      before.text ++ '(' :: (inside.text ++ (closing.text ++ ')' :: rest)) := by
  simp

theorem text_identifier_append (first : Char) (others : List Char) :
    (identifier before first others).text ++ rest =
      before.text ++ first :: (others ++ rest) := by
  simp

theorem text_named_append (name : NameTree) (args : Tree .arguments) :
    (named before name args).text ++ rest =
      before.text ++ (name.text ++ (args.text ++ rest)) := by
  simp

theorem text_emptyArguments_append :
    (emptyArguments closing).text ++ rest = '(' :: (closing.text ++ ')' :: rest) := by
  simp

theorem text_someArguments_append (inside : Tree .goals) :
    (someArguments inside closing).text ++ rest =
      '(' :: (inside.text ++ (closing.text ++ ')' :: rest)) := by
  simp

theorem text_test_append (left right : Tree .primary) :
    (test left operator right).text ++ rest =
      left.text ++ (operator.text ++ '\\' :: '=' :: (right.text ++ rest)) := by
  simp

theorem text_more_append (goal : Tree .goal) (others : Tree .goals) :
    (more goal comma others).text ++ rest =
      goal.text ++ (comma.text ++ ',' :: (others.text ++ rest)) := by
  simp

end

/-- After its layout a term begins with a character that terms begin with. -/
theorem Fits.skipLayout_append {kind : Nonterminal} {tree : Tree kind} {rest : List Char}
    (fits : tree.Fits rest) (term : kind ≠ .arguments) :
    ∃ c others, skipLayout (tree.text ++ rest) = c :: others ∧ isTermStart c = true := by
  induction tree generalizing rest with
  | group before inside closing =>
      refine ⟨'(', inside.text ++ (closing.text ++ ')' :: rest), ?_, by decide⟩
      rw [text_group_append, fits.1.skipLayout_append, skipLayout_termStart (by decide)]
  | identifier before first others =>
      have start := fits.2.1.isTermStart
      refine ⟨first, others ++ rest, ?_, start⟩
      rw [text_identifier_append, fits.1.skipLayout_append, skipLayout_termStart start]
  | named before name args =>
      obtain ⟨c, others, characters, nameStart⟩ := fits.2.1.exists_text_eq_cons
      have start := isTermStart_of_isNameStart nameStart
      refine ⟨c, others ++ (args.text ++ rest), ?_, start⟩
      rw [text_named_append, fits.1.skipLayout_append, characters, List.cons_append,
        skipLayout_termStart start]
  | noArguments => exact absurd rfl term
  | emptyArguments closing => exact absurd rfl term
  | someArguments inside closing => exact absurd rfl term
  | single primary induction => exact induction fits (by simp)
  | test left operator right induction =>
      rw [text_test_append]
      exact induction fits.1 (by simp)
  | last goal induction => exact induction fits (by simp)
  | more goal comma others induction =>
      rw [text_more_append]
      exact induction fits.1 (by simp)

/-! ## Derivations are read -/

/-- The reader of the nonterminal reads the tree to its end. -/
@[simp]
def ReadBy (bound : Nat) : {kind : Nonterminal} → Tree kind → List Char → Prop
  | .primary, tree, rest => readTerm bound (tree.text ++ rest) = .ok (tree.value, rest)
  | .arguments, tree, rest => ∀ name,
      readApplication (readTerm bound) bound name (tree.text ++ rest) =
        (match tree.value with
          | none => .atom (String.ofList name)
          | some args => .app (String.ofList name) args, rest)
  | .goal, tree, rest =>
      readGoal (readTerm bound) (tree.text ++ rest) = .ok (tree.value, rest)
  | .goals, tree, rest => ∀ count, tree.text.length ≤ count →
      readGoals (readTerm bound) count (tree.text ++ rest) = .ok (tree.value, rest)

theorem readTerm_closing {text rest : List Char} (closes : skipLayout text = ')' :: rest)
    (bound : Nat) : readTerm bound text = .error (')' :: rest) := by
  cases bound with
  | zero => rw [readTerm, closes]
  | succ bound =>
      rw [readTerm, closes]
      rfl

/-- After layout the reader of terms looks at what comes then. -/
theorem readTerm_layout {layout : Layout} {c : Char} {rest : List Char}
    (fits : layout.Fits (c :: rest)) (start : isTermStart c = true) (bound : Nat) :
    readTerm (bound + 1) (layout.text ++ c :: rest) =
      readTermHere (readTerm bound) bound (c :: rest) := by
  rw [readTerm, fits.skipLayout_append, skipLayout_termStart start]

theorem readTermHere_name {name : NameTree} {rest : List Char} (fits : name.Fits rest)
    (bound : Nat) :
    readTermHere (readTerm bound) bound (name.text ++ rest) =
      .ok (readApplication (readTerm bound) bound name.value rest) := by
  obtain ⟨c, others, characters, start⟩ := fits.exists_text_eq_cons
  have read := fits.readName
  rw [characters, List.cons_append] at read ⊢
  exact readTermHere_of_readName start read bound

/-- Wherever the tree fits and nothing that follows belongs to it, it is read to its end. -/
def IsRead {kind : Nonterminal} (tree : Tree kind) : Prop :=
  ∀ {rest : List Char} {bound : Nat}, tree.Fits rest → kind.Follows rest →
    tree.text.length < bound → tree.ReadBy bound rest

/-- Goals are read up to a parenthesis that closes after them. -/
theorem IsRead.closed {inside : Tree .goals} (isRead : inside.IsRead) {closing : Layout}
    {rest : List Char} (insideFits : inside.Fits (closing.text ++ ')' :: rest))
    (closingFits : closing.Fits (')' :: rest)) {bound : Nat}
    (enough : inside.text.length < bound) :
    readGoals (readTerm bound) bound (inside.text ++ (closing.text ++ ')' :: rest)) =
        .ok (inside.value, closing.text ++ ')' :: rest) ∧
      token? [')'] (closing.text ++ ')' :: rest) = some rest :=
  ⟨isRead insideFits (closingFits.followsGoals (followsGoals_closing rest)) enough bound
    enough.le, closingFits.token? (by decide)⟩

theorem isRead_group {inside : Tree .goals} (isRead : inside.IsRead)
    (before closing : Layout) : (group before inside closing).IsRead := by
  intro rest bound fits _ enough
  obtain ⟨beforeFits, insideFits, closingFits⟩ := fits
  obtain ⟨bound, rfl⟩ := Nat.exists_eq_add_one.mpr (Nat.zero_lt_of_lt enough)
  simp only [text, List.length_append, List.length_cons] at enough
  have smaller : inside.text.length < bound := by omega
  obtain ⟨read, closed⟩ := isRead.closed insideFits closingFits smaller
  rw [ReadBy, text_group_append, readTerm_layout beforeFits (by decide)]
  simp [readTermHere, readInParentheses, read, closed]

theorem isRead_identifier (before : Layout) (first : Char) (others : List Char) :
    (identifier before first others).IsRead := by
  intro rest bound fits _ enough
  obtain ⟨beforeFits, begins, run⟩ := fits
  obtain ⟨bound, rfl⟩ := Nat.exists_eq_add_one.mpr (Nat.zero_lt_of_lt enough)
  rw [ReadBy, text_identifier_append, readTerm_layout beforeFits begins.isTermStart]
  exact readTermHere_identifier (isVariableStart_iff.mpr begins)
    (run.all isIdentifierRest_iff) (run.ends isIdentifierRest_iff) bound

theorem isRead_named {args : Tree .arguments} (isRead : args.IsRead) (before : Layout)
    (name : NameTree) : (named before name args).IsRead := by
  intro rest bound fits follows enough
  obtain ⟨beforeFits, nameFits, argsFit⟩ := fits
  obtain ⟨bound, rfl⟩ := Nat.exists_eq_add_one.mpr (Nat.zero_lt_of_lt enough)
  obtain ⟨c, others, characters, start⟩ := nameFits.exists_text_eq_cons
  simp only [text, characters, List.length_append, List.length_cons] at enough
  have smaller : args.text.length < bound := by omega
  have applied := isRead argsFit follows smaller name.value
  have here := readTermHere_name nameFits bound
  rw [characters, List.cons_append] at beforeFits here
  rw [ReadBy, text_named_append, characters, List.cons_append,
    readTerm_layout beforeFits (isTermStart_of_isNameStart start), here, applied]
  rfl

theorem isRead_noArguments : noArguments.IsRead := by
  intro rest bound _ follows _ name
  exact readApplication_of_followsTerm follows bound name

theorem isRead_emptyArguments (closing : Layout) : (emptyArguments closing).IsRead := by
  intro rest bound fits _ _ name
  have fits : closing.Fits (')' :: rest) := fits
  have skipped : skipLayout (closing.text ++ ')' :: rest) = ')' :: rest := by
    rw [fits.skipLayout_append]
    rfl
  have noGoal := readTerm_closing skipped bound
  have closed : token? [')'] (closing.text ++ ')' :: rest) = some rest :=
    fits.token? (by decide)
  rw [text_emptyArguments_append]
  simp [readApplication, readArguments, readGoals, readGoal, noGoal, closed]

theorem isRead_someArguments {inside : Tree .goals} (isRead : inside.IsRead)
    (closing : Layout) : (someArguments inside closing).IsRead := by
  intro rest bound fits _ enough name
  simp only [text, List.length_append, List.length_cons] at enough
  have smaller : inside.text.length < bound := by omega
  obtain ⟨read, closed⟩ := isRead.closed fits.1 fits.2 smaller
  rw [text_someArguments_append]
  simp [readApplication, readArguments, read, closed]

theorem isRead_single {primary : Tree .primary} (isRead : primary.IsRead) :
    (single primary).IsRead := by
  intro rest bound fits follows enough
  have follows : FollowsGoal rest := follows
  have read : readTerm bound (primary.text ++ rest) = .ok (primary.value, rest) :=
    isRead fits follows.toFollowsTerm enough
  simp [readGoal, read, follows.noTest]

/-- A term may stand before `\=`. -/
theorem followsTerm_operator {operator : Layout} {rest : List Char}
    (fits : operator.Fits ('\\' :: '=' :: rest)) :
    FollowsTerm (operator.text ++ '\\' :: '=' :: rest) :=
  fits.followsTerm (followsTerm_cons (by decide) (by decide) _)

theorem isRead_test {left right : Tree .primary} (leftIsRead : left.IsRead)
    (rightIsRead : right.IsRead) (operator : Layout) : (test left operator right).IsRead := by
  intro rest bound fits follows enough
  obtain ⟨leftFits, operatorFits, rightFits⟩ := fits
  have follows : FollowsGoal rest := follows
  simp only [text, List.length_append, List.length_cons] at enough
  have readLeft : readTerm bound _ = _ :=
    leftIsRead leftFits (followsTerm_operator operatorFits) (by omega)
  have readRight : readTerm bound _ = _ :=
    rightIsRead rightFits follows.toFollowsTerm (by omega)
  have operates : token? ['\\', '=']
      (operator.text ++ '\\' :: '=' :: (right.text ++ rest)) = some (right.text ++ rest) :=
    operatorFits.token? (by decide)
  rw [ReadBy, text_test_append]
  simp [readGoal, readLeft, operates, readRight]

theorem isRead_last {goal : Tree .goal} (isRead : goal.IsRead) : (last goal).IsRead := by
  intro rest bound fits follows enough count _
  have follows : FollowsGoals rest := follows
  have read : readGoal (readTerm bound) (goal.text ++ rest) = .ok (goal.value, rest) :=
    isRead fits follows.toFollowsGoal enough
  simp [readGoals, read, readFurtherGoals_of_followsGoals follows]

theorem isRead_more {goal : Tree .goal} {others : Tree .goals} (goalIsRead : goal.IsRead)
    (othersAreRead : others.IsRead) (comma : Layout) : (more goal comma others).IsRead := by
  intro rest bound fits follows enough count enoughGoals
  obtain ⟨goalFits, commaFits, othersFit⟩ := fits
  simp only [text, List.length_append, List.length_cons] at enough enoughGoals
  obtain ⟨count, rfl⟩ : ∃ less, count = less + 1 :=
    Nat.exists_eq_succ_of_ne_zero (by omega)
  have readFirst : readGoal (readTerm bound) _ = _ :=
    goalIsRead goalFits (commaFits.followsGoal (followsGoal_comma _)) (by omega)
  have separates : token? [','] (comma.text ++ ',' :: (others.text ++ rest)) =
      some (others.text ++ rest) :=
    @Layout.Fits.token? comma ',' [] (others.text ++ rest) commaFits (by decide)
  have smaller : others.text.length < bound := by omega
  have readOthers := othersAreRead othersFit follows smaller count (by omega)
  rw [text_more_append]
  exact readGoals_comma readFirst separates readOthers

theorem isRead {kind : Nonterminal} (tree : Tree kind) : tree.IsRead := by
  induction tree with
  | group before inside closing isRead => exact isRead_group isRead before closing
  | identifier before first others => exact isRead_identifier before first others
  | named before name args isRead => exact isRead_named isRead before name
  | noArguments => exact isRead_noArguments
  | emptyArguments closing => exact isRead_emptyArguments closing
  | someArguments inside closing isRead => exact isRead_someArguments isRead closing
  | single primary isRead => exact isRead_single isRead
  | test left operator right leftIsRead rightIsRead =>
      exact isRead_test leftIsRead rightIsRead operator
  | last goal isRead => exact isRead_last isRead
  | more goal comma others goalIsRead othersAreRead =>
      exact isRead_more goalIsRead othersAreRead comma

end Tree

/-! ## What is read is derived -/

/-- Whatever is read has a derivation. -/
def Nonterminal.Covers (kind : Nonterminal) (read : Reader kind.Value) : Prop :=
  ∀ {text value rest}, read text = .ok (value, rest) →
    ∃ tree : Tree kind, tree.text ++ rest = text ∧ tree.Fits rest ∧ tree.value = value

section

variable {read : Reader Term}

theorem readGoal_covered (covers : Nonterminal.primary.Covers read) :
    Nonterminal.goal.Covers (readGoal read) := by
  intro text value rest success
  unfold readGoal at success
  cases first : read text with
  | error place => simp [first] at success
  | ok found =>
      obtain ⟨leftValue, afterLeft⟩ := found
      obtain ⟨left, rfl, leftFits, rfl⟩ := covers first
      simp only [first] at success
      split at success
      · next rightValue afterRight second =>
          obtain ⟨rfl, rfl⟩ := Prod.mk.inj (Except.ok.inj success)
          obtain ⟨afterOperator, operates, second⟩ := Option.map_eq_some_iff.mp second
          obtain ⟨right, rfl, rightFits, rfl⟩ := covers second
          obtain ⟨operator, rfl, operatorFits⟩ := exists_layout_of_token? operates
          exact ⟨.test left operator right, Tree.text_test_append _ _ _ _,
            ⟨leftFits, operatorFits, rightFits⟩, rfl⟩
      · obtain ⟨rfl, rfl⟩ := Prod.mk.inj (Except.ok.inj success)
        exact ⟨.single left, rfl, leftFits, rfl⟩

/-- A goal and the goals that are read after it have a derivation together. -/
theorem readFurtherGoals_covered (covers : Nonterminal.primary.Covers read)
    {bound : Nat} {text rest : List Char} {goals : List Term} {first : Tree .goal}
    (fits : first.Fits text)
    (success : readFurtherGoals read bound text = (goals, rest)) :
    ∃ tree : Tree .goals, tree.text ++ rest = first.text ++ text ∧ tree.Fits rest ∧
      tree.value = (first.value, goals) := by
  induction bound generalizing text goals first with
  | zero =>
      obtain ⟨rfl, rfl⟩ := Prod.mk.inj success
      exact ⟨.last first, rfl, fits, rfl⟩
  | succ bound induction =>
      unfold readFurtherGoals at success
      split at success
      · next goal afterGoal found =>
          obtain ⟨afterComma, separates, found⟩ := Option.map_eq_some_iff.mp found
          obtain ⟨second, rfl, secondFits, rfl⟩ := readGoal_covered covers found
          obtain ⟨comma, rfl, commaFits⟩ := exists_layout_of_token? separates
          cases further : readFurtherGoals read bound afterGoal
          rw [further] at success
          obtain ⟨rfl, rfl⟩ := Prod.mk.inj success
          obtain ⟨others, written, othersFit, values⟩ := induction secondFits further
          rw [← written] at fits commaFits ⊢
          exact ⟨.more first comma others, Tree.text_more_append _ _ _ _,
            ⟨fits, commaFits, othersFit⟩, by simp [values]⟩
      · obtain ⟨rfl, rfl⟩ := Prod.mk.inj success
        exact ⟨.last first, rfl, fits, rfl⟩

theorem readGoals_covered (covers : Nonterminal.primary.Covers read) (bound : Nat) :
    Nonterminal.goals.Covers (readGoals read bound) := by
  intro text value rest success
  unfold readGoals at success
  cases found : readGoal read text with
  | error place => simp [found] at success
  | ok result =>
      obtain ⟨firstValue, afterFirst⟩ := result
      obtain ⟨first, rfl, firstFits, rfl⟩ := readGoal_covered covers found
      simp only [found] at success
      obtain ⟨rfl, rfl⟩ := Prod.mk.inj (Except.ok.inj success)
      exact readFurtherGoals_covered covers firstFits rfl

/-- Goals before a closing parenthesis. -/
theorem exists_closing {goals : Tree .goals} {text rest : List Char}
    (fits : goals.Fits text) (closes : token? [')'] text = some rest) :
    ∃ closing : Layout, closing.text ++ ')' :: rest = text ∧
      goals.Fits (closing.text ++ ')' :: rest) ∧ closing.Fits (')' :: rest) := by
  obtain ⟨closing, rfl, closingFits⟩ := exists_layout_of_token? closes
  exact ⟨closing, rfl, fits, closingFits⟩

theorem readApplication_covered (covers : Nonterminal.primary.Covers read) (bound : Nat)
    (name : List Char) {text rest : List Char} {term : Term}
    (success : readApplication read bound name text = (term, rest)) :
    ∃ args : Tree .arguments, args.text ++ rest = text ∧ args.Fits rest ∧
      term = match args.value with
        | none => .atom (String.ofList name)
        | some args => .app (String.ofList name) args := by
  unfold readApplication at success
  split at success
  · next inside =>
      split at success
      · next args afterArgs found =>
          obtain ⟨rfl, rfl⟩ := Prod.mk.inj success
          unfold readArguments at found
          split at found
          · obtain ⟨_, closes, same⟩ := Option.map_eq_some_iff.mp found
            obtain ⟨rfl, rfl⟩ := Prod.mk.inj same
            obtain ⟨closing, rfl, closingFits⟩ := exists_layout_of_token? closes
            exact ⟨.emptyArguments closing, Tree.text_emptyArguments_append _ _,
              closingFits, rfl⟩
          · next first others afterGoals goalsRead =>
              obtain ⟨_, closes, same⟩ := Option.map_eq_some_iff.mp found
              obtain ⟨rfl, rfl⟩ := Prod.mk.inj same
              obtain ⟨goals, rfl, goalsFit, values⟩ := readGoals_covered covers bound goalsRead
              obtain ⟨closing, rfl, goalsFit, closingFits⟩ := exists_closing goalsFit closes
              exact ⟨.someArguments goals closing, Tree.text_someArguments_append _ _ _,
                ⟨goalsFit, closingFits⟩, by simp [values]⟩
      · obtain ⟨rfl, rfl⟩ := Prod.mk.inj success
        exact ⟨.noArguments, rfl, trivial, rfl⟩
  · obtain ⟨rfl, rfl⟩ := Prod.mk.inj success
    exact ⟨.noArguments, rfl, trivial, rfl⟩

theorem readTermHere_covered (covers : Nonterminal.primary.Covers read) {bound : Nat}
    {before : Layout} {text rest : List Char} {term : Term} (fits : before.Fits text)
    (success : readTermHere read bound text = .ok (term, rest)) :
    ∃ tree : Tree .primary, tree.text ++ rest = before.text ++ text ∧ tree.Fits rest ∧
      tree.value = term := by
  unfold readTermHere at success
  split at success
  · next inside =>
      split at success
      · next found =>
          cases success
          unfold readInParentheses at found
          split at found
          · cases found
          · next first others afterGoals goalsRead =>
              obtain ⟨_, closes, same⟩ := Option.map_eq_some_iff.mp found
              obtain ⟨rfl, rfl⟩ := Prod.mk.inj same
              obtain ⟨goals, rfl, goalsFit, values⟩ := readGoals_covered covers bound goalsRead
              obtain ⟨closing, rfl, goalsFit, closingFits⟩ := exists_closing goalsFit closes
              exact ⟨.group before goals closing, Tree.text_group_append _ _ _ _,
                ⟨fits, goalsFit, closingFits⟩, by simp [values]⟩
      · cases success
  · split at success
    · next start =>
        cases text with
        | nil => cases start
        | cons c others =>
            have start : isVariableStart c = true := by simpa using start
            have continues := isIdentifierRest_of_isVariableStart start
            simp only [List.takeWhile_cons, List.dropWhile_cons, continues, if_true] at success
            obtain ⟨rfl, rfl⟩ := Prod.mk.inj (Except.ok.inj success)
            refine ⟨.identifier before c (others.takeWhile isIdentifierRest), ?_, ?_, rfl⟩
            · rw [Tree.text_identifier_append, List.takeWhile_append_dropWhile]
            · refine ⟨?_, isVariableStart_iff.mp start, .takeWhile isIdentifierRest_iff others⟩
              rwa [List.takeWhile_append_dropWhile]
    · split at success
      · cases success
      · next name afterName found =>
          obtain ⟨nameTree, rfl, nameFits, rfl⟩ := exists_name found
          obtain ⟨args, rfl, argsFit, same⟩ :=
            readApplication_covered covers bound nameTree.value (Except.ok.inj success)
          exact ⟨.named before nameTree args, Tree.text_named_append _ _ _ _,
            ⟨fits, nameFits, argsFit⟩, same.symm⟩

end

theorem readTerm_covered (bound : Nat) : Nonterminal.primary.Covers (readTerm bound) := by
  induction bound with
  | zero =>
      intro text value rest success
      cases success
  | succ bound induction =>
      intro text value rest success
      obtain ⟨before, written, fits⟩ := exists_layout text
      rw [← written]
      exact readTermHere_covered induction fits success

end HornLogic.Source
