import HornLogic.Proofs.Source.Acceptance

/-!
# Other layout between the same parts

No layout of a source text is needed: where two parts of a text stand next to each other
they are still two parts.  A derivation therefore stays one, with the value that it had,
when layout is replaced by other layout or left out.  Layout is never inserted, since an
opening parenthesis belongs to the name that it follows.
-/

namespace HornLogic.Source

theorem isIdentifierRest_of_isDecimalDigit {c : Char} (digit : IsDecimalDigit c) :
    isIdentifierRest c = true :=
  isIdentifierRest_iff.mpr (.inr (.inr (.inl digit)))

theorem not_isBlank_of_range {c : Char} (least : 0x21 ≤ c.toNat) (most : c.toNat ≤ 0x7E) :
    Text.isBlank c = false := by
  have value : c.val.toNat = c.toNat := rfl
  simp only [Text.isBlank, List.mem_cons, List.not_mem_nil, or_false, Bool.or_eq_false_iff,
    decide_eq_false_iff_not, Bool.and_eq_false_iff, UInt32.le_iff_toNat_le, ← UInt32.toNat_inj]
  simp only [value]
  refine ⟨⟨?_, ?_⟩, ?_⟩ <;> simp <;> omega

theorem not_isBlank_of_isIdentifierRest {c : Char} (inWord : isIdentifierRest c = true) :
    Text.isBlank c = false := by
  have bounds : ∀ {first last : Char}, first ≤ c ∧ c ≤ last → 0x21 ≤ first.toNat →
      last.toNat ≤ 0x7E → Text.isBlank c = false := by
    intro first last between least most
    exact not_isBlank_of_range (least.trans (UInt32.le_iff_toNat_le.mp between.1))
      ((UInt32.le_iff_toNat_le.mp between.2).trans most)
  rcases isIdentifierRest_iff.mp inWord with small | capital | digit | rfl
  · exact bounds small (by decide) (by decide)
  · exact bounds capital (by decide) (by decide)
  · exact bounds digit (by decide) (by decide)
  · decide

theorem not_isBlank_of_isTermStart {c : Char} (start : isTermStart c = true) :
    Text.isBlank c = false := by
  simp only [isTermStart, isNameStart, isVariableStart, Bool.or_eq_true, beq_iff_eq] at start
  rcases start with (((lower | digit) | rfl) | upper | rfl) | rfl
  · exact not_isBlank_of_isIdentifierRest (isIdentifierRest_iff.mpr (.inl (isLower_iff.mp lower)))
  · exact not_isBlank_of_isIdentifierRest
      (isIdentifierRest_of_isDecimalDigit (isDigit_iff.mp digit))
  · decide
  · exact not_isBlank_of_isIdentifierRest
      (isIdentifierRest_iff.mpr (.inr (.inl (isUpper_iff.mp upper))))
  · decide
  · decide

namespace Tree

@[simp]
def names : {kind : Nonterminal} → Tree kind → List NameTree
  | _, .group _ inside _ => inside.names
  | _, .identifier _ _ _ => []
  | _, .named _ name args => name :: args.names
  | _, .noArguments => []
  | _, .emptyArguments _ => []
  | _, .someArguments inside _ => inside.names
  | _, .single primary => primary.names
  | _, .test left _ right => left.names ++ right.names
  | _, .last goal => goal.names
  | _, .more goal _ others => goal.names ++ others.names

end Tree

namespace ClauseTree

def bodyNames : Option (Layout × Tree .goals) → List NameTree
  | none => []
  | some (_, goals) => goals.names

def names (tree : ClauseTree) : List NameTree :=
  tree.head.names ++ bodyNames tree.body

end ClauseTree

/-- A way to lay texts out anew from their ends: `put` puts a character in front of a text
that is laid out already.  Parts without blanks at their ends stay as they are, and layout
before such a part becomes layout. -/
structure Relays (put : Char → List Char → List Char) : Prop where
  part : ∀ {part : List Char}, '\n' ∉ part →
    (∀ c ∈ part.getLast?, Text.isBlank c = false) →
    ∀ rest, part.foldr put rest = part ++ rest
  layout : ∀ {layout : Layout} {c : Char} {rest : List Char}, Text.isBlank c = false →
    c ≠ '%' → layout.Fits (c :: rest) → '\r' ∉ layout.text →
    ∀ later, ∃ again : Layout, layout.text.foldr put (c :: later) = again.text ++ c :: later ∧
      again.Fits (c :: later)

theorem Relays.mark {put : Char → List Char → List Char} (relays : Relays put) {c : Char}
    (visible : Text.isBlank c = false) (rest : List Char) : put c rest = c :: rest := by
  have part : '\n' ∉ [c] := by
    rintro (_ | ⟨_, _ | _⟩)
    cases visible
  exact relays.part part (by simpa using visible) rest

/-- Names that end before the first text end before the second one, too. -/
def EndsNamesAs (rest later : List Char) : Prop :=
  ∀ c ∈ later.head?, isIdentifierRest c = true → rest.head? = some c

theorem endsNamesAs_of_alike {rest later : List Char} (alike : later.head? = rest.head?) :
    EndsNamesAs rest later :=
  fun _ member _ => alike ▸ member

theorem EndsName.endsNamesAs {rest later : List Char} (ends : EndsName later) :
    EndsNamesAs rest later := by
  intro c member inWord
  rw [ends c member] at inWord
  cases inWord

theorem LongestRun.before {property : Char → Prop} {run rest later : List Char}
    (longest : LongestRun property run rest) (ends : EndsNamesAs rest later)
    (inWord : ∀ {c}, property c → isIdentifierRest c = true) :
    LongestRun property run later :=
  ⟨longest.1, fun c member holds => longest.2 c (ends c member (inWord holds)) holds⟩

theorem NameTree.Fits.before {name : NameTree} {rest later : List Char} (fits : name.Fits rest)
    (ends : EndsNamesAs rest later) : name.Fits later := by
  cases name with
  | plain first others => exact ⟨fits.1, fits.2.before ends isIdentifierRest_iff.mpr⟩
  | number first others =>
      exact ⟨fits.1, fits.2.before ends isIdentifierRest_of_isDecimalDigit⟩
  | quoted parts => exact fits

theorem endsName_mark {c : Char} (mark : isIdentifierRest c = false) (rest : List Char) :
    EndsName (c :: rest) := by
  intro other member
  cases member
  exact mark

theorem last_visible_of_word {first : Char} {others : List Char}
    (firstIn : isIdentifierRest first = true) (othersIn : ∀ c ∈ others, isIdentifierRest c = true) :
    ∀ c ∈ (first :: others).getLast?, Text.isBlank c = false := by
  intro c member
  apply not_isBlank_of_isIdentifierRest
  rcases List.mem_cons.mp (List.mem_of_mem_getLast? member) with rfl | inOthers
  · exact firstIn
  · exact othersIn c inOthers

theorem NameTree.Fits.last_visible {name : NameTree} {rest : List Char}
    (fits : name.Fits rest) : ∀ c ∈ name.text.getLast?, Text.isBlank c = false := by
  cases name with
  | plain first others =>
      exact last_visible_of_word (isIdentifierRest_iff.mpr (.inl fits.1))
        fun c member => isIdentifierRest_iff.mpr (fits.2.1 c member)
  | number first others =>
      exact last_visible_of_word (isIdentifierRest_of_isDecimalDigit fits.1)
        fun c member => isIdentifierRest_of_isDecimalDigit (fits.2.1 c member)
  | quoted parts =>
      rw [NameTree.text, ← List.cons_append, List.getLast?_concat]
      intro c member
      cases member
      decide

/-- Names end before layout, as they end before what comes after it. -/
theorem Layout.Fits.endsName {layout : Layout} {rest : List Char} (fits : layout.Fits rest)
    (ends : EndsName rest) : EndsName (layout.text ++ rest) := by
  cases layout with
  | none => exact ends
  | blank c after =>
      rcases fits.1 with rfl | rfl | rfl | rfl
      all_goals exact endsName_mark (by decide) _
  | comment body after => exact endsName_mark (by decide) _

namespace Tree

variable {put : Char → List Char → List Char}

/-- The second derivation is the first one laid out anew, before a text that is laid out. -/
structure LaidOut (put : Char → List Char → List Char) (later : List Char)
    {kind : Nonterminal} (tree again : Tree kind) : Prop where
  text : tree.text.foldr put later = again.text ++ later
  fits : again.Fits later
  value : again.value = tree.value
  names : again.names = tree.names

/-- A derivation can be laid out anew before every text that names end before. -/
def CanBeLaidOut (put : Char → List Char → List Char) {kind : Nonterminal}
    (tree : Tree kind) : Prop :=
  ∀ {rest : List Char}, tree.Fits rest → (∀ name ∈ tree.names, '\n' ∉ name.text) →
    '\r' ∉ tree.text → ∀ {later}, EndsName later → ∃ again, tree.LaidOut put later again

/-- What stands in parentheses, up to the closing one. -/
theorem CanBeLaidOut.closed (relays : Relays put) {inside : Tree .goals}
    (insideCan : inside.CanBeLaidOut put) {closing : Layout} {rest : List Char}
    (insideFits : inside.Fits (closing.text ++ ')' :: rest))
    (closingFits : closing.Fits (')' :: rest))
    (unbroken : ∀ name ∈ inside.names, '\n' ∉ name.text)
    (noneInside : '\r' ∉ inside.text) (noneClosing : '\r' ∉ closing.text)
    (later : List Char) :
    ∃ (newInside : Tree .goals) (newClosing : Layout),
      inside.LaidOut put (newClosing.text ++ ')' :: later) newInside ∧
        closing.text.foldr put (')' :: later) = newClosing.text ++ ')' :: later ∧
        newClosing.Fits (')' :: later) := by
  obtain ⟨newClosing, closingText, newClosingFits⟩ :=
    relays.layout (by decide) (by decide) closingFits noneClosing later
  obtain ⟨newInside, laidOut⟩ := insideCan insideFits unbroken noneInside
    (newClosingFits.endsName (endsName_mark (by decide) later))
  exact ⟨newInside, newClosing, laidOut, closingText, newClosingFits⟩

theorem canBeLaidOut_group (relays : Relays put) {inside : Tree .goals}
    (insideCan : inside.CanBeLaidOut put) (before closing : Layout) :
    (group before inside closing).CanBeLaidOut put := by
  intro rest fits unbroken noReturn later ends
  obtain ⟨beforeFits, insideFits, closingFits⟩ := fits
  simp only [text, List.mem_append, List.mem_cons, not_or] at noReturn
  obtain ⟨noneBefore, _, noneInside, noneClosing, _⟩ := noReturn
  obtain ⟨newInside, newClosing, laidOut, closingText, newClosingFits⟩ :=
    insideCan.closed relays insideFits closingFits unbroken noneInside noneClosing later
  obtain ⟨newBefore, beforeText, newBeforeFits⟩ :=
    relays.layout (by decide) (by decide) beforeFits noneBefore
      (newInside.text ++ (newClosing.text ++ ')' :: later))
  refine ⟨.group newBefore newInside newClosing,
    ?_, ⟨newBeforeFits, laidOut.fits, newClosingFits⟩, ?_, laidOut.names⟩
  · simp (disch := decide) [relays.mark, closingText, laidOut.text, beforeText]
  · simp [laidOut.value]

theorem canBeLaidOut_identifier (relays : Relays put) (before : Layout) (first : Char)
    (others : List Char) : (identifier before first others).CanBeLaidOut put := by
  intro rest fits _ noReturn later ends
  obtain ⟨beforeFits, begins, run⟩ := fits
  simp only [text, List.mem_append, not_or] at noReturn
  have start := begins.isTermStart
  have firstIn : isIdentifierRest first = true := by
    rcases begins with capital | rfl
    · exact isIdentifierRest_iff.mpr (.inr (.inl capital))
    · decide
  have inWord : ∀ c ∈ first :: others, isIdentifierRest c = true :=
    List.forall_mem_cons.mpr ⟨firstIn, fun c member => isIdentifierRest_iff.mpr (run.1 c member)⟩
  have oneLine : '\n' ∉ first :: others := by
    intro member
    cases inWord _ member
  have word := relays.part oneLine
    (last_visible_of_word firstIn (List.forall_mem_cons.mp inWord).2) later
  obtain ⟨newBefore, beforeText, newBeforeFits⟩ :=
    relays.layout (not_isBlank_of_isTermStart start) (ne_of_isTermStart start (by decide))
      beforeFits noReturn.1 (others ++ later)
  refine ⟨.identifier newBefore first others, ?_,
    ⟨newBeforeFits, begins, run.before ends.endsNamesAs isIdentifierRest_iff.mpr⟩, rfl, rfl⟩
  rw [text, List.foldr_append, word, List.cons_append, beforeText]
  simp

theorem canBeLaidOut_named (relays : Relays put) {args : Tree .arguments}
    (argsCan : args.CanBeLaidOut put) (before : Layout) (name : NameTree) :
    (named before name args).CanBeLaidOut put := by
  intro rest fits unbroken noReturn later ends
  obtain ⟨beforeFits, nameFits, argsFit⟩ := fits
  simp only [text, List.mem_append, not_or] at noReturn
  obtain ⟨noneBefore, _, noneArgs⟩ := noReturn
  obtain ⟨oneLine, argsUnbroken⟩ := List.forall_mem_cons.mp unbroken
  obtain ⟨newArgs, laidOut⟩ := argsCan argsFit argsUnbroken noneArgs ends
  have argsEnd : EndsName (newArgs.text ++ later) := by
    cases newArgs with
    | noArguments => exact ends
    | emptyArguments closing => exact endsName_mark (by decide) _
    | someArguments inside closing => exact endsName_mark (by decide) _
  obtain ⟨c, others, characters, nameStart⟩ := nameFits.exists_text_eq_cons
  have start := isTermStart_of_isNameStart nameStart
  rw [characters, List.cons_append] at beforeFits
  obtain ⟨newBefore, beforeText, newBeforeFits⟩ :=
    relays.layout (not_isBlank_of_isTermStart start) (ne_of_isTermStart start (by decide))
      beforeFits noneBefore (others ++ (newArgs.text ++ later))
  rw [← List.cons_append, ← characters] at beforeText newBeforeFits
  have word := relays.part oneLine nameFits.last_visible (newArgs.text ++ later)
  refine ⟨.named newBefore name newArgs, ?_,
    ⟨newBeforeFits, nameFits.before argsEnd.endsNamesAs, laidOut.fits⟩, ?_, ?_⟩
  · rw [text, List.foldr_append, List.foldr_append, laidOut.text, word, beforeText]
    simp
  · simp only [value, laidOut.value]
  · simp only [names, laidOut.names]

theorem canBeLaidOut_noArguments : noArguments.CanBeLaidOut put :=
  fun _ _ _ _ _ => ⟨.noArguments, rfl, trivial, rfl, rfl⟩

theorem canBeLaidOut_emptyArguments (relays : Relays put) (closing : Layout) :
    (emptyArguments closing).CanBeLaidOut put := by
  intro rest fits _ noReturn later _
  simp only [text, List.mem_append, List.mem_cons, not_or] at noReturn
  obtain ⟨newClosing, closingText, newClosingFits⟩ :=
    relays.layout (by decide) (by decide) fits noReturn.2.1 later
  refine ⟨.emptyArguments newClosing, ?_, newClosingFits, rfl, rfl⟩
  simp (disch := decide) [relays.mark, closingText]

theorem canBeLaidOut_someArguments (relays : Relays put) {inside : Tree .goals}
    (insideCan : inside.CanBeLaidOut put) (closing : Layout) :
    (someArguments inside closing).CanBeLaidOut put := by
  intro rest fits unbroken noReturn later _
  simp only [text, List.mem_append, List.mem_cons, not_or] at noReturn
  obtain ⟨_, noneInside, noneClosing, _⟩ := noReturn
  obtain ⟨newInside, newClosing, laidOut, closingText, newClosingFits⟩ :=
    insideCan.closed relays fits.1 fits.2 unbroken noneInside noneClosing later
  refine ⟨.someArguments newInside newClosing, ?_, ⟨laidOut.fits, newClosingFits⟩, ?_,
    laidOut.names⟩
  · simp (disch := decide) [relays.mark, closingText, laidOut.text]
  · simp [laidOut.value]

theorem canBeLaidOut_test (relays : Relays put) {left right : Tree .primary}
    (leftCan : left.CanBeLaidOut put) (rightCan : right.CanBeLaidOut put)
    (operator : Layout) : (test left operator right).CanBeLaidOut put := by
  intro rest fits unbroken noReturn later ends
  obtain ⟨leftFits, operatorFits, rightFits⟩ := fits
  simp only [text, List.mem_append, List.mem_cons, not_or] at noReturn
  obtain ⟨noneLeft, noneOperator, _, _, noneRight⟩ := noReturn
  obtain ⟨leftUnbroken, rightUnbroken⟩ := List.forall_mem_append.mp unbroken
  obtain ⟨newRight, rightLaidOut⟩ := rightCan rightFits rightUnbroken noneRight ends
  obtain ⟨newOperator, operatorText, newOperatorFits⟩ :=
    relays.layout (by decide) (by decide) operatorFits noneOperator
      ('=' :: (newRight.text ++ later))
  obtain ⟨newLeft, leftLaidOut⟩ := leftCan leftFits leftUnbroken noneLeft
    (newOperatorFits.endsName (endsName_mark (by decide) _))
  refine ⟨.test newLeft newOperator newRight, ?_,
    ⟨leftLaidOut.fits, newOperatorFits, rightLaidOut.fits⟩, ?_, ?_⟩
  · simp (disch := decide) [relays.mark, rightLaidOut.text, operatorText, leftLaidOut.text]
  · simp [leftLaidOut.value, rightLaidOut.value]
  · simp [leftLaidOut.names, rightLaidOut.names]

theorem canBeLaidOut_more (relays : Relays put) {goal : Tree .goal} {others : Tree .goals}
    (goalCan : goal.CanBeLaidOut put) (othersCan : others.CanBeLaidOut put)
    (comma : Layout) : (more goal comma others).CanBeLaidOut put := by
  intro rest fits unbroken noReturn later ends
  obtain ⟨goalFits, commaFits, othersFit⟩ := fits
  simp only [text, List.mem_append, List.mem_cons, not_or] at noReturn
  obtain ⟨noneGoal, noneComma, _, noneOthers⟩ := noReturn
  obtain ⟨goalUnbroken, othersUnbroken⟩ := List.forall_mem_append.mp unbroken
  obtain ⟨newOthers, othersLaidOut⟩ := othersCan othersFit othersUnbroken noneOthers ends
  obtain ⟨newComma, commaText, newCommaFits⟩ :=
    relays.layout (by decide) (by decide) commaFits noneComma (newOthers.text ++ later)
  obtain ⟨newGoal, goalLaidOut⟩ := goalCan goalFits goalUnbroken noneGoal
    (newCommaFits.endsName (endsName_mark (by decide) _))
  refine ⟨.more newGoal newComma newOthers, ?_,
    ⟨goalLaidOut.fits, newCommaFits, othersLaidOut.fits⟩, ?_, ?_⟩
  · simp (disch := decide) [relays.mark, othersLaidOut.text, commaText, goalLaidOut.text]
  · simp [goalLaidOut.value, othersLaidOut.value]
  · simp [goalLaidOut.names, othersLaidOut.names]

/-- Every derivation can be laid out anew. -/
theorem canBeLaidOut (relays : Relays put) {kind : Nonterminal} (tree : Tree kind) :
    tree.CanBeLaidOut put := by
  induction tree with
  | group before inside closing can => exact canBeLaidOut_group relays can before closing
  | identifier before first others => exact canBeLaidOut_identifier relays before first others
  | named before name args can => exact canBeLaidOut_named relays can before name
  | noArguments => exact canBeLaidOut_noArguments
  | emptyArguments closing => exact canBeLaidOut_emptyArguments relays closing
  | someArguments inside closing can => exact canBeLaidOut_someArguments relays can closing
  | single primary can =>
      intro rest fits unbroken noReturn later ends
      obtain ⟨again, laidOut⟩ := can fits unbroken noReturn ends
      exact ⟨.single again, laidOut.text, laidOut.fits, laidOut.value, laidOut.names⟩
  | test left operator right leftCan rightCan =>
      exact canBeLaidOut_test relays leftCan rightCan operator
  | last goal can =>
      intro rest fits unbroken noReturn later ends
      obtain ⟨again, laidOut⟩ := can fits unbroken noReturn ends
      exact ⟨.last again, laidOut.text, laidOut.fits, by simp [laidOut.value], laidOut.names⟩
  | more goal comma others goalCan othersCan =>
      exact canBeLaidOut_more relays goalCan othersCan comma

end Tree

/-! ## Clauses and programs -/

namespace ClauseTree

variable {put : Char → List Char → List Char}

/-- The second derivation is the first one laid out anew, before a text that is laid out. -/
structure LaidOut (put : Char → List Char → List Char) (later : List Char)
    (tree again : ClauseTree) : Prop where
  text : tree.text.foldr put later = again.text ++ later
  fits : again.Fits later
  value : again.value = tree.value
  names : again.names = tree.names

theorem exists_body_laidOut (relays : Relays put) {body : Option (Layout × Tree .goals)}
    {rest later : List Char} (fits : BodyFits rest body)
    (unbroken : ∀ name ∈ bodyNames body, '\n' ∉ name.text) (noReturn : '\r' ∉ bodyText body)
    (ends : EndsName later) :
    ∃ again, (bodyText body).foldr put later = bodyText again ++ later ∧
      BodyFits later again ∧ bodyValue again = bodyValue body ∧
      bodyNames again = bodyNames body ∧ EndsName (bodyText again ++ later) := by
  cases body with
  | none => exact ⟨none, rfl, trivial, rfl, rfl, ends⟩
  | some both =>
      obtain ⟨arrow, goals⟩ := both
      simp only [bodyText, List.mem_append, List.mem_cons, not_or] at noReturn
      obtain ⟨noneArrow, _, _, noneGoals⟩ := noReturn
      obtain ⟨newGoals, laidOut⟩ :=
        goals.canBeLaidOut relays fits.2 unbroken noneGoals ends
      obtain ⟨newArrow, arrowText, newArrowFits⟩ :=
        relays.layout (by decide) (by decide) fits.1 noneArrow
          ('-' :: (newGoals.text ++ later))
      refine ⟨some (newArrow, newGoals), ?_, ⟨newArrowFits, laidOut.fits⟩, ?_, laidOut.names, ?_⟩
      · simp (disch := decide) [bodyText, relays.mark, laidOut.text, arrowText]
      · simp only [bodyValue, laidOut.value]
      · rw [bodyText_some_append]
        exact newArrowFits.endsName (endsName_mark (by decide) _)

theorem exists_laidOut (relays : Relays put) {tree : ClauseTree} {rest : List Char}
    (fits : tree.Fits rest) (unbroken : ∀ name ∈ tree.names, '\n' ∉ name.text)
    (noReturn : '\r' ∉ tree.text) (later : List Char) : ∃ again, tree.LaidOut put later again := by
  obtain ⟨headFits, bodyFits, stopFits⟩ := fits
  simp only [text, List.mem_append, not_or] at noReturn
  obtain ⟨noneHead, noneBody, noneStop, _⟩ := noReturn
  obtain ⟨headUnbroken, bodyUnbroken⟩ := List.forall_mem_append.mp unbroken
  obtain ⟨newStop, stopText, newStopFits⟩ :=
    relays.layout (by decide) (by decide) stopFits noneStop later
  obtain ⟨newBody, bodyText, newBodyFits, bodyValue, bodyNames, bodyEnds⟩ :=
    exists_body_laidOut relays bodyFits bodyUnbroken noneBody
      (newStopFits.endsName (endsName_mark (by decide) later))
  obtain ⟨newHead, laidOut⟩ :=
    tree.head.canBeLaidOut relays headFits headUnbroken noneHead bodyEnds
  refine ⟨⟨newHead, newBody, newStop⟩, ?_, ⟨laidOut.fits, newBodyFits, newStopFits⟩, ?_, ?_⟩
  · simp (disch := decide) [text, relays.mark, stopText, bodyText, laidOut.text]
  · simp only [value, laidOut.value, bodyValue]
  · simp only [names, laidOut.names, bodyNames]

end ClauseTree

theorem Grammar.ProgramFits.exists_laidOut {put : Char → List Char → List Char}
    (relays : Relays put) {trees : List ClauseTree} {rest : List Char}
    (fits : ProgramFits trees rest)
    (unbroken : ∀ name ∈ trees.flatMap ClauseTree.names, '\n' ∉ name.text)
    (noReturn : '\r' ∉ trees.flatMap ClauseTree.text) (later : List Char) :
    ∃ again : List ClauseTree,
      (trees.flatMap ClauseTree.text).foldr put later =
          again.flatMap ClauseTree.text ++ later ∧
        ProgramFits again later ∧ again.map ClauseTree.value = trees.map ClauseTree.value ∧
        again.flatMap ClauseTree.names = trees.flatMap ClauseTree.names := by
  induction trees with
  | nil => exact ⟨[], rfl, trivial, rfl, rfl⟩
  | cons first others induction =>
      rw [List.flatMap_cons] at unbroken
      rw [List.flatMap_cons, List.mem_append, not_or] at noReturn
      obtain ⟨firstUnbroken, othersUnbroken⟩ := List.forall_mem_append.mp unbroken
      obtain ⟨newOthers, othersText, othersFit, othersValue, othersNames⟩ :=
        induction fits.2 othersUnbroken noReturn.2
      obtain ⟨newFirst, laidOut⟩ := ClauseTree.exists_laidOut relays fits.1 firstUnbroken
        noReturn.1 (newOthers.flatMap ClauseTree.text ++ later)
      refine ⟨newFirst :: newOthers, ?_, ⟨laidOut.fits, othersFit⟩, ?_, ?_⟩
      · rw [List.flatMap_cons, List.foldr_append, othersText, laidOut.text, List.flatMap_cons,
          List.append_assoc]
      · rw [List.map_cons, laidOut.value, othersValue, List.map_cons]
      · rw [List.flatMap_cons, laidOut.names, othersNames, List.flatMap_cons]

/-- The layout before a term can be replaced by that before any text that goes on in the
same way. -/
theorem Tree.Fits.exists_front {tree : Tree .primary} {rest text : List Char}
    (fits : tree.Fits rest) (same : skipLayout text = skipLayout (tree.text ++ rest)) :
    ∃ again : Tree .primary, again.text ++ rest = text ∧ again.Fits rest ∧
      again.value = tree.value ∧ again.names = tree.names := by
  obtain ⟨front, written, frontFits⟩ := exists_layout text
  cases tree with
  | group before inside closing =>
      rw [same, text_group_append, fits.1.skipLayout_append, skipLayout_termStart (by decide)]
        at written frontFits
      exact ⟨.group front inside closing, by rw [text_group_append, written],
        ⟨frontFits, fits.2⟩, rfl, rfl⟩
  | identifier before first others =>
      rw [same, text_identifier_append, fits.1.skipLayout_append,
        skipLayout_termStart fits.2.1.isTermStart] at written frontFits
      exact ⟨.identifier front first others, by rw [text_identifier_append, written],
        ⟨frontFits, fits.2⟩, rfl, rfl⟩
  | named before name args =>
      rw [same, text_named_append, fits.1.skipLayout_append, fits.2.1.skipLayout_append]
        at written frontFits
      exact ⟨.named front name args, by rw [text_named_append, written],
        ⟨frontFits, fits.2⟩, rfl, rfl⟩

theorem ClauseTree.Fits.exists_front {tree : ClauseTree} {rest text : List Char}
    (fits : tree.Fits rest) (same : skipLayout text = skipLayout (tree.text ++ rest)) :
    ∃ again : ClauseTree, again.text ++ rest = text ∧ again.Fits rest ∧
      again.value = tree.value ∧ again.names = tree.names := by
  rw [ClauseTree.text_append] at same
  obtain ⟨head, written, headFits, value, names⟩ := fits.1.exists_front same
  refine ⟨⟨head, tree.body, tree.stop⟩, ?_, ⟨headFits, fits.2⟩, ?_, ?_⟩
  · rw [ClauseTree.text_append, written]
  · rw [ClauseTree.value, value, ClauseTree.value]
  · rw [ClauseTree.names, names, ClauseTree.names]

namespace Grammar

variable {text : List Char} {trees : List ClauseTree} {after : Layout}

theorem program_derives_iff :
    program.Derives text trees after ↔
      trees.flatMap ClauseTree.text ++ after.text = text ∧ ProgramFits trees after.text ∧
        after.Fits [] :=
  ⟨fun derives => ⟨derives.written, derives.fits, derives.atEnd⟩,
    fun ⟨written, fits, atEnd⟩ => ⟨written, fits, atEnd⟩⟩

/-- A program is parsed to the clauses of its derivation, with their anonymous variables
named. -/
theorem parseProgram_eq_ok_iff {text : String} {clauses : List Clause} :
    Clause.parseProgram text = .ok clauses ↔
      ∃ trees : List ClauseTree, ∃ after, program.Derives text.toList trees after ∧
        (trees.map ClauseTree.value).map Clause.nameAnonymous = clauses :=
  (program_describes.decides _ text).accepts clauses

theorem Derives.exists_front {other : List Char} (derives : program.Derives text trees after)
    (same : skipLayout other = skipLayout text) :
    ∃ again : List ClauseTree, ∃ newAfter, program.Derives other again newAfter ∧
      again.map ClauseTree.value = trees.map ClauseTree.value ∧
      again.flatMap ClauseTree.names = trees.flatMap ClauseTree.names := by
  obtain ⟨rfl, fits, afterFits⟩ := program_derives_iff.mp derives
  cases trees with
  | nil =>
      have atEnd : AtEnd other := same.trans afterFits.atEnd
      obtain ⟨newAfter, written, newAfterFits⟩ := atEnd.exists_layout
      exact ⟨[], newAfter, program_derives_iff.mpr ⟨written, trivial, newAfterFits⟩, rfl, rfl⟩
  | cons first others =>
      rw [List.flatMap_cons, List.append_assoc] at same
      obtain ⟨again, rfl, againFits, values, names⟩ := fits.1.exists_front same
      refine ⟨again :: others, after, program_derives_iff.mpr
        ⟨?_, ⟨againFits, fits.2⟩, afterFits⟩, ?_, ?_⟩
      · rw [List.flatMap_cons, List.append_assoc]
      · rw [List.map_cons, values, List.map_cons]
      · rw [List.flatMap_cons, names, List.flatMap_cons]

/-- After its layout a program begins with a character that terms begin with, if it does
not end there. -/
theorem Derives.front_isTermStart (derives : program.Derives text trees after) :
    ∀ c ∈ (skipLayout text).head?, isTermStart c = true := by
  obtain ⟨rfl, fits, afterFits⟩ := program_derives_iff.mp derives
  cases trees with
  | nil =>
      have atEnd : skipLayout after.text = [] := afterFits.atEnd
      simp [atEnd]
  | cons first others =>
      obtain ⟨c, rest, front, start⟩ := fits.1.1.skipLayout_append (by simp)
      rw [List.flatMap_cons, List.append_assoc, ClauseTree.text_append, front]
      intro other member
      cases member
      exact start

end Grammar

/-- Blanks in front of a visible character are layout. -/
theorem isLayout_of_blanks {blanks rest : List Char}
    (blank : ∀ c ∈ blanks, Text.isBlank c = true)
    (visible : ∀ c ∈ (skipLayout (blanks ++ rest)).head?, Text.isBlank c = false) :
    ∀ c ∈ blanks, isLayout c = true := by
  induction blanks with
  | nil => nofun
  | cons c blanks induction =>
      obtain ⟨first, others⟩ := List.forall_mem_cons.mp blank
      by_cases layout : isLayout c = true
      · have skipped : skipLayout (c :: blanks ++ rest) = skipLayout (blanks ++ rest) := by
          simp [skipLayout, dropLayout, layout]
        rw [skipped] at visible
        exact List.forall_mem_cons.mpr ⟨layout, induction others visible⟩
      · have noComment : c ≠ '%' := by
          rintro rfl
          cases first
        have front : skipLayout (c :: blanks ++ rest) = c :: (blanks ++ rest) :=
          skipLayout_solid (by simpa [isSolid, noComment] using layout) _
        rw [front] at visible
        rw [visible c rfl] at first
        cases first

theorem skipLayout_blanks {blanks : List Char} (layout : ∀ c ∈ blanks, isLayout c = true)
    (rest : List Char) : skipLayout (blanks ++ rest) = skipLayout rest := by
  induction blanks with
  | nil => rfl
  | cons c blanks induction =>
      obtain ⟨first, others⟩ := List.forall_mem_cons.mp layout
      have skipped : skipLayout (c :: blanks ++ rest) = skipLayout (blanks ++ rest) := by
        simp [skipLayout, dropLayout, first]
      exact skipped.trans (induction others)

theorem relays_cons : Relays List.cons where
  part _ _ _ := List.foldr_cons_eq_append'
  layout _ _ fits _ _ :=
    ⟨_, List.foldr_cons_eq_append', fits.before_alike rfl⟩

/-! ## Programs in lines -/

/-- These clauses are derived from the text, and no line ends inside of a quoted name. -/
structure LineProgram (text : List Char) (clauses : List Clause) : Prop where
  derived : ∃ trees after, Grammar.program.Derives text trees after ∧
    trees.map ClauseTree.value = clauses ∧
    ∀ name ∈ trees.flatMap ClauseTree.names, '\n' ∉ name.text
  noReturn : '\r' ∉ text

namespace LineProgram

variable {text other : List Char} {clauses : List Clause}

/-- What a program is does not depend on the layout in front of it. -/
theorem front (program : LineProgram text clauses) (same : skipLayout other = skipLayout text)
    (noReturn : '\r' ∉ other) : LineProgram other clauses := by
  obtain ⟨⟨trees, after, derives, values, unbroken⟩, _⟩ := program
  obtain ⟨again, newAfter, newDerives, newValues, newNames⟩ := derives.exists_front same
  exact ⟨⟨again, newAfter, newDerives, newValues.trans values, newNames ▸ unbroken⟩, noReturn⟩

theorem front_isTermStart (program : LineProgram text clauses) :
    ∀ c ∈ (skipLayout text).head?, isTermStart c = true := by
  obtain ⟨⟨_, _, derives, _⟩, _⟩ := program
  exact derives.front_isTermStart

theorem head?_ne {c : Char} (program : LineProgram text clauses) (solid : isSolid c = true)
    (noTerm : isTermStart c = false) : text.head? ≠ some c := by
  intro front
  obtain ⟨rest, rfl⟩ := List.head?_eq_some_iff.mp front
  have start := program.front_isTermStart c (by rw [skipLayout_solid solid]; rfl)
  rw [noTerm] at start
  cases start

theorem parseProgram {text : String} (program : LineProgram text.toList clauses) :
    Clause.parseProgram text = .ok (clauses.map Clause.nameAnonymous) := by
  obtain ⟨⟨trees, after, derives, rfl, _⟩, _⟩ := program
  exact Grammar.parseProgram_eq_ok_iff.mpr ⟨trees, after, derives, rfl⟩

theorem of_parseProgram {text : String} (parsed : Clause.parseProgram text = .ok clauses)
    (noReturn : '\r' ∉ text.toList)
    (unbroken : ∀ trees after, Grammar.program.Derives text.toList trees after →
      ∀ name ∈ trees.flatMap ClauseTree.names, '\n' ∉ name.text) :
    ∃ written, LineProgram text.toList written ∧ written.map Clause.nameAnonymous = clauses := by
  obtain ⟨trees, after, derives, values⟩ := Grammar.parseProgram_eq_ok_iff.mp parsed
  exact ⟨trees.map ClauseTree.value, ⟨⟨trees, after, derives, rfl, unbroken trees after derives⟩,
    noReturn⟩, values⟩

end LineProgram

end HornLogic.Source
