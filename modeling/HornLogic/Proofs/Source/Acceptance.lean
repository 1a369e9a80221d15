import HornLogic.Proofs.Source.Unambiguity
import HornLogic.Source.Parser

/-!
# Parsing accepts exactly the grammar

A grammar describes a reader if the reader reads each derivation before layout to its
end, if everything it reads has a derivation, and if there is only one derivation of a
text.  Terms, queries, clauses and programs are described by their grammars, and so a
whole text is parsed just if it is derived, and to what its derivation stands for.
-/

namespace HornLogic.Source

/-- Nothing but layout is left. -/
def AtEnd (rest : List Char) : Prop :=
  skipLayout rest = []

theorem Layout.Fits.atEnd {layout : Layout} (fits : layout.Fits []) : AtEnd layout.text := by
  have skipped : skipLayout (layout.text ++ []) = skipLayout [] := fits.skipLayout_append
  rwa [List.append_nil] at skipped

namespace AtEnd

variable {rest : List Char}

theorem exists_layout (atEnd : AtEnd rest) :
    ∃ layout : Layout, layout.text = rest ∧ layout.Fits [] := by
  obtain ⟨layout, written, fits⟩ := Source.exists_layout rest
  rw [atEnd] at written fits
  exact ⟨layout, by simpa using written, fits⟩

theorem followsGoals (atEnd : AtEnd rest) : FollowsGoals rest := by
  obtain ⟨layout, rfl, fits⟩ := atEnd.exists_layout
  have follows := fits.followsGoals followsGoals_nil
  rwa [List.append_nil] at follows

theorem token? (atEnd : AtEnd rest) (c : Char) (token : List Char) :
    Source.token? (c :: token) rest = none := by
  rw [Source.token?, atEnd]
  rfl

theorem readTerm (atEnd : AtEnd rest) (bound : Nat) : Source.readTerm bound rest = .error [] := by
  cases bound with
  | zero => rw [Source.readTerm, atEnd]
  | succ bound =>
      rw [Source.readTerm, atEnd]
      rfl

end AtEnd

section

variable {c : Char} {token rest otherRest : List Char} {first second : Option Layout}

theorem optionalToken_some_append (before : Layout) (token rest : List Char) :
    optionalToken token (some before) ++ rest = before.text ++ (token ++ rest) := by
  simp [optionalToken]

/-- A token that may be missing is passed if it is there. -/
theorem token?_optionalToken (solid : isSolid c = true)
    (fits : ∀ before ∈ first, before.Fits (c :: (token ++ rest)))
    (absent : token? (c :: token) rest = none) :
    (token? (c :: token) (optionalToken (c :: token) first ++ rest)).getD
      (optionalToken (c :: token) first ++ rest) = rest := by
  cases first with
  | none => simp [optionalToken, absent]
  | some before =>
      have found := (fits before rfl).token? solid
      rw [optionalToken_some_append, List.cons_append, found]
      rfl

theorem exists_optionalToken (token text : List Char) :
    ∃ before : Option Layout,
      optionalToken token before ++ (token? token text).getD text = text ∧
        ∀ layout ∈ before, layout.Fits (token ++ (token? token text).getD text) := by
  cases found : token? token text with
  | none => exact ⟨none, rfl, by simp⟩
  | some rest =>
      obtain ⟨before, written, fits⟩ := exists_layout_of_token? found
      refine ⟨some before, ?_, by simpa using fits⟩
      rw [optionalToken_some_append]
      exact written

/-- Whether the token is there is told by the text. -/
theorem optionalToken_unique (solid : isSolid c = true)
    (fits : ∀ before ∈ first, before.Fits (c :: (token ++ rest)))
    (otherFits : ∀ before ∈ second, before.Fits (c :: (token ++ otherRest)))
    (absent : token? (c :: token) rest = none)
    (otherAbsent : token? (c :: token) otherRest = none)
    (same : optionalToken (c :: token) first ++ rest =
      optionalToken (c :: token) second ++ otherRest) : first = second ∧ rest = otherRest := by
  cases first with
  | none =>
      cases second with
      | none => exact ⟨rfl, same⟩
      | some before =>
          have begins : rest = _ := same
          rw [optionalToken_some_append, List.cons_append] at begins
          rw [begins, (otherFits before rfl).token? solid] at absent
          cases absent
  | some before =>
      have beforeFits := fits before rfl
      rw [optionalToken_some_append, List.cons_append] at same
      cases second with
      | none =>
          have begins : _ = otherRest := same
          rw [← begins, beforeFits.token? solid] at otherAbsent
          cases otherAbsent
      | some otherBefore =>
          rw [optionalToken_some_append, List.cons_append] at same
          obtain ⟨rfl, _, tokens⟩ := beforeFits.unique_cons (otherFits otherBefore rfl) same
            solid solid
          exact ⟨rfl, List.append_cancel_left tokens⟩

end

namespace ClauseTree

theorem text_append (tree : ClauseTree) (rest : List Char) :
    tree.text ++ rest =
      tree.head.text ++ (bodyText tree.body ++ (tree.stop.text ++ '.' :: rest)) := by
  simp [text]

theorem length_text_pos (tree : ClauseTree) : 0 < tree.text.length := by
  simp only [text, List.length_append, List.length_singleton]
  omega

theorem bodyText_some_append (arrow : Layout) (goals : Tree .goals) (rest : List Char) :
    bodyText (some (arrow, goals)) ++ rest =
      arrow.text ++ ':' :: '-' :: (goals.text ++ rest) := by
  simp [bodyText]

theorem followsGoals_fullStop {stop : Layout} {rest : List Char}
    (fits : stop.Fits ('.' :: rest)) : FollowsGoals (stop.text ++ '.' :: rest) :=
  fits.followsGoals (followsGoals_stop rest)

/-- A head is followed by its body or by the full stop. -/
theorem BodyFits.followsTerm {body : Option (Layout × Tree .goals)} {rest : List Char}
    (fits : BodyFits rest body) (follows : FollowsTerm rest) :
    FollowsTerm (bodyText body ++ rest) := by
  cases body with
  | none => exact follows
  | some both =>
      rw [bodyText_some_append]
      exact fits.1.followsTerm (followsTerm_cons (by decide) (by decide) _)

theorem Fits.followsHead {tree : ClauseTree} {rest : List Char} (fits : tree.Fits rest) :
    FollowsTerm (bodyText tree.body ++ (tree.stop.text ++ '.' :: rest)) :=
  fits.2.1.followsTerm (followsGoals_fullStop fits.2.2).toFollowsTerm

/-- The body of a clause is read up to its full stop. -/
theorem BodyFits.readBody {body : Option (Layout × Tree .goals)} {stop : Layout}
    {rest : List Char} (fits : BodyFits (stop.text ++ '.' :: rest) body)
    (stopFits : stop.Fits ('.' :: rest)) {bound : Nat}
    (enough : (bodyText body).length < bound) :
    readBody bound (bodyText body ++ (stop.text ++ '.' :: rest)) =
      (bodyValue body, stop.text ++ '.' :: rest) := by
  cases body with
  | none =>
      have noArrow : token? [':', '-'] (stop.text ++ '.' :: rest) = none := by
        rw [stopFits.token?_append]
        rfl
      simp [Source.readBody, bodyText, bodyValue, noArrow]
  | some both =>
      obtain ⟨arrow, goals⟩ := both
      obtain ⟨arrowFits, goalsFit⟩ := fits
      simp only [bodyText, List.length_append, List.length_cons] at enough
      have smaller : goals.text.length < bound := by omega
      have arrowRead : token? [':', '-']
          (arrow.text ++ ':' :: '-' :: (goals.text ++ (stop.text ++ '.' :: rest))) =
          some (goals.text ++ (stop.text ++ '.' :: rest)) :=
        arrowFits.token? (by decide)
      have goalsRead := goals.isRead goalsFit (followsGoals_fullStop stopFits) smaller bound
        smaller.le
      rw [bodyText_some_append]
      simp [Source.readBody, bodyValue, arrowRead, goalsRead]

theorem Fits.readClause {tree : ClauseTree} {rest : List Char} (fits : tree.Fits rest)
    {bound : Nat} (enough : tree.text.length < bound) :
    readClause bound (tree.text ++ rest) = .ok (tree.value, rest) := by
  simp only [text, List.length_append] at enough
  have shortHead : tree.head.text.length < bound := by omega
  have shortBody : (bodyText tree.body).length < bound := by omega
  have headRead : readTerm bound _ = _ := tree.head.isRead fits.1 fits.followsHead shortHead
  have bodyRead := fits.2.1.readBody fits.2.2 shortBody
  have stopRead : token? ['.'] (tree.stop.text ++ '.' :: rest) = some rest :=
    @Layout.Fits.token? tree.stop '.' [] rest fits.2.2 (by decide)
  rw [text_append]
  simp only [Source.readClause, headRead, bodyRead, stopRead]
  rfl

/-- A body that is read is derived, and so is the clause up to its full stop. -/
theorem exists_body {bound : Nat} {text rest : List Char} {body : List Term}
    (read : readBody bound text = (body, rest)) :
    ∃ tree : Option (Layout × Tree .goals), bodyText tree ++ rest = text ∧ BodyFits rest tree ∧
      bodyValue tree = body := by
  unfold readBody at read
  split at read
  · next first others afterGoals found =>
      obtain ⟨rfl, rfl⟩ := Prod.mk.inj read
      obtain ⟨afterArrow, arrowRead, found⟩ := Option.map_eq_some_iff.mp found
      obtain ⟨goals, rfl, goalsFit, values⟩ :=
        readGoals_covered (readTerm_covered bound) bound found
      obtain ⟨arrow, rfl, arrowFits⟩ := exists_layout_of_token? arrowRead
      exact ⟨some (arrow, goals), bodyText_some_append _ _ _, ⟨arrowFits, goalsFit⟩,
        by simp [bodyValue, values]⟩
  · obtain ⟨rfl, rfl⟩ := Prod.mk.inj read
    exact ⟨none, rfl, trivial, rfl⟩

theorem exists_clause {bound : Nat} {text rest : List Char} {clause : Clause}
    (read : readClause bound text = .ok (clause, rest)) :
    ∃ tree : ClauseTree, tree.text ++ rest = text ∧ tree.Fits rest ∧ tree.value = clause := by
  unfold readClause at read
  split at read
  · cases read
  · next headValue afterHead headRead =>
      obtain ⟨head, rfl, headFits, rfl⟩ := readTerm_covered bound headRead
      cases bodyRead : readBody bound afterHead with
      | mk bodyValue afterBody =>
          simp only [bodyRead] at read
          obtain ⟨body, rfl, bodyFits, rfl⟩ := exists_body bodyRead
          split at read
          · next stopRead =>
              obtain ⟨rfl, rfl⟩ := Prod.mk.inj (Except.ok.inj read)
              obtain ⟨stop, rfl, stopFits⟩ := exists_layout_of_token? stopRead
              exact ⟨⟨head, body, stop⟩, text_append _ _, ⟨headFits, bodyFits, stopFits⟩, rfl⟩
          · cases read

/-- The body of a clause with its full stop is derived in one way. -/
theorem BodyFits.unique {body otherBody : Option (Layout × Tree .goals)}
    {stop otherStop : Layout} {rest otherRest : List Char}
    (fits : BodyFits (stop.text ++ '.' :: rest) body) (stopFits : stop.Fits ('.' :: rest))
    (otherFits : BodyFits (otherStop.text ++ '.' :: otherRest) otherBody)
    (otherStopFits : otherStop.Fits ('.' :: otherRest))
    (same : bodyText body ++ (stop.text ++ '.' :: rest) =
      bodyText otherBody ++ (otherStop.text ++ '.' :: otherRest)) :
    body = otherBody ∧ stop = otherStop ∧ rest = otherRest := by
  cases body with
  | none =>
      cases otherBody with
      | none =>
          obtain ⟨rfl, _, rfl⟩ := stopFits.unique_cons otherStopFits same
          exact ⟨rfl, rfl, rfl⟩
      | some both =>
          rw [bodyText_some_append] at same
          obtain ⟨_, differs, _⟩ := stopFits.unique_cons otherFits.1 same
          cases differs
  | some both =>
      rw [bodyText_some_append] at same
      cases otherBody with
      | none =>
          obtain ⟨_, differs, _⟩ := fits.1.unique_cons otherStopFits same
          cases differs
      | some otherBoth =>
          obtain ⟨arrow, goals⟩ := both
          obtain ⟨otherArrow, otherGoals⟩ := otherBoth
          rw [bodyText_some_append] at same
          obtain ⟨rfl, _, sameGoals⟩ := fits.1.unique_cons otherFits.1 same
          obtain ⟨rfl, sameStop⟩ := goals.isUnique fits.2 otherFits.2
            (followsGoals_fullStop stopFits) (followsGoals_fullStop otherStopFits)
            (List.cons.inj sameGoals).2
          obtain ⟨rfl, _, rfl⟩ := stopFits.unique_cons otherStopFits sameStop
          exact ⟨rfl, rfl, rfl⟩

theorem Fits.unique {tree other : ClauseTree} {rest otherRest : List Char}
    (fits : tree.Fits rest) (otherFits : other.Fits otherRest)
    (same : tree.text ++ rest = other.text ++ otherRest) : tree = other ∧ rest = otherRest := by
  rw [text_append, text_append] at same
  obtain ⟨heads, sameBody⟩ := tree.head.isUnique fits.1 otherFits.1 fits.followsHead
    otherFits.followsHead same
  obtain ⟨bodies, stops, rests⟩ := fits.2.1.unique fits.2.2 otherFits.2.1 otherFits.2.2 sameBody
  cases tree
  cases other
  cases heads
  cases bodies
  cases stops
  exact ⟨rfl, rests⟩

end ClauseTree

namespace QueryTree

theorem text_append (tree : QueryTree) (rest : List Char) :
    tree.text ++ rest =
      optionalToken ['?', '-'] tree.prompt ++
        (tree.goals.text ++ (optionalToken ['.'] tree.stop ++ rest)) := by
  simp [text]

/-- Goals do not begin with a prompt. -/
theorem noPrompt {goals : Tree .goals} {rest : List Char} (fits : goals.Fits rest) :
    token? ['?', '-'] (goals.text ++ rest) = none := by
  obtain ⟨c, others, front, start⟩ := fits.skipLayout_append (by simp)
  have noMark : '?' ≠ c := (ne_of_isTermStart start (by decide)).symm
  simp [token?, front, List.isPrefixOf?, noMark]

/-- Goals before a full stop, or before the end of a text. -/
theorem Fits.followsGoals {tree : QueryTree} {rest : List Char} (fits : tree.Fits rest)
    (atEnd : AtEnd rest) : FollowsGoals (optionalToken ['.'] tree.stop ++ rest) := by
  cases stop : tree.stop with
  | none => exact atEnd.followsGoals
  | some before =>
      rw [optionalToken_some_append]
      exact (fits.2.2 before stop).followsGoals (followsGoals_stop rest)

theorem Fits.readQuery {tree : QueryTree} {rest : List Char} (fits : tree.Fits rest)
    (atEnd : AtEnd rest) {bound : Nat} (enough : tree.text.length < bound) :
    readQuery bound (tree.text ++ rest) = .ok (tree.value, rest) := by
  simp only [text, List.length_append] at enough
  have smaller : tree.goals.text.length < bound := by omega
  have promptRead := @token?_optionalToken '?' ['-']
    (tree.goals.text ++ (optionalToken ['.'] tree.stop ++ rest)) tree.prompt (by decide)
    fits.1 (noPrompt fits.2.1)
  have goalsRead := tree.goals.isRead fits.2.1 (fits.followsGoals atEnd) smaller bound smaller.le
  have stopRead := @token?_optionalToken '.' [] rest tree.stop (by decide) fits.2.2
    (atEnd.token? '.' [])
  rw [text_append]
  simp only [Source.readQuery, promptRead, goalsRead, stopRead]
  rfl

theorem exists_query {bound : Nat} {text rest : List Char} {query : Term}
    (read : readQuery bound text = .ok (query, rest)) :
    ∃ tree : QueryTree, tree.text ++ rest = text ∧ tree.Fits rest ∧ tree.value = query := by
  unfold readQuery at read
  obtain ⟨prompt, promptWritten, promptFits⟩ := exists_optionalToken ['?', '-'] text
  split at read
  · cases read
  · next first others afterGoals goalsRead =>
      obtain ⟨rfl, rfl⟩ := Prod.mk.inj (Except.ok.inj read)
      obtain ⟨goals, goalsWritten, goalsFit, values⟩ :=
        readGoals_covered (readTerm_covered bound) bound goalsRead
      obtain ⟨stop, stopWritten, stopFits⟩ := exists_optionalToken ['.'] afterGoals
      refine ⟨⟨prompt, goals, stop⟩, ?_, ⟨?_, ?_, stopFits⟩, ?_⟩
      · rw [text_append, stopWritten, goalsWritten, promptWritten]
      · rw [stopWritten, goalsWritten]
        exact promptFits
      · rw [stopWritten]
        exact goalsFit
      · simp [value, values]

theorem Fits.unique {tree other : QueryTree} {rest otherRest : List Char}
    (fits : tree.Fits rest) (otherFits : other.Fits otherRest) (atEnd : AtEnd rest)
    (otherAtEnd : AtEnd otherRest) (same : tree.text ++ rest = other.text ++ otherRest) :
    tree = other ∧ rest = otherRest := by
  rw [text_append, text_append] at same
  obtain ⟨prompts, sameGoals⟩ := optionalToken_unique (by decide) fits.1 otherFits.1
    (noPrompt fits.2.1) (noPrompt otherFits.2.1) same
  obtain ⟨goals, sameStop⟩ := tree.goals.isUnique fits.2.1 otherFits.2.1
    (fits.followsGoals atEnd) (otherFits.followsGoals otherAtEnd) sameGoals
  obtain ⟨stops, rests⟩ := optionalToken_unique (by decide) fits.2.2 otherFits.2.2
    (atEnd.token? '.' []) (otherAtEnd.token? '.' []) sameStop
  cases tree
  cases other
  cases prompts
  cases goals
  cases stops
  exact ⟨rfl, rests⟩

end QueryTree

/-! ## Grammars of readers -/

namespace Grammar

/-- The reader reads what is derived, at the end of a text, and nothing else; and what is
derived is derived in one way. -/
structure Describes {α : Type} (grammar : Grammar α) (read : (bound : Nat) → Reader α) :
    Prop where
  isRead : ∀ {tree rest bound}, grammar.Fits tree rest → AtEnd rest →
    (grammar.text tree ++ rest).length < bound →
    read bound (grammar.text tree ++ rest) = .ok (grammar.value tree, rest)
  covers : ∀ {bound text value rest}, read bound text = .ok (value, rest) →
    ∃ tree, grammar.text tree ++ rest = text ∧ grammar.Fits tree rest ∧
      grammar.value tree = value
  isUnique : ∀ {tree other rest otherRest}, grammar.Fits tree rest →
    grammar.Fits other otherRest → AtEnd rest → AtEnd otherRest →
    grammar.text tree ++ rest = grammar.text other ++ otherRest →
    tree = other ∧ rest = otherRest

theorem length_text_lt {text rest : List Char} {bound : Nat}
    (enough : (text ++ rest).length < bound) : text.length < bound := by
  rw [List.length_append] at enough
  omega

theorem term_describes : term.Describes fun bound => readGoal (readTerm bound) where
  isRead fits atEnd enough :=
    Tree.isRead _ fits atEnd.followsGoals.toFollowsGoal (length_text_lt enough)
  covers read := readGoal_covered (readTerm_covered _) read
  isUnique fits otherFits atEnd otherAtEnd same :=
    Tree.isUnique _ fits otherFits atEnd.followsGoals.toFollowsGoal
      otherAtEnd.followsGoals.toFollowsGoal same

theorem query_describes : query.Describes readQuery where
  isRead fits atEnd enough := QueryTree.Fits.readQuery fits atEnd (length_text_lt enough)
  covers read := QueryTree.exists_query read
  isUnique fits otherFits atEnd otherAtEnd same :=
    QueryTree.Fits.unique fits otherFits atEnd otherAtEnd same

theorem clause_describes : clause.Describes readClause where
  isRead fits _ enough := ClauseTree.Fits.readClause fits (length_text_lt enough)
  covers read := ClauseTree.exists_clause read
  isUnique fits otherFits _ _ same := ClauseTree.Fits.unique fits otherFits same

theorem programFits_append {ended others : List ClauseTree} {rest : List Char} :
    ProgramFits (ended ++ others) rest ↔
      ProgramFits ended (others.flatMap ClauseTree.text ++ rest) ∧ ProgramFits others rest := by
  induction ended with
  | nil => simp [ProgramFits]
  | cons first ended induction => simp [ProgramFits, induction, and_assoc]

theorem ProgramFits.readClauses {trees : List ClauseTree} {rest : List Char}
    (fits : ProgramFits trees rest) (atEnd : AtEnd rest) {bound count : Nat}
    (enough : (trees.flatMap ClauseTree.text).length < bound)
    (enoughClauses : (trees.flatMap ClauseTree.text).length ≤ count) :
    readClauses bound count (trees.flatMap ClauseTree.text ++ rest) =
      (trees.map ClauseTree.value, rest) := by
  induction trees generalizing count with
  | nil =>
      cases count with
      | zero => rfl
      | succ count => simp [Source.readClauses, readClause, atEnd.readTerm bound]
  | cons first others induction =>
      obtain ⟨firstFits, othersFit⟩ := fits
      -- A clause is not empty, so the count goes down with the text.
      have nonempty := first.length_text_pos
      rw [List.flatMap_cons, List.length_append] at enough enoughClauses
      obtain ⟨count, rfl⟩ : ∃ less, count = less + 1 :=
        Nat.exists_eq_succ_of_ne_zero (by omega)
      have short : first.text.length < bound := by omega
      have firstRead := firstFits.readClause short
      have othersRead : Source.readClauses bound count _ = _ :=
        induction othersFit (by omega) (by omega)
      rw [List.flatMap_cons, List.append_assoc]
      simp [Source.readClauses, firstRead, othersRead]

theorem exists_program {bound count : Nat} {text rest : List Char} {clauses : List Clause}
    (read : readClauses bound count text = (clauses, rest)) :
    ∃ trees : List ClauseTree, trees.flatMap ClauseTree.text ++ rest = text ∧
      ProgramFits trees rest ∧ trees.map ClauseTree.value = clauses := by
  induction count generalizing text clauses with
  | zero =>
      obtain ⟨rfl, rfl⟩ := Prod.mk.inj read
      exact ⟨[], rfl, trivial, rfl⟩
  | succ count induction =>
      unfold readClauses at read
      split at read
      · obtain ⟨rfl, rfl⟩ := Prod.mk.inj read
        exact ⟨[], rfl, trivial, rfl⟩
      · next clause afterClause firstRead =>
          obtain ⟨rfl, rfl⟩ := Prod.mk.inj read
          obtain ⟨first, rfl, firstFits, rfl⟩ := ClauseTree.exists_clause firstRead
          obtain ⟨others, written, othersFit, values⟩ := induction rfl
          refine ⟨first :: others, ?_, ⟨?_, othersFit⟩, ?_⟩
          · rw [List.flatMap_cons, List.append_assoc, written]
          · rw [written]
            exact firstFits
          · rw [List.map_cons, values]

/-- Where a clause begins a text is not at its end. -/
theorem not_atEnd_clause {tree : ClauseTree} {rest : List Char} (fits : tree.Fits rest) :
    ¬ AtEnd (tree.text ++ rest) := by
  intro atEnd
  rw [ClauseTree.text_append] at atEnd
  obtain ⟨c, others, front, _⟩ := fits.1.skipLayout_append (by simp)
  rw [AtEnd, front] at atEnd
  cases atEnd

theorem ProgramFits.unique {trees others : List ClauseTree} {rest otherRest : List Char}
    (fits : ProgramFits trees rest) (otherFits : ProgramFits others otherRest)
    (atEnd : AtEnd rest) (otherAtEnd : AtEnd otherRest)
    (same : trees.flatMap ClauseTree.text ++ rest =
      others.flatMap ClauseTree.text ++ otherRest) : trees = others ∧ rest = otherRest := by
  induction trees generalizing others with
  | nil =>
      cases others with
      | nil => exact ⟨rfl, same⟩
      | cons other more =>
          rw [List.flatMap_cons, List.append_assoc] at same
          have begins : rest = _ := same
          rw [begins] at atEnd
          exact absurd atEnd (not_atEnd_clause otherFits.1)
  | cons first trees induction =>
      rw [List.flatMap_cons, List.append_assoc] at same
      cases others with
      | nil =>
          have begins : _ = otherRest := same
          rw [← begins] at otherAtEnd
          exact absurd otherAtEnd (not_atEnd_clause fits.1)
      | cons other more =>
          rw [List.flatMap_cons, List.append_assoc] at same
          obtain ⟨rfl, sameOthers⟩ := fits.1.unique otherFits.1 same
          obtain ⟨rfl, rfl⟩ := induction fits.2 otherFits.2 sameOthers
          exact ⟨rfl, rfl⟩

theorem program_describes :
    program.Describes fun bound text => .ok (readClauses bound bound text) where
  isRead fits atEnd enough :=
    congrArg Except.ok (ProgramFits.readClauses fits atEnd (length_text_lt enough)
      (length_text_lt enough).le)
  covers read := exists_program (Except.ok.inj read)
  isUnique fits otherFits atEnd otherAtEnd same :=
    ProgramFits.unique fits otherFits atEnd otherAtEnd same

/-- A result is what a grammar says of a text: a value just if the text is derived, and
then what its only derivation stands for, with its anonymous variables named. -/
structure Decides {α : Type} (grammar : Grammar α) (name : α → α) (text : String)
    (result : Except Fault α) : Prop where
  accepts : ∀ value, result = .ok value ↔
    ∃ tree after, grammar.Derives text.toList tree after ∧ name (grammar.value tree) = value
  isUnique : ∀ tree after other otherAfter, grammar.Derives text.toList tree after →
    grammar.Derives text.toList other otherAfter → tree = other ∧ after = otherAfter

section

variable {α : Type} {grammar : Grammar α} {read : (bound : Nat) → Reader α}

theorem Describes.parseAll_eq_ok_iff (describes : grammar.Describes read) (text : String)
    (value : α) :
    parseAll read text = .ok value ↔
      ∃ tree after, grammar.Derives text.toList tree after ∧ grammar.value tree = value := by
  constructor
  · intro parsed
    unfold parseAll at parsed
    split at parsed
    · cases parsed
    · next rest found =>
        split at parsed
        · next left =>
            cases parsed
            have atEnd : AtEnd rest := List.isEmpty_iff.mp left
            obtain ⟨tree, written, fits, rfl⟩ := describes.covers found
            obtain ⟨after, rfl, afterFits⟩ := atEnd.exists_layout
            exact ⟨tree, after, ⟨written, fits, afterFits⟩, rfl⟩
        · cases parsed
  · rintro ⟨tree, after, ⟨written, fits, afterFits⟩, rfl⟩
    have found := describes.isRead fits afterFits.atEnd (Nat.lt_succ_self _)
    rw [written] at found
    have atEnd : skipLayout after.text = [] := afterFits.atEnd
    simp [parseAll, found, atEnd]

theorem Describes.decides (describes : grammar.Describes read) (name : α → α)
    (text : String) : grammar.Decides name text ((parseAll read text).map name) where
  accepts value := by
    constructor
    · intro parsed
      cases found : parseAll read text with
      | error fault =>
          rw [found] at parsed
          cases parsed
      | ok original =>
          rw [found] at parsed
          cases parsed
          obtain ⟨tree, after, derives, rfl⟩ :=
            (describes.parseAll_eq_ok_iff text original).mp found
          exact ⟨tree, after, derives, rfl⟩
    · rintro ⟨tree, after, derives, rfl⟩
      rw [(describes.parseAll_eq_ok_iff text _).mpr ⟨tree, after, derives, rfl⟩]
      rfl
  isUnique tree after other otherAfter derives otherDerives := by
    obtain ⟨trees, texts⟩ := describes.isUnique derives.fits otherDerives.fits
      derives.atEnd.atEnd otherDerives.atEnd.atEnd
      (derives.written.trans otherDerives.written.symm)
    obtain ⟨layouts, _⟩ := derives.atEnd.unique otherDerives.atEnd rfl rfl
      (congrArg (· ++ []) texts)
    exact ⟨trees, layouts⟩

end

end Grammar

/-- Terms, queries, clauses and programs are parsed just if they are derived from their
grammars, and to what their only derivations stand for. -/
theorem parse_accepts_exactly_grammar (text : String) :
    Grammar.term.Decides Term.nameAnonymous text (Term.parse text) ∧
      Grammar.query.Decides Term.nameAnonymous text (Term.parseQuery text) ∧
      Grammar.clause.Decides Clause.nameAnonymous text (Clause.parse text) ∧
      Grammar.program.Decides (List.map Clause.nameAnonymous) text (Clause.parseProgram text) :=
  ⟨Grammar.term_describes.decides _ text, Grammar.query_describes.decides _ text,
    Grammar.clause_describes.decides _ text, Grammar.program_describes.decides _ text⟩

end HornLogic.Source
