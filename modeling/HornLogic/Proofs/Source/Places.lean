import HornLogic.Proofs.Source.Relayout

/-!
# Places in a source text

Reading a text from its beginning one is in code, between quotes, after a backslash there,
or in a comment.  Read along a derivation, every part and every layout before a part leads
from code to code, and a full stop is found in code only where a clause ends.
-/

namespace HornLogic.Source

/-- Where one is in a text. -/
inductive Place where
  | code
  | quoted
  /-- Between quotes and after a backslash. -/
  | escaped
  | comment
  deriving DecidableEq

namespace Place

/-- Where a character leads. -/
def next : Place → Char → Place
  | .code, c => if c = '%' then .comment else if c = '\'' then .quoted else .code
  | .quoted, c => if c = '\\' then .escaped else if c = '\'' then .code else .quoted
  | .escaped, _ => .quoted
  | .comment, c => if c = '\n' then .code else .comment

def after (place : Place) (text : List Char) : Place :=
  text.foldl next place

theorem after_append (place : Place) (first second : List Char) :
    place.after (first ++ second) = (place.after first).after second :=
  List.foldl_append

/-- A comment is left at the end of its line only. -/
theorem after_comment {text : List Char} (oneLine : '\n' ∉ text) :
    comment.after text = .comment := by
  induction text with
  | nil => rfl
  | cons c text induction =>
      simp only [List.mem_cons, not_or] at oneLine
      have stays : comment.next c = .comment := if_neg (Ne.symm oneLine.1)
      rw [after, List.foldl_cons, stays]
      exact induction oneLine.2

end Place

/-- All characters of a text are allowed at the places where they are read. -/
def Along (allowed : Place → Char → Prop) : Place → List Char → Prop
  | _, [] => True
  | place, c :: rest => allowed place c ∧ Along allowed (place.next c) rest

namespace Along

variable {allowed other : Place → Char → Prop} {place : Place} {first second : List Char}

theorem append_iff :
    Along allowed place (first ++ second) ↔
      Along allowed place first ∧ Along allowed (place.after first) second := by
  induction first generalizing place with
  | nil => simp [Along, Place.after]
  | cons c first induction => simp [Along, Place.after, induction, and_assoc]

theorem mono (along : Along allowed place first)
    (weaker : ∀ place c, allowed place c → other place c) : Along other place first := by
  induction first generalizing place with
  | nil => trivial
  | cons c first induction => exact ⟨weaker place c along.1, induction along.2⟩

theorem at_place {c : Char} {rest : List Char} (along : Along allowed place (first ++ c :: rest)) :
    allowed (place.after first) c :=
  (append_iff.mp along).2.1

end Along

/-- Lines end in code or in comments. -/
def LineEndAllowed (place : Place) (c : Char) : Prop :=
  c = '\n' → place.next c = .code

/-- No full stop stands in code, and lines end in code or in comments. -/
def QuietlyAllowed (place : Place) (c : Char) : Prop :=
  (place = .code → c ≠ '.') ∧ LineEndAllowed place c

theorem quietlyAllowed_of_ne {c : Char} (noStop : c ≠ '.') (noEnd : c ≠ '\n') (place : Place) :
    QuietlyAllowed place c :=
  ⟨fun _ => noStop, fun lineEnd => absurd lineEnd noEnd⟩

theorem quietlyAllowed_outside {place : Place} (outside : place ≠ .code) {c : Char}
    (noEnd : c ≠ '\n') : QuietlyAllowed place c :=
  ⟨fun code => absurd code outside, fun lineEnd => absurd lineEnd noEnd⟩

/-- The text leads from code to code, and no clause ends in it. -/
structure Passes (text : List Char) : Prop where
  along : Along QuietlyAllowed .code text
  after : Place.code.after text = .code

namespace Passes

variable {first second : List Char}

theorem append (passes : Passes first) (secondPasses : Passes second) :
    Passes (first ++ second) where
  along := Along.append_iff.mpr ⟨passes.along, by rw [passes.after]; exact secondPasses.along⟩
  after := by rw [Place.after_append, passes.after, secondPasses.after]

theorem cons {c : Char} (mark : c ≠ '.' ∧ c ≠ '%' ∧ c ≠ '\'') {rest : List Char}
    (passes : Passes rest) : Passes (c :: rest) := by
  have stays : Place.code.next c = .code := by simp [Place.next, mark.2.1, mark.2.2]
  refine ⟨⟨⟨fun _ => mark.1, fun _ => stays⟩, ?_⟩, ?_⟩
  · rw [stays]
    exact passes.along
  · rw [Place.after, List.foldl_cons, stays]
    exact passes.after

theorem nil : Passes [] :=
  ⟨trivial, rfl⟩

theorem of_marks {text : List Char} (marks : ∀ c ∈ text, c ≠ '.' ∧ c ≠ '%' ∧ c ≠ '\'') :
    Passes text := by
  induction text with
  | nil => exact nil
  | cons c text induction =>
      obtain ⟨first, others⟩ := List.forall_mem_cons.mp marks
      exact cons first (induction others)

end Passes

theorem along_comment {body : List Char} (oneLine : '\n' ∉ body) :
    Along QuietlyAllowed .comment body := by
  induction body with
  | nil => trivial
  | cons c body induction =>
      simp only [List.mem_cons, not_or] at oneLine
      have stays : Place.comment.next c = .comment := if_neg (Ne.symm oneLine.1)
      refine ⟨quietlyAllowed_outside (by decide) (Ne.symm oneLine.1), ?_⟩
      rw [stays]
      exact induction oneLine.2

/-- Layout leads to code, or into a comment up to the end of its line. -/
theorem Layout.Fits.along {layout : Layout} {rest : List Char} (fits : layout.Fits rest)
    (noReturn : '\r' ∉ layout.text) :
    Along QuietlyAllowed .code layout.text ∧
      (Place.code.after layout.text = .code ∨
        Place.code.after layout.text = .comment ∧ ∀ c ∈ rest.head?, EndsLine c) := by
  induction layout with
  | none => exact ⟨trivial, .inl rfl⟩
  | blank c after induction =>
      simp only [text, List.mem_cons, not_or] at noReturn
      obtain ⟨along, place⟩ := induction fits.2 noReturn.2
      have mark : c ≠ '.' ∧ c ≠ '%' ∧ c ≠ '\'' := by
        rcases fits.1 with rfl | rfl | rfl | rfl <;> decide
      have stays : Place.code.next c = .code := by simp [Place.next, mark.2.1, mark.2.2]
      rw [text, Along, Place.after, List.foldl_cons, stays]
      exact ⟨⟨⟨fun _ => mark.1, fun _ => stays⟩, along⟩, place⟩
  | comment body after induction =>
      simp only [text, List.mem_cons, List.mem_append, not_or] at noReturn
      obtain ⟨along, place⟩ := induction fits.2 noReturn.2.2
      have oneLine : '\n' ∉ body := fun member => fits.1.1 _ member (.inr rfl)
      have opens : Along QuietlyAllowed .code ('%' :: body) ∧
          Place.code.after ('%' :: body) = .comment :=
        ⟨⟨quietlyAllowed_of_ne (by decide) (by decide) _, along_comment oneLine⟩,
          Place.after_comment oneLine⟩
      rw [text, ← List.cons_append, Along.append_iff, Place.after_append, opens.2]
      cases characters : after.text with
      | nil =>
          refine ⟨⟨opens.1, trivial⟩, .inr ⟨rfl, fun c member => ?_⟩⟩
          exact not_not.mp (fits.1.2 c (by simpa [characters] using member))
      | cons c others =>
          rw [characters] at along place noReturn
          -- The comment ends with the line, and the line end leads back to code.
          obtain rfl : c = '\n' :=
            (not_not.mp (fits.1.2 c (by simp [characters]))).resolve_left
              fun same => noReturn.2.2 (by simp [same])
          exact ⟨⟨opens.1, ⟨fun _ => by decide, fun _ => rfl⟩, along.2⟩, place⟩

theorem Layout.Fits.passes {layout : Layout} {c : Char} {rest : List Char}
    (fits : layout.Fits (c :: rest)) (solid : isSolid c = true) (noReturn : '\r' ∉ layout.text) :
    Passes layout.text := by
  obtain ⟨along, code | ⟨_, lineEnds⟩⟩ := fits.along noReturn
  · exact ⟨along, code⟩
  · have layoutMark := (lineEnds c rfl).isBlank.isLayout
    simp [isSolid, layoutMark] at solid

theorem passes_word {word : List Char} (inWord : ∀ c ∈ word, isIdentifierRest c = true) :
    Passes word := by
  refine .of_marks fun c member => ⟨?_, ?_, ?_⟩
  all_goals
    rintro rfl
    cases inWord _ member

theorem along_parts {parts : List QuotedPart} (meant : ∀ part ∈ parts, part.meaning?.isSome)
    (oneLine : '\n' ∉ parts.flatMap QuotedPart.text) :
    Along QuietlyAllowed .quoted (parts.flatMap QuotedPart.text) ∧
      Place.quoted.after (parts.flatMap QuotedPart.text) = .quoted := by
  induction parts with
  | nil => exact ⟨trivial, rfl⟩
  | cons part parts induction =>
      obtain ⟨first, others⟩ := List.forall_mem_cons.mp meant
      rw [List.flatMap_cons, List.mem_append, not_or] at oneLine
      obtain ⟨along, place⟩ := induction others oneLine.2
      have firstStays : Along QuietlyAllowed .quoted part.text ∧
          Place.quoted.after part.text = .quoted := by
        cases part with
        | bare c =>
            have noLineEnd : c ≠ '\n' := by
              rintro rfl
              exact oneLine.1 List.mem_cons_self
            have noQuote : c ≠ '\'' := by
              rintro rfl
              cases first
            have noBackslash : c ≠ '\\' := by
              rintro rfl
              cases first
            have stays : Place.quoted.next c = .quoted := by simp [Place.next, noQuote, noBackslash]
            exact ⟨⟨quietlyAllowed_outside (by decide) noLineEnd, trivial⟩, stays⟩
        | escaped c =>
            have noLineEnd : c ≠ '\n' := by
              rintro rfl
              cases first
            exact ⟨⟨quietlyAllowed_outside (by decide) (by decide),
              quietlyAllowed_outside (by decide) noLineEnd, trivial⟩, rfl⟩
      rw [List.flatMap_cons, Along.append_iff, Place.after_append, firstStays.2]
      exact ⟨⟨firstStays.1, along⟩, place⟩

theorem NameTree.Fits.passes {name : NameTree} {rest : List Char} (fits : name.Fits rest)
    (oneLine : '\n' ∉ name.text) : Passes name.text := by
  cases name with
  | plain first others =>
      exact passes_word (List.forall_mem_cons.mpr ⟨isIdentifierRest_iff.mpr (.inl fits.1),
        fun c member => isIdentifierRest_iff.mpr (fits.2.1 c member)⟩)
  | number first others =>
      exact passes_word (List.forall_mem_cons.mpr ⟨isIdentifierRest_of_isDecimalDigit fits.1,
        fun c member => isIdentifierRest_of_isDecimalDigit (fits.2.1 c member)⟩)
  | quoted parts =>
      simp only [text, List.mem_cons, List.mem_append, not_or] at oneLine
      obtain ⟨along, place⟩ := along_parts fits oneLine.2.1
      have opens : Place.code.next '\'' = .quoted := rfl
      refine ⟨⟨quietlyAllowed_of_ne (by decide) (by decide) _, ?_⟩, ?_⟩
      · rw [opens, Along.append_iff, place]
        exact ⟨along, quietlyAllowed_of_ne (by decide) (by decide) _, trivial⟩
      · rw [text, Place.after, List.foldl_cons, opens]
        change Place.quoted.after (parts.flatMap QuotedPart.text ++ ['\'']) = .code
        rw [Place.after_append, place]
        rfl

/-- Terms and goals lead from code to code, and no clause ends in them. -/
theorem Tree.Fits.passes {kind : Nonterminal} {tree : Tree kind} {rest : List Char}
    (fits : tree.Fits rest) (unbroken : ∀ name ∈ tree.names, '\n' ∉ name.text)
    (noReturn : '\r' ∉ tree.text) : Passes tree.text := by
  induction tree generalizing rest with
  | group before inside closing induction =>
      simp only [text, List.mem_append, List.mem_cons, not_or] at noReturn
      obtain ⟨noneBefore, _, noneInside, noneClosing, _⟩ := noReturn
      have beforePasses := fits.1.passes (by decide) noneBefore
      have insidePasses := induction fits.2.1 unbroken noneInside
      have closingPasses := fits.2.2.passes (by decide) noneClosing
      exact beforePasses.append
        (.cons (by decide) (insidePasses.append (closingPasses.append (.cons (by decide) .nil))))
  | identifier before first others =>
      simp only [text, List.mem_append, not_or] at noReturn
      have start := fits.2.1.isTermStart
      have beforePasses := fits.1.passes (isSolid_of_isTermStart start) noReturn.1
      refine beforePasses.append (passes_word (List.forall_mem_cons.mpr ⟨?_, ?_⟩))
      · rcases fits.2.1 with capital | rfl
        · exact isIdentifierRest_iff.mpr (.inr (.inl capital))
        · decide
      · exact fun c member => isIdentifierRest_iff.mpr (fits.2.2.1 c member)
  | named before name args induction =>
      simp only [text, List.mem_append, not_or] at noReturn
      obtain ⟨oneLine, argsUnbroken⟩ := List.forall_mem_cons.mp unbroken
      obtain ⟨c, others, characters, nameStart⟩ := fits.2.1.exists_text_eq_cons
      have beforeFits := fits.1
      rw [characters, List.cons_append] at beforeFits
      have beforePasses := beforeFits.passes
        (isSolid_of_isTermStart (isTermStart_of_isNameStart nameStart)) noReturn.1
      exact beforePasses.append
        ((fits.2.1.passes oneLine).append (induction fits.2.2 argsUnbroken noReturn.2.2))
  | noArguments => exact .nil
  | emptyArguments closing =>
      simp only [text, List.mem_append, List.mem_cons, not_or] at noReturn
      have closingPasses := Layout.Fits.passes fits (by decide) noReturn.2.1
      exact .cons (by decide) (closingPasses.append (.cons (by decide) .nil))
  | someArguments inside closing induction =>
      simp only [text, List.mem_append, List.mem_cons, not_or] at noReturn
      obtain ⟨_, noneInside, noneClosing, _⟩ := noReturn
      have insidePasses := induction fits.1 unbroken noneInside
      have closingPasses := fits.2.passes (by decide) noneClosing
      exact .cons (by decide)
        (insidePasses.append (closingPasses.append (.cons (by decide) .nil)))
  | single primary induction => exact induction fits unbroken noReturn
  | test left operator right leftInduction rightInduction =>
      simp only [text, List.mem_append, List.mem_cons, not_or] at noReturn
      obtain ⟨noneLeft, noneOperator, _, _, noneRight⟩ := noReturn
      obtain ⟨leftUnbroken, rightUnbroken⟩ := List.forall_mem_append.mp unbroken
      have leftPasses := leftInduction fits.1 leftUnbroken noneLeft
      have operatorPasses := fits.2.1.passes (by decide) noneOperator
      have rightPasses := rightInduction fits.2.2 rightUnbroken noneRight
      exact leftPasses.append
        (operatorPasses.append (.cons (by decide) (.cons (by decide) rightPasses)))
  | last goal induction => exact induction fits unbroken noReturn
  | more goal comma others goalInduction othersInduction =>
      simp only [text, List.mem_append, List.mem_cons, not_or] at noReturn
      obtain ⟨noneGoal, noneComma, _, noneOthers⟩ := noReturn
      obtain ⟨goalUnbroken, othersUnbroken⟩ := List.forall_mem_append.mp unbroken
      have goalPasses := goalInduction fits.1 goalUnbroken noneGoal
      have commaPasses := fits.2.1.passes (by decide) noneComma
      have othersPasses := othersInduction fits.2.2 othersUnbroken noneOthers
      exact goalPasses.append (commaPasses.append (.cons (by decide) othersPasses))

namespace ClauseTree

def beforeStop (tree : ClauseTree) : List Char :=
  tree.head.text ++ (bodyText tree.body ++ tree.stop.text)

theorem text_eq_beforeStop (tree : ClauseTree) : tree.text = tree.beforeStop ++ ['.'] := by
  simp [text, beforeStop]

theorem Fits.passes {tree : ClauseTree} {rest : List Char} (fits : tree.Fits rest)
    (unbroken : ∀ name ∈ tree.names, '\n' ∉ name.text) (noReturn : '\r' ∉ tree.text) :
    Passes tree.beforeStop := by
  obtain ⟨headFits, bodyFits, stopFits⟩ := fits
  simp only [text, List.mem_append, not_or] at noReturn
  obtain ⟨noneHead, noneBody, noneStop, _⟩ := noReturn
  obtain ⟨headUnbroken, bodyUnbroken⟩ := List.forall_mem_append.mp unbroken
  have bodyPasses : Passes (bodyText tree.body) := by
    cases body : tree.body with
    | none => exact .nil
    | some both =>
        rw [body] at bodyFits noneBody bodyUnbroken
        simp only [bodyText, List.mem_append, List.mem_cons, not_or] at noneBody
        have arrowPasses := bodyFits.1.passes (by decide) noneBody.1
        have goalsPass := Tree.Fits.passes bodyFits.2 bodyUnbroken noneBody.2.2.2
        exact arrowPasses.append (.cons (by decide) (.cons (by decide) goalsPass))
  exact (headFits.passes headUnbroken noneHead).append
    (bodyPasses.append (stopFits.passes (by decide) noneStop))

theorem along_text {tree : ClauseTree} (passes : Passes tree.beforeStop) :
    Along LineEndAllowed .code tree.text ∧ Place.code.after tree.text = .code := by
  rw [text_eq_beforeStop, Along.append_iff, Place.after_append, passes.after]
  have stop : LineEndAllowed .code '.' := fun _ => rfl
  exact ⟨⟨passes.along.mono fun _ _ allowed => allowed.2, stop, trivial⟩, rfl⟩

end ClauseTree

namespace Grammar

variable {trees : List ClauseTree}

/-- No clause of a program ends before its full stop. -/
theorem ProgramFits.passes {rest : List Char} (fits : ProgramFits trees rest)
    (unbroken : ∀ name ∈ trees.flatMap ClauseTree.names, '\n' ∉ name.text)
    (noReturn : '\r' ∉ trees.flatMap ClauseTree.text) :
    ∀ tree ∈ trees, Passes tree.beforeStop := by
  induction trees with
  | nil => nofun
  | cons first others induction =>
      rw [List.flatMap_cons] at unbroken
      rw [List.flatMap_cons, List.mem_append, not_or] at noReturn
      obtain ⟨firstUnbroken, othersUnbroken⟩ := List.forall_mem_append.mp unbroken
      exact List.forall_mem_cons.mpr ⟨fits.1.passes firstUnbroken noReturn.1,
        induction fits.2 othersUnbroken noReturn.2⟩

theorem along_clauses (passes : ∀ tree ∈ trees, Passes tree.beforeStop) :
    Along LineEndAllowed .code (trees.flatMap ClauseTree.text) ∧
      Place.code.after (trees.flatMap ClauseTree.text) = .code := by
  induction trees with
  | nil => exact ⟨trivial, rfl⟩
  | cons first others induction =>
      obtain ⟨firstPasses, othersPass⟩ := List.forall_mem_cons.mp passes
      obtain ⟨along, place⟩ := ClauseTree.along_text firstPasses
      rw [List.flatMap_cons, Along.append_iff, Place.after_append, place]
      exact ⟨⟨along, (induction othersPass).1⟩, (induction othersPass).2⟩

/-- The last full stop of a program stands in code. -/
theorem exists_last_stop (passes : ∀ tree ∈ trees, Passes tree.beforeStop) (nonempty : trees ≠ []) :
    ∃ before, trees.flatMap ClauseTree.text = before ++ ['.'] ∧
      Place.code.after before = .code := by
  obtain ⟨others, last, rfl⟩ := (List.eq_nil_or_concat' trees).resolve_left nonempty
  obtain ⟨othersPass, lastPasses⟩ := List.forall_mem_append.mp passes
  refine ⟨others.flatMap ClauseTree.text ++ last.beforeStop, ?_, ?_⟩
  · simp [ClauseTree.text_eq_beforeStop]
  · rw [Place.after_append, (along_clauses othersPass).2]
    exact (lastPasses last (by simp)).after

/-- A full stop in code is the one of a clause: clauses end before it and others begin
after it. -/
theorem exists_split_at_stop {after before behind : List Char}
    (passes : ∀ tree ∈ trees, Passes tree.beforeStop)
    (quiet : Along QuietlyAllowed .code after)
    (same : trees.flatMap ClauseTree.text ++ after = before ++ '.' :: behind)
    (inCode : Place.code.after before = .code) :
    ∃ ended others, trees = ended ++ others ∧
      ended.flatMap ClauseTree.text = before ++ ['.'] ∧
      others.flatMap ClauseTree.text ++ after = behind := by
  induction trees generalizing before with
  | nil =>
      rw [show after = before ++ '.' :: behind from same] at quiet
      exact absurd rfl (quiet.at_place.1 inCode)
  | cons first others induction =>
      obtain ⟨firstPasses, othersPass⟩ := List.forall_mem_cons.mp passes
      rw [List.flatMap_cons, ClauseTree.text_eq_beforeStop, List.append_assoc, List.append_assoc,
        List.singleton_append] at same
      rcases List.append_eq_append_iff.mp same with
        ⟨more, beforeEq, rest⟩ | ⟨more, firstEq, rest⟩
      · cases more with
        | nil =>
            obtain ⟨_, rfl⟩ := List.cons.inj rest
            refine ⟨[first], others, rfl, ?_, rfl⟩
            simp [ClauseTree.text_eq_beforeStop, beforeEq]
        | cons c more =>
            obtain ⟨rfl, restEq⟩ := List.cons.inj rest
            have place := (ClauseTree.along_text firstPasses).2
            have split : before = first.text ++ more := by
              simp [ClauseTree.text_eq_beforeStop, beforeEq]
            rw [split, Place.after_append, place] at inCode
            obtain ⟨ended, left, rfl, endedText, leftText⟩ := induction othersPass restEq inCode
            refine ⟨first :: ended, left, rfl, ?_, leftText⟩
            rw [List.flatMap_cons, endedText, split, List.append_assoc]
      · cases more with
        | nil =>
            obtain ⟨_, rfl⟩ := List.cons.inj rest
            refine ⟨[first], others, rfl, ?_, rfl⟩
            simp only [List.flatMap_cons, List.flatMap_nil, ClauseTree.text_eq_beforeStop, firstEq,
              List.append_nil]
        | cons c more =>
            obtain ⟨rfl, _⟩ := List.cons.inj rest
            have along := firstPasses.along
            rw [firstEq] at along
            exact absurd rfl (along.at_place.1 inCode)

end Grammar

end HornLogic.Source
