import HornLogic.Proofs.Source.Grammar
import HornLogic.Proofs.Source.WrittenNames
import Mathlib.Data.List.Basic

/-!
# Reading layout, tokens and names

Layout and names are read as they are derived: what is skipped or read has a derivation
that fits, a derivation that fits is skipped or read to its end, and there is no other
one for the same text.
-/

namespace HornLogic.Source

section

variable {c : Char}

theorem isLayout_iff : isLayout c = true ↔ IsBlank c := by
  simp only [isLayout, IsBlank, Bool.or_eq_true, beq_iff_eq]
  tauto

theorem isLineEnd_iff : isLineEnd c = true ↔ EndsLine c := by
  simp only [isLineEnd, EndsLine, Bool.or_eq_true, beq_iff_eq]
  tauto

theorem isLower_iff : c.isLower = true ↔ IsSmallLetter c := by
  have range : c.isLower = (decide ('a' ≤ c) && decide (c ≤ 'z')) := rfl
  simp [range, IsSmallLetter]

theorem isUpper_iff : c.isUpper = true ↔ IsCapitalLetter c := by
  have range : c.isUpper = decide ('A' ≤ c ∧ c ≤ 'Z') := rfl
  simp [range, IsCapitalLetter]

theorem isDigit_iff : c.isDigit = true ↔ IsDecimalDigit c := by
  have range : c.isDigit = (decide ('0' ≤ c) && decide (c ≤ '9')) := rfl
  simp [range, IsDecimalDigit]

theorem isIdentifierRest_iff : isIdentifierRest c = true ↔ ContinuesIdentifier c := by
  have letter : c.isAlphanum = (c.isUpper || c.isLower || c.isDigit) := rfl
  simp only [isIdentifierRest, ContinuesIdentifier, letter, Bool.or_eq_true, beq_iff_eq,
    isUpper_iff, isLower_iff, isDigit_iff]
  tauto

theorem isVariableStart_iff : isVariableStart c = true ↔ BeginsVariable c := by
  simp [isVariableStart, BeginsVariable, isUpper_iff]

theorem BeginsVariable.isTermStart (begins : BeginsVariable c) : isTermStart c = true :=
  isTermStart_of_isVariableStart (isVariableStart_iff.mpr begins)

theorem meaning?_escaped : QuotedPart.meaning? (.escaped c) = unescape? c := by
  unfold QuotedPart.meaning? unescape?
  grind

theorem meaning?_bare :
    QuotedPart.meaning? (.bare c) = if c = '\'' ∨ c = '\\' then none else some c := by
  unfold QuotedPart.meaning?
  grind

theorem not_isDecimalDigit_of_isSmallLetter (small : IsSmallLetter c) :
    ¬ IsDecimalDigit c := by
  intro digit
  have noLower := not_isLower_of_isDigit (isDigit_iff.mpr digit)
  rw [isLower_iff.mpr small] at noLower
  cases noLower

theorem IsBlank.isLayout (blank : IsBlank c) : isLayout c = true :=
  isLayout_iff.mpr blank

theorem EndsLine.isBlank (ends : EndsLine c) : IsBlank c :=
  .inr (.inr ends)

end

namespace LongestRun

variable {holds : Char → Bool} {property : Char → Prop} {run other rest otherRest : List Char}

theorem all (longest : LongestRun property run rest)
    (same : ∀ {c}, holds c = true ↔ property c) : run.all holds = true :=
  List.all_eq_true.mpr fun c member => same.mpr (longest.1 c member)

theorem ends (longest : LongestRun property run rest)
    (same : ∀ {c}, holds c = true ↔ property c) : ∀ c ∈ rest.head?, holds c = false :=
  fun c member => Bool.eq_false_iff.mpr (mt same.mp (longest.2 c member))

/-- A longest run is taken from the front of the text, and no more. -/
theorem span (longest : LongestRun property run rest)
    (same : ∀ {c}, holds c = true ↔ property c) :
    (run ++ rest).takeWhile holds = run ∧ (run ++ rest).dropWhile holds = rest :=
  span_run (longest.all same) (longest.ends same)

theorem takeWhile (same : ∀ {c}, holds c = true ↔ property c) (text : List Char) :
    LongestRun property (text.takeWhile holds) (text.dropWhile holds) := by
  constructor
  · intro c member
    exact same.mp (List.mem_takeWhile_imp member)
  · intro c member held
    have ends := List.head?_dropWhile_not holds text
    rw [member] at ends
    exact absurd (same.mpr held) (by simpa using ends)

/-- A text splits in one way into a longest run and what follows. -/
theorem unique (longest : LongestRun property run rest)
    (otherLongest : LongestRun property other otherRest)
    (same : run ++ rest = other ++ otherRest) : run = other ∧ rest = otherRest := by
  classical
  have decides : ∀ {c}, decide (property c) = true ↔ property c := decide_eq_true_iff
  obtain ⟨taken, left⟩ := longest.span decides
  obtain ⟨otherTaken, otherLeft⟩ := otherLongest.span decides
  rw [same] at taken left
  exact ⟨taken.symm.trans otherTaken, left.symm.trans otherLeft⟩

/-- Whether a run is the longest one is told by the character after it. -/
theorem before_alike {later : List Char} (longest : LongestRun property run rest)
    (alike : later.head? = rest.head?) : LongestRun property run later :=
  ⟨longest.1, alike ▸ longest.2⟩

end LongestRun

/-! ## Layout -/

theorem dropLayout_comment {body rest : List Char}
    (line : LongestRun (¬ EndsLine ·) body rest) :
    dropLayout true (body ++ rest) = skipLayout rest := by
  induction body with
  | nil =>
      cases rest with
      | nil => rfl
      | cons c rest =>
          have ends : EndsLine c := not_not.mp (line.2 c rfl)
          simp [dropLayout, skipLayout, isLineEnd_iff.mpr ends, ends.isBlank.isLayout]
  | cons c body induction =>
      obtain ⟨first, others⟩ := List.forall_mem_cons.mp line.1
      have inLine : isLineEnd c = false := Bool.eq_false_iff.mpr (mt isLineEnd_iff.mp first)
      simpa [dropLayout, inLine] using induction ⟨others, line.2⟩

theorem Layout.Fits.skipLayout_append {layout : Layout} {rest : List Char}
    (fits : layout.Fits rest) : skipLayout (layout.text ++ rest) = skipLayout rest := by
  induction layout with
  | none => rfl
  | blank c after induction =>
      obtain ⟨blank, fitsAfter⟩ := fits
      rw [← induction fitsAfter]
      simp [Layout.text, skipLayout, dropLayout, blank.isLayout]
  | comment body after induction =>
      obtain ⟨line, fitsAfter⟩ := fits
      rw [← induction fitsAfter, ← dropLayout_comment line]
      simp [Layout.text, skipLayout, dropLayout, isLayout]

/-- Layout fits before every text that begins with the same character. -/
theorem Layout.Fits.before_alike {layout : Layout} {rest later : List Char}
    (fits : layout.Fits rest) (alike : later.head? = rest.head?) : layout.Fits later := by
  induction layout with
  | none => trivial
  | blank c after induction => exact ⟨fits.1, induction fits.2⟩
  | comment body after induction =>
      refine ⟨fits.1.before_alike ?_, induction fits.2⟩
      rw [List.head?_append, List.head?_append, alike]

/-- Layout fits before the end of a line, and at the end of a text. -/
theorem Layout.Fits.before_lineEnd {layout : Layout} {rest later : List Char}
    (fits : layout.Fits rest) (ends : ∀ c ∈ later.head?, EndsLine c) : layout.Fits later := by
  induction layout with
  | none => trivial
  | blank c after induction => exact ⟨fits.1, induction fits.2⟩
  | comment body after induction =>
      refine ⟨⟨fits.1.1, ?_⟩, induction fits.2⟩
      have line := fits.1.2
      cases characters : after.text with
      | nil => exact fun c member => not_not.mpr (ends c member)
      | cons first others => simpa [characters] using line

/-- What is skipped is layout. -/
theorem exists_layout (text : List Char) :
    ∃ layout : Layout, layout.text ++ skipLayout text = text ∧
      layout.Fits (skipLayout text) := by
  -- A text that begins inside a comment begins with the rest of that comment.
  have both : (∃ layout : Layout, layout.text ++ dropLayout false text = text ∧
        layout.Fits (dropLayout false text)) ∧
      ∃ body after, body ++ (Layout.text after ++ dropLayout true text) = text ∧
        LongestRun (¬ EndsLine ·) body (after.text ++ dropLayout true text) ∧
        after.Fits (dropLayout true text) := by
    induction text with
    | nil =>
        refine ⟨⟨.none, rfl, trivial⟩, [], .none, rfl, ⟨?_, ?_⟩, trivial⟩
        · simp
        · simp [Layout.text, dropLayout]
    | cons c text induction =>
        obtain ⟨⟨layout, written, fits⟩, body, after, whole, line, fitsAfter⟩ := induction
        constructor
        · by_cases blank : isLayout c = true
          · refine ⟨.blank c layout, ?_, ?_⟩
            · simpa [dropLayout, blank, Layout.text] using written
            · simpa [dropLayout, blank] using ⟨isLayout_iff.mp blank, fits⟩
          · by_cases mark : c = '%'
            · have comment : dropLayout false (c :: text) = dropLayout true text := by
                rw [dropLayout, if_neg blank, if_pos mark]
              rw [comment, mark]
              exact ⟨.comment body after, by simpa [Layout.text] using whole, line, fitsAfter⟩
            · refine ⟨.none, ?_, trivial⟩
              simp [dropLayout, blank, mark, Layout.text]
        · by_cases lineEnd : isLineEnd c = true
          · have ends := isLineEnd_iff.mp lineEnd
            refine ⟨[], .blank c layout, ?_, ⟨?_, ?_⟩, ?_⟩
            · simpa [dropLayout, lineEnd, Layout.text] using written
            · simp
            · simp [Layout.text, ends]
            · simpa [dropLayout, lineEnd] using ⟨ends.isBlank, fits⟩
          · have inLine := mt isLineEnd_iff.mpr lineEnd
            refine ⟨c :: body, after, ?_, ?_, ?_⟩
            · simpa [dropLayout, lineEnd] using whole
            · rw [dropLayout, Bool.eq_false_iff.mpr lineEnd]
              exact ⟨List.forall_mem_cons.mpr ⟨inLine, line.1⟩, line.2⟩
            · simpa [dropLayout, lineEnd] using fitsAfter
  exact both.1

/-- A text splits in one way into layout and something that does not begin with
layout. -/
theorem Layout.Fits.unique {first second : Layout} {rest otherRest : List Char}
    (fits : first.Fits rest) (otherFits : second.Fits otherRest)
    (starts : skipLayout rest = rest) (otherStarts : skipLayout otherRest = otherRest)
    (same : first.text ++ rest = second.text ++ otherRest) :
    first = second ∧ rest = otherRest := by
  have rests : rest = otherRest := by
    rw [← starts, ← otherStarts, ← fits.skipLayout_append, ← otherFits.skipLayout_append, same]
  subst rests
  refine ⟨?_, rfl⟩
  have texts : first.text = second.text := List.append_cancel_right same
  clear starts otherStarts same
  induction first generalizing second with
  | none =>
      cases second with
      | none => rfl
      | blank c after => cases texts
      | comment body after => cases texts
  | blank c after induction =>
      cases second with
      | none => cases texts
      | blank other otherAfter =>
          obtain ⟨rfl, sameAfter⟩ := List.cons.inj texts
          rw [induction fits.2 otherFits.2 sameAfter]
      | comment body otherAfter =>
          obtain ⟨rfl, _⟩ := List.cons.inj texts
          cases fits.1.isLayout
  | comment body after induction =>
      cases second with
      | none => cases texts
      | blank other otherAfter =>
          obtain ⟨rfl, _⟩ := List.cons.inj texts
          cases otherFits.1.isLayout
      | comment otherBody otherAfter =>
          obtain ⟨line, fitsAfter⟩ := fits
          obtain ⟨otherLine, otherFitsAfter⟩ := otherFits
          have wholes : body ++ (after.text ++ rest) =
              otherBody ++ (otherAfter.text ++ rest) := by
            rw [← List.append_assoc, ← List.append_assoc]
            exact congrArg (· ++ rest) (List.cons.inj texts).2
          obtain ⟨bodies, afters⟩ := line.unique otherLine wholes
          rw [bodies, induction fitsAfter otherFitsAfter (List.append_cancel_right afters)]

/-- Layout ends where something begins that is no layout. -/
theorem Layout.Fits.unique_cons {first second : Layout} {c other : Char}
    {rest otherRest : List Char} (fits : first.Fits (c :: rest))
    (otherFits : second.Fits (other :: otherRest))
    (same : first.text ++ c :: rest = second.text ++ other :: otherRest)
    (solid : isSolid c = true := by decide) (otherSolid : isSolid other = true := by decide) :
    first = second ∧ c = other ∧ rest = otherRest := by
  obtain ⟨layouts, rests⟩ := fits.unique otherFits (skipLayout_solid solid rest)
    (skipLayout_solid otherSolid otherRest) same
  exact ⟨layouts, List.cons.inj rests⟩

theorem Layout.Fits.token? {layout : Layout} {c : Char} {token rest : List Char}
    (fits : layout.Fits (c :: (token ++ rest))) (solid : isSolid c = true) :
    token? (c :: token) (layout.text ++ c :: (token ++ rest)) = some rest := by
  rw [Source.token?, fits.skipLayout_append, skipLayout_solid solid]
  exact List.isPrefixOf?_eq_some_iff_append_eq.mpr rfl

/-- Layout makes no difference to the token after it. -/
theorem Layout.Fits.token?_append {layout : Layout} {rest : List Char}
    (fits : layout.Fits rest) (token : List Char) :
    Source.token? token (layout.text ++ rest) = Source.token? token rest := by
  rw [Source.token?, fits.skipLayout_append, Source.token?]

theorem exists_layout_of_token? {token text rest : List Char}
    (found : token? token text = some rest) :
    ∃ layout : Layout, layout.text ++ (token ++ rest) = text ∧ layout.Fits (token ++ rest) := by
  obtain ⟨layout, written, fits⟩ := exists_layout text
  rw [← List.isPrefixOf?_eq_some_iff_append_eq.mp found] at written fits
  exact ⟨layout, written, fits⟩

/-! ## Names -/

theorem readQuoted_parts (start : List Char) {parts : List QuotedPart} (rest : List Char)
    (meant : ∀ part ∈ parts, part.meaning?.isSome) :
    readQuoted start (parts.flatMap QuotedPart.text ++ '\'' :: rest) =
      .ok (parts.filterMap QuotedPart.meaning?, rest) := by
  induction parts with
  | nil => rfl
  | cons part parts induction =>
      obtain ⟨first, others⟩ := List.forall_mem_cons.mp meant
      have further := induction others
      obtain ⟨c, meaning⟩ := Option.isSome_iff_exists.mp first
      rw [List.flatMap_cons, List.filterMap_cons_some meaning, List.append_assoc]
      cases part with
      | bare other =>
          obtain ⟨⟨noQuote, noBackslash⟩, rfl⟩ : (other ≠ '\'' ∧ other ≠ '\\') ∧ other = c := by
            simpa [meaning?_bare] using meaning
          simp [QuotedPart.text, readQuoted, noBackslash, further]
      | escaped other =>
          have meaning : unescape? other = some c := meaning?_escaped.symm.trans meaning
          simp [QuotedPart.text, readQuoted, meaning, further]

theorem exists_parts (start : List Char) {text value rest : List Char}
    (read : readQuoted start text = .ok (value, rest)) :
    ∃ parts : List QuotedPart, parts.flatMap QuotedPart.text ++ '\'' :: rest = text ∧
      (∀ part ∈ parts, part.meaning?.isSome) ∧ parts.filterMap QuotedPart.meaning? = value := by
  have joined : ∀ {part : QuotedPart} {c : Char} {others name : List Char}
      {parts : List QuotedPart}, part.meaning? = some c →
      parts.flatMap QuotedPart.text ++ '\'' :: rest = others →
      (∀ part ∈ parts, part.meaning?.isSome) →
      parts.filterMap QuotedPart.meaning? = name →
      ∃ all : List QuotedPart,
        all.flatMap QuotedPart.text ++ '\'' :: rest = part.text ++ others ∧
        (∀ part ∈ all, part.meaning?.isSome) ∧
        all.filterMap QuotedPart.meaning? = c :: name := by
    rintro part c _ _ parts meaning rfl meant rfl
    refine ⟨part :: parts, by simp, ?_, List.filterMap_cons_some meaning⟩
    exact List.forall_mem_cons.mpr ⟨by simp [meaning], meant⟩
  fun_induction readQuoted start text generalizing value with
  | case1 => cases read
  | case2 others =>
      obtain ⟨rfl, rfl⟩ : [] = value ∧ others = rest := by simpa using read
      exact ⟨[], rfl, by simp, rfl⟩
  | case3 => cases read
  | case4 c others meant name after found meaning induction =>
      obtain ⟨rfl, rfl⟩ : meant :: name = value ∧ after = rest := by simpa using read
      obtain ⟨parts, written, allMeant, values⟩ := induction found
      have whole : QuotedPart.meaning? (.escaped c) = some meant :=
        meaning?_escaped.trans meaning
      exact joined whole written allMeant values
  | case5 => cases read
  | case6 => cases read
  | case7 c others noQuote lonely escape name after found induction =>
      obtain ⟨rfl, rfl⟩ : c :: name = value ∧ after = rest := by simpa using read
      obtain ⟨parts, written, allMeant, values⟩ := induction found
      have noBackslash : c ≠ '\\' := by
        intro backslash
        cases others with
        | nil => exact lonely backslash rfl
        | cons other others => exact escape other others backslash rfl
      have whole : QuotedPart.meaning? (.bare c) = some c := by
        rw [meaning?_bare, if_neg (not_or.mpr ⟨noQuote, noBackslash⟩)]
      exact joined whole written allMeant values
  | case8 => cases read

/-- What is written between quotes is made of parts in one way. -/
theorem parts_unique {first second : List QuotedPart}
    (meant : ∀ part ∈ first, part.meaning?.isSome)
    (otherMeant : ∀ part ∈ second, part.meaning?.isSome)
    (same : first.flatMap QuotedPart.text = second.flatMap QuotedPart.text) :
    first = second := by
  -- A bare part is never a backslash, so the first character tells the parts apart.
  have bareNoBackslash : ∀ {c : Char}, (QuotedPart.meaning? (.bare c)).isSome → c ≠ '\\' := by
    rintro c bare rfl
    cases bare
  induction first generalizing second with
  | nil =>
      cases second with
      | nil => rfl
      | cons part parts => cases part <;> cases same
  | cons part parts induction =>
      obtain ⟨partMeant, partsMeant⟩ := List.forall_mem_cons.mp meant
      cases second with
      | nil => cases part <;> cases same
      | cons other others =>
          obtain ⟨otherPartMeant, othersMeant⟩ := List.forall_mem_cons.mp otherMeant
          cases part with
          | bare c =>
              cases other with
              | bare next =>
                  obtain ⟨rfl, rests⟩ := List.cons.inj same
                  rw [induction partsMeant othersMeant rests]
              | escaped next => exact absurd (List.cons.inj same).1 (bareNoBackslash partMeant)
          | escaped c =>
              cases other with
              | bare next =>
                  exact absurd (List.cons.inj same).1.symm (bareNoBackslash otherPartMeant)
              | escaped next =>
                  obtain ⟨rfl, rests⟩ := List.cons.inj (List.cons.inj same).2
                  rw [induction partsMeant othersMeant rests]

namespace NameTree

/-- The first character of a name. -/
theorem Fits.exists_text_eq_cons {name : NameTree} {rest : List Char}
    (fits : name.Fits rest) :
    ∃ c others, name.text = c :: others ∧ isNameStart c = true := by
  cases name with
  | plain first others =>
      exact ⟨first, others, rfl, by simp [isNameStart, isLower_iff.mpr fits.1]⟩
  | number first others =>
      exact ⟨first, others, rfl, by simp [isNameStart, isDigit_iff.mpr fits.1]⟩
  | quoted parts => exact ⟨'\'', _, rfl, rfl⟩

theorem Fits.skipLayout_append {name : NameTree} {before : List Char}
    (fits : name.Fits before) (rest : List Char) :
    skipLayout (name.text ++ rest) = name.text ++ rest := by
  obtain ⟨c, others, characters, start⟩ := fits.exists_text_eq_cons
  rw [characters, List.cons_append,
    skipLayout_termStart (isTermStart_of_isNameStart start)]

theorem Fits.readName {name : NameTree} {rest : List Char} (fits : name.Fits rest) :
    readName (name.text ++ rest) = .ok (name.value, rest) := by
  cases name with
  | plain first others =>
      have lower := isLower_iff.mpr fits.1
      obtain ⟨taken, left⟩ := fits.2.span isIdentifierRest_iff
      simp [text, Source.readName, value, lower, taken, left]
  | number first others =>
      have digit := isDigit_iff.mpr fits.1
      obtain ⟨taken, left⟩ := fits.2.span isDigit_iff
      simp [text, Source.readName, value, not_isLower_of_isDigit digit, digit, taken, left]
  | quoted parts =>
      have read := readQuoted_parts (parts.flatMap QuotedPart.text ++ '\'' :: rest) rest fits
      simpa [text, Source.readName, value] using read

end NameTree

theorem exists_name {text value rest : List Char}
    (read : readName text = .ok (value, rest)) :
    ∃ name : NameTree, name.text ++ rest = text ∧ name.Fits rest ∧ name.value = value := by
  cases text with
  | nil => cases read
  | cons c others =>
      simp only [readName] at read
      split at read
      · next lower =>
          cases read
          refine ⟨.plain c (others.takeWhile isIdentifierRest), ?_, ?_, rfl⟩
          · simp [NameTree.text]
          · exact ⟨isLower_iff.mp lower, .takeWhile isIdentifierRest_iff others⟩
      · split at read
        · next digit =>
            cases read
            refine ⟨.number c (others.takeWhile Char.isDigit), ?_, ?_, rfl⟩
            · simp [NameTree.text]
            · exact ⟨isDigit_iff.mp digit, .takeWhile isDigit_iff others⟩
        · split at read
          · next quoteMark =>
              obtain ⟨parts, written, meant, values⟩ := exists_parts others read
              refine ⟨.quoted parts, ?_, meant, values⟩
              simp [NameTree.text, quoteMark, written]
          · cases read

theorem NameTree.Fits.unique {first second : NameTree} {rest otherRest : List Char}
    (fits : first.Fits rest) (otherFits : second.Fits otherRest)
    (same : first.text ++ rest = second.text ++ otherRest) :
    first = second ∧ rest = otherRest := by
  obtain ⟨_, rfl⟩ : first.value = second.value ∧ rest = otherRest := by
    have read := fits.readName
    rw [same, otherFits.readName] at read
    simpa [eq_comm] using read
  refine ⟨?_, rfl⟩
  have texts : first.text = second.text := List.append_cancel_right same
  cases first with
  | plain first others =>
      cases second with
      | plain otherFirst more =>
          obtain ⟨rfl, rfl⟩ := List.cons.inj texts
          rfl
      | number otherFirst more =>
          obtain ⟨rfl, _⟩ := List.cons.inj texts
          exact absurd otherFits.1 (not_isDecimalDigit_of_isSmallLetter fits.1)
      | quoted parts =>
          obtain ⟨rfl, _⟩ := List.cons.inj texts
          cases isLower_iff.mpr fits.1
  | number first others =>
      cases second with
      | plain otherFirst more =>
          obtain ⟨rfl, _⟩ := List.cons.inj texts
          exact absurd fits.1 (not_isDecimalDigit_of_isSmallLetter otherFits.1)
      | number otherFirst more =>
          obtain ⟨rfl, rfl⟩ := List.cons.inj texts
          rfl
      | quoted parts =>
          obtain ⟨rfl, _⟩ := List.cons.inj texts
          cases isDigit_iff.mpr fits.1
  | quoted parts =>
      cases second with
      | plain otherFirst more =>
          obtain ⟨rfl, _⟩ := List.cons.inj texts
          cases isLower_iff.mpr otherFits.1
      | number otherFirst more =>
          obtain ⟨rfl, _⟩ := List.cons.inj texts
          cases isDigit_iff.mpr otherFits.1
      | quoted others =>
          have inside := List.append_cancel_right (List.cons.inj texts).2
          rw [parts_unique fits otherFits inside]

end HornLogic.Source
