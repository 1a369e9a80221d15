import HornLogic.Proofs.Source.Statements
import HornLogic.Session.Basic

/-!
# Lines that end statements

A session finds comments in a line by its own account of quotes and backslashes, which is
that of the places of the line.  A line ends a statement exactly if there is a full stop in
code with nothing but a comment after it.
-/

namespace HornLogic

namespace Source.Place

theorem eq_of_next_eq_comment {place : Place} {c : Char} (outside : place ≠ .comment)
    (opens : place.next c = .comment) : place = .code ∧ c = '%' := by
  cases place with
  | code => exact ⟨rfl, by_contra fun noMark => by grind [next]⟩
  | quoted => grind [next]
  | escaped => cases opens
  | comment => exact absurd rfl outside

theorem after_blanks {place : Place} (stays : place = .code ∨ place = .quoted)
    {blanks : List Char} (blank : ∀ c ∈ blanks, Text.isBlank c = true) :
    place.after blanks = place := by
  induction blanks with
  | nil => rfl
  | cons c blanks induction =>
      obtain ⟨first, others⟩ := List.forall_mem_cons.mp blank
      have noMark : c ≠ '%' ∧ c ≠ '\'' ∧ c ≠ '\\' := by
        refine ⟨?_, ?_, ?_⟩ <;>
          · rintro rfl
            cases first
      have same : place.next c = place := by
        rcases stays with rfl | rfl <;> simp [next, noMark]
      rw [after, List.foldl_cons, same]
      exact induction others

end Source.Place

namespace Session

open Source (Place)
open Text (OnlyComment isBlank)

/-- The part of a line before a comment, if the line begins at this place. -/
def beforeCommentAt : Place → List Char → List Char
  | .code, line => beforeComment false false line
  | .quoted, line => beforeComment true false line
  | .escaped, line => beforeComment true true line
  | .comment, _ => []

theorem beforeCommentAt_cons {place : Place} (outside : place ≠ .comment) (c : Char)
    (line : List Char) :
    beforeCommentAt place (c :: line) =
      if place.next c = .comment then [] else c :: beforeCommentAt (place.next c) line := by
  cases place with
  | code =>
      by_cases comment : c = '%'
      · simp [beforeCommentAt, beforeComment, Place.next, comment]
      · by_cases quote : c = '\'' <;>
          simp [beforeCommentAt, beforeComment, Place.next, comment, quote]
  | quoted =>
      by_cases backslash : c = '\\'
      · simp [beforeCommentAt, beforeComment, Place.next, backslash]
      · have noBackslash : (c == '\\') = false := beq_false_of_ne backslash
        by_cases quote : c = '\'' <;>
          simp [beforeCommentAt, beforeComment, Place.next, backslash, quote, noBackslash]
  | escaped => simp [beforeCommentAt, beforeComment, Place.next]
  | comment => exact absurd rfl outside

/-- Nothing that is outside of comments is left out. -/
theorem beforeCommentAt_append {place : Place} {front : List Char} (noEnd : '\n' ∉ front)
    (outside : place.after front ≠ .comment) (rest : List Char) :
    beforeCommentAt place (front ++ rest) = front ++ beforeCommentAt (place.after front) rest := by
  induction front generalizing place with
  | nil => rfl
  | cons c front induction =>
      have before : place ≠ .comment := by
        rintro rfl
        exact outside (Place.after_comment noEnd)
      simp only [List.mem_cons, not_or] at noEnd
      have between : place.next c ≠ .comment := by
        intro inside
        refine outside ?_
        rw [Place.after, List.foldl_cons, inside]
        exact Place.after_comment noEnd.2
      rw [List.cons_append, beforeCommentAt_cons before, if_neg between,
        induction noEnd.2 outside]
      rfl

/-- A line that ends in code or in a comment is in code before the comment. -/
theorem exists_before_comment {place : Place} {line : List Char} (outside : place ≠ .comment)
    (ends : (place.after line).next '\n' = .code) :
    ∃ front comment, line = front ++ comment ∧ place.after front = .code ∧
      ∀ c ∈ comment.head?, c = '%' := by
  induction line generalizing place with
  | nil =>
      refine ⟨[], [], rfl, ?_, nofun⟩
      cases place with
      | code => rfl
      | quoted => cases ends
      | escaped => cases ends
      | comment => exact absurd rfl outside
  | cons c line induction =>
      by_cases opens : place.next c = .comment
      · obtain ⟨rfl, rfl⟩ := Place.eq_of_next_eq_comment outside opens
        refine ⟨[], '%' :: line, rfl, rfl, fun c member => ?_⟩
        cases member
        rfl
      · obtain ⟨front, comment, rfl, inCode, mark⟩ := induction opens ends
        exact ⟨c :: front, comment, rfl, inCode, mark⟩

theorem beforeComment_append {front comment : List Char} (noEnd : '\n' ∉ front)
    (inCode : Place.code.after front = .code) (mark : ∀ c ∈ comment.head?, c = '%') :
    beforeComment false false (front ++ comment) = front := by
  have none : beforeCommentAt .code comment = [] := by
    cases comment with
    | nil => rfl
    | cons c comment =>
        obtain rfl : c = '%' := mark c rfl
        rfl
  have kept := @beforeCommentAt_append .code front noEnd (by simp [inCode]) comment
  rw [inCode, none, List.append_nil] at kept
  exact kept

/-- A line ends a statement exactly if it has a full stop in code with nothing but a comment
after it. -/
theorem endsStatement_iff {line : List Char} (noEnd : '\n' ∉ line)
    (ends : (Place.code.after line).next '\n' = .code) :
    endsStatement line = true ↔
      ∃ before behind, line = before ++ '.' :: behind ∧ Place.code.after before = .code ∧
        OnlyComment behind := by
  constructor
  · intro stops
    obtain ⟨front, comment, rfl, inCode, mark⟩ := exists_before_comment (by decide) ends
    rw [List.mem_append, not_or] at noEnd
    rw [endsStatement, beforeComment_append noEnd.1 inCode mark, beq_iff_eq,
      List.getLast?_eq_some_iff] at stops
    obtain ⟨before, trimmed⟩ := stops
    obtain ⟨blanks, frontEq, blank⟩ := Text.exists_trimEnd_append front
    rw [trimmed, List.append_assoc, List.singleton_append] at frontEq
    subst frontEq
    refine ⟨before, blanks ++ comment, by simp, ?_, ?_⟩
    · -- A quoted name that the full stop belonged to would still be open after the blanks.
      rw [Place.after_append] at inCode
      have quoted : Place.quoted.after blanks = .quoted := Place.after_blanks (.inr rfl) blank
      cases place : Place.code.after before with
      | code => rfl
      | quoted =>
          rw [place] at inCode
          cases inCode.symm.trans quoted
      | escaped =>
          rw [place] at inCode
          cases inCode.symm.trans quoted
      | comment =>
          rw [place, Place.after_comment (mt (List.mem_append_right before) noEnd.1)] at inCode
          cases inCode
    · intro c member
      cases comment with
      | nil =>
          have skipped : Text.trimStart (blanks ++ []) = [] := by simpa [Text.trimStart] using blank
          rw [skipped] at member
          cases member
      | cons d comment =>
          obtain rfl : d = '%' := mark d rfl
          have skipped : Text.trimStart (blanks ++ '%' :: comment) = '%' :: comment :=
            List.dropWhile_append_of_pos blank
          rw [skipped] at member
          exact mark c member
  · rintro ⟨before, behind, rfl, inCode, only⟩
    obtain ⟨blanks, comment, rfl, blank, mark⟩ : ∃ blanks comment, behind = blanks ++ comment ∧
        (∀ c ∈ blanks, isBlank c = true) ∧ ∀ c ∈ comment.head?, c = '%' :=
      ⟨behind.takeWhile isBlank, Text.trimStart behind, List.takeWhile_append_dropWhile.symm,
        fun c member => List.mem_takeWhile_imp member, only⟩
    have split : before ++ '.' :: (blanks ++ comment) = before ++ '.' :: blanks ++ comment := by
      simp
    have frontInCode : Place.code.after (before ++ '.' :: blanks) = .code := by
      rw [Place.after_append, inCode]
      exact @Place.after_blanks .code (.inl rfl) blanks blank
    rw [split, List.mem_append, not_or] at noEnd
    have trimmed : Text.trimEnd (before ++ '.' :: blanks) = before ++ ['.'] := by
      rw [List.append_cons, Text.trimEnd_append_blanks blank, Text.trimEnd_concat (by decide)]
    rw [endsStatement, split, beforeComment_append noEnd.1 frontInCode mark, trimmed]
    simp

end Session

end HornLogic
