import HornLogic.Proofs.Bindings.Resolution
import HornLogic.Unification

/-!
# One step of unification

`UnifyStep` says everything that unification can make of two terms with some
effort: they are equal at the ends of their walks, or one of the ends is a
variable, or both are applications of one functor, or they have no common
instance at all.  What holds of unification is proved by cases on the step and
by induction on the effort.

More effort never changes an answer, so unification ends with one answer or with
none.
-/

namespace HornLogic

/-- What unification with one effort more than `effort` makes of two terms. -/
inductive UnifyStep (occursCheck : Bool) (effort : Nat) (left right : Term)
    (bindings : Bindings) : Attempt → Prop where
  /-- The walks end on one term. -/
  | same (equal : bindings.walk left = bindings.walk right) :
      UnifyStep occursCheck effort left right bindings (.unified bindings)
  /-- One walk ends on a variable and the other on another term. -/
  | bind (name : String) (term : Term) (different : term ≠ .var name)
      (ends : bindings.walk left = .var name ∧ bindings.walk right = term ∨
        bindings.walk left = term ∧ bindings.walk right = .var name) :
      UnifyStep occursCheck effort left right bindings
        (bindings.bindChecked occursCheck name term)
  /-- The walks end on applications of one functor. -/
  | args (functor : String) (lefts rights : List Term)
      (leftEnd : bindings.walk left = .app functor lefts)
      (rightEnd : bindings.walk right = .app functor rights)
      (sameLength : lefts.length = rights.length) :
      UnifyStep occursCheck effort left right bindings
        (unifyPairs (unify occursCheck effort) lefts rights bindings)
  /-- The walks end on terms without a common instance. -/
  | apart (clash : ∀ assign,
      (bindings.walk left).subst assign ≠ (bindings.walk right).subst assign) :
      UnifyStep occursCheck effort left right bindings .clash

theorem unify_step (occursCheck : Bool) (effort : Nat) (left right : Term)
    (bindings : Bindings) :
    UnifyStep occursCheck effort left right bindings
      (unify occursCheck (effort + 1) left right bindings) := by
  by_cases equal : bindings.walk left = bindings.walk right
  · simp only [unify, equal, if_true]
    exact .same equal
  · simp only [unify, equal, if_false]
    cases leftEnd : bindings.walk left with
    | var name =>
        rw [leftEnd] at equal
        exact .bind name _ (Ne.symm equal) (.inl ⟨leftEnd, rfl⟩)
    | atom leftName =>
        cases rightEnd : bindings.walk right with
        | var name => exact .bind name _ (by simp) (.inr ⟨leftEnd, rightEnd⟩)
        | atom rightName =>
            rw [leftEnd, rightEnd] at equal
            refine .apart fun assign => ?_
            simpa [leftEnd, rightEnd] using equal
        | app functor args =>
            refine .apart fun assign => ?_
            simp [leftEnd, rightEnd]
    | app leftName lefts =>
        cases rightEnd : bindings.walk right with
        | var name => exact .bind name _ (by simp) (.inr ⟨leftEnd, rightEnd⟩)
        | atom rightName =>
            refine .apart fun assign => ?_
            simp [leftEnd, rightEnd]
        | app rightName rights =>
            by_cases agree : leftName = rightName ∧ lefts.length = rights.length
            · obtain ⟨rfl, sameLength⟩ := agree
              simp only [sameLength, and_self, if_true]
              exact .args leftName lefts rights leftEnd rightEnd sameLength
            · simp only [agree, if_false]
              refine .apart fun assign equality => agree ?_
              rw [leftEnd, rightEnd] at equality
              have parts : leftName = rightName ∧
                  lefts.map (Term.subst assign) = rights.map (Term.subst assign) := by
                simpa using equality
              exact ⟨parts.1, by simpa using congrArg List.length parts.2⟩

section Pairs

variable {unifyPair : Term → Term → Bindings → Attempt}

theorem unifyPairs_cons {left right : Term} {lefts rights : List Term}
    {bindings extended : Bindings}
    (first : unifyPair left right bindings = .unified extended) :
    unifyPairs unifyPair (left :: lefts) (right :: rights) bindings =
      unifyPairs unifyPair lefts rights extended := by
  simp [unifyPairs, first]

theorem unifyPairs_preserves (kept : Bindings → Prop) {lefts rights : List Term}
    (preserves : ∀ left ∈ lefts, ∀ right ∈ rights, ∀ bindings extended,
      kept bindings → unifyPair left right bindings = .unified extended →
        kept extended)
    {bindings extended : Bindings} (holds : kept bindings)
    (success : unifyPairs unifyPair lefts rights bindings = .unified extended) :
    kept extended := by
  induction lefts generalizing rights bindings with
  | nil =>
      obtain rfl : bindings = extended := by simpa [unifyPairs] using success
      exact holds
  | cons left lefts induction =>
      cases rights with
      | nil =>
          obtain rfl : bindings = extended := by simpa [unifyPairs] using success
          exact holds
      | cons right rights =>
          cases first : unifyPair left right bindings with
          | clash => simp [unifyPairs, first] at success
          | unfinished => simp [unifyPairs, first] at success
          | unified middle =>
              rw [unifyPairs_cons first] at success
              have holdsMiddle : kept middle :=
                preserves left (by simp) right (by simp) bindings middle holds first
              apply induction ?_ holdsMiddle success
              intro other otherMember partner partnerMember
              exact preserves other (by simp [otherMember]) partner
                (by simp [partnerMember])

theorem unifyPairs_eq_of_finished
    {larger : Term → Term → Bindings → Attempt}
    (agree : ∀ left right bindings, unifyPair left right bindings ≠ .unfinished →
      larger left right bindings = unifyPair left right bindings)
    {lefts rights : List Term} {bindings : Bindings}
    (finished : unifyPairs unifyPair lefts rights bindings ≠ .unfinished) :
    unifyPairs larger lefts rights bindings =
      unifyPairs unifyPair lefts rights bindings := by
  induction lefts generalizing rights bindings with
  | nil => rfl
  | cons left lefts induction =>
      cases rights with
      | nil => rfl
      | cons right rights =>
          cases first : unifyPair left right bindings with
          | unfinished => simp [unifyPairs, first] at finished
          | clash =>
              have same := agree left right bindings (by simp [first])
              simp [unifyPairs, same, first]
          | unified middle =>
              have same := agree left right bindings (by simp [first])
              rw [first] at same
              rw [unifyPairs_cons first] at finished ⊢
              rw [unifyPairs_cons same]
              exact induction finished

end Pairs

theorem unify_succ_of_finished {occursCheck : Bool} {effort : Nat}
    {left right : Term} {bindings : Bindings}
    (finished : unify occursCheck effort left right bindings ≠ .unfinished) :
    unify occursCheck (effort + 1) left right bindings =
      unify occursCheck effort left right bindings := by
  induction effort generalizing left right bindings with
  | zero => simp [unify] at finished
  | succ effort induction =>
      have pairs : ∀ lefts rights,
          unifyPairs (unify occursCheck effort) lefts rights bindings ≠ .unfinished →
            unifyPairs (unify occursCheck (effort + 1)) lefts rights bindings =
              unifyPairs (unify occursCheck effort) lefts rights bindings :=
        fun lefts rights => unifyPairs_eq_of_finished fun _ _ _ => induction
      rw [unify] at finished
      rw [unify, unify]
      by_cases equal : bindings.walk left = bindings.walk right
      · simp [equal]
      · simp only [equal, if_false] at finished ⊢
        cases leftEnd : bindings.walk left with
        | var name => rfl
        | atom leftName => cases bindings.walk right <;> rfl
        | app leftName lefts =>
            cases rightEnd : bindings.walk right with
            | var name => rfl
            | atom rightName => rfl
            | app rightName rights =>
                simp only [leftEnd, rightEnd] at finished ⊢
                by_cases agree : leftName = rightName ∧ lefts.length = rights.length
                · simp only [agree, and_self, if_true] at finished ⊢
                  exact pairs lefts rights finished
                · simp [agree]

/-- An answer is the same for every larger effort. -/
theorem unify_eq_of_finished {occursCheck : Bool} {effort larger : Nat}
    {left right : Term} {bindings : Bindings}
    (finished : unify occursCheck effort left right bindings ≠ .unfinished)
    (enough : effort ≤ larger) :
    unify occursCheck larger left right bindings =
      unify occursCheck effort left right bindings := by
  induction enough with
  | refl => rfl
  | step _ induction =>
      rw [unify_succ_of_finished (by rwa [induction]), induction]

theorem unify_eq_of_answered {occursCheck : Bool} {effort larger : Nat}
    {left right : Term} {bindings : Bindings} {answer : Attempt}
    (answered : unify occursCheck effort left right bindings = answer)
    (finished : answer ≠ .unfinished) (enough : effort ≤ larger) :
    unify occursCheck larger left right bindings = answer := by
  rw [unify_eq_of_finished (by rwa [answered]) enough, answered]

/-- Attempts with more and more effort end with an answer, which is what all give
that have enough effort. -/
def EndsWith (attempts : (effort : Nat) → Attempt) (answer : Attempt) : Prop :=
  answer ≠ .unfinished ∧ ∃ enough, ∀ effort, enough ≤ effort → attempts effort = answer

theorem EndsWith.unique {attempts : Nat → Attempt} {first second : Attempt}
    (firstEnds : EndsWith attempts first) (secondEnds : EndsWith attempts second) :
    first = second := by
  obtain ⟨_, firstEnough, firstAnswers⟩ := firstEnds
  obtain ⟨_, secondEnough, secondAnswers⟩ := secondEnds
  have firstAnswer := firstAnswers (max firstEnough secondEnough) (Nat.le_max_left _ _)
  have secondAnswer := secondAnswers (max firstEnough secondEnough) (Nat.le_max_right _ _)
  exact firstAnswer.symm.trans secondAnswer

/-- Unification ends with an answer. -/
def UnifyEnds (occursCheck : Bool) (left right : Term) (bindings : Bindings)
    (answer : Attempt) : Prop :=
  EndsWith (fun effort => unify occursCheck effort left right bindings) answer

/-- Unification ends with an answer exactly if some effort gives it. -/
theorem unifyEnds_iff {occursCheck : Bool} {left right : Term} {bindings : Bindings}
    {answer : Attempt} :
    UnifyEnds occursCheck left right bindings answer ↔
      answer ≠ .unfinished ∧
        ∃ effort, unify occursCheck effort left right bindings = answer := by
  constructor
  · rintro ⟨finished, enough, answers⟩
    exact ⟨finished, enough, answers enough (Nat.le_refl enough)⟩
  · rintro ⟨finished, effort, answered⟩
    exact ⟨finished, effort, fun _ => unify_eq_of_answered answered finished⟩

theorem UnifyEnds.clash_pairs {occursCheck : Bool} {left right : Term}
    {bindings : Bindings} (ends : UnifyEnds occursCheck left right bindings .clash)
    (lefts rights : List Term) :
    EndsWith (fun effort => unifyPairs (unify occursCheck effort) (left :: lefts)
      (right :: rights) bindings) .clash := by
  obtain ⟨finished, enough, answers⟩ := ends
  refine ⟨finished, enough, fun effort more => ?_⟩
  have first : unify occursCheck effort left right bindings = .clash := answers effort more
  simp only [unifyPairs, first]

theorem UnifyEnds.unified_pairs {occursCheck : Bool} {left right : Term}
    {bindings extended : Bindings} {lefts rights : List Term} {answer : Attempt}
    (ends : UnifyEnds occursCheck left right bindings (.unified extended))
    (rest : EndsWith
      (fun effort => unifyPairs (unify occursCheck effort) lefts rights extended) answer) :
    EndsWith (fun effort => unifyPairs (unify occursCheck effort) (left :: lefts)
      (right :: rights) bindings) answer := by
  obtain ⟨_, firstEnough, firstAnswers⟩ := ends
  obtain ⟨finished, restEnough, restAnswers⟩ := rest
  refine ⟨finished, max firstEnough restEnough, fun effort more => ?_⟩
  have first : unify occursCheck effort left right bindings = .unified extended :=
    firstAnswers effort (by omega)
  exact (unifyPairs_cons first).trans (restAnswers effort (by omega))

end HornLogic
