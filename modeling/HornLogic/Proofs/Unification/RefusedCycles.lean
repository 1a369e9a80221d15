import HornLogic.Proofs.Unification.Extension
import HornLogic.Proofs.Unification.OccursCheck

/-!
# What the occurs check refuses

Under acyclic bindings, unification with the occurs check goes the same way as
without it up to the first binding that would close a cycle.  There it clashes,
while the other attempt goes on with cyclic bindings.  Later bindings extend
them, so the cycle is still there if that attempt ends with success.
-/

namespace HornLogic

/-- What an attempt with the occurs check makes of terms, beside an attempt
without it and with the same effort: it refuses all answers that are cyclic, and
may do so early. -/
inductive Attempt.Filters : (checked free : Attempt) → Prop where
  | kept {bindings : Bindings} (acyclic : bindings.Acyclic) :
      Filters (.unified bindings) (.unified bindings)
  | refused {bindings : Bindings} (cyclic : ¬ bindings.Acyclic) :
      Filters .clash (.unified bindings)
  | clash : Filters .clash .clash
  | refusedEarly : Filters .clash .unfinished
  | unfinished : Filters .unfinished .unfinished

namespace Attempt.Filters

theorem unified_iff {checked free : Attempt} (filters : Filters checked free)
    {bindings : Bindings} :
    checked = .unified bindings ↔ free = .unified bindings ∧ bindings.Acyclic := by
  cases filters with
  | kept acyclic =>
      constructor
      · intro equality
        cases equality
        exact ⟨rfl, acyclic⟩
      · exact And.left
  | refused cyclic =>
      constructor
      · intro equality
        cases equality
      · rintro ⟨equality, acyclic⟩
        cases equality
        exact absurd acyclic cyclic
  | clash => simp
  | refusedEarly => simp
  | unfinished => simp

theorem clash_of_clash {checked free : Attempt} (filters : Filters checked free)
    (clash : free = .clash) : checked = .clash := by
  cases filters with
  | clash => rfl
  | kept acyclic => cases clash
  | refused cyclic => cases clash
  | refusedEarly => cases clash
  | unfinished => cases clash

end Attempt.Filters

theorem bindChecked_filters {bindings : Bindings} (acyclic : bindings.Acyclic)
    {name : String} (unbound : bindings.get? name = none) (term : Term) :
    Attempt.Filters (bindings.bindChecked true name term)
      (bindings.bindChecked false name term) := by
  rw [acyclic.bindChecked_eq]
  by_cases occurs : name ∈ (term.substitute bindings).occurrences
  · rw [if_pos occurs]
    apply Attempt.Filters.refused
    intro bindAcyclic
    exact (acyclic.bind_iff unbound).mp bindAcyclic occurs
  · rw [if_neg occurs]
    exact .kept ((acyclic.bind_iff unbound).mpr occurs)

/-- No list of pairs that is unified under cyclic bindings leads back to acyclic
ones. -/
theorem clash_filters_unifyPairs {effort : Nat} {bindings : Bindings}
    (chains : bindings.ChainsEnd) (cyclic : ¬ bindings.Acyclic)
    (lefts rights : List Term) :
    Attempt.Filters .clash (unifyPairs (unify false effort) lefts rights bindings) := by
  cases answered : unifyPairs (unify false effort) lefts rights bindings with
  | clash => exact .clash
  | unfinished => exact .refusedEarly
  | unified extended =>
      have extension : extended.Extends bindings ∧ extended.ChainsEnd := by
        apply unifyPairs_preserves
          (fun current => current.Extends bindings ∧ current.ChainsEnd) ?_
          ⟨.refl bindings, chains⟩ answered
        intro left _ right _ current next grown pair
        obtain ⟨nextExtends, nextChains⟩ := unify_extends grown.2 pair
        exact ⟨nextExtends.trans grown.1, nextChains⟩
      exact .refused fun acyclic => cyclic (acyclic.of_extends extension.1)

theorem unifyPairs_filters {effort : Nat}
    (filters : ∀ left right {bindings : Bindings}, bindings.Acyclic →
      Attempt.Filters (unify true effort left right bindings)
        (unify false effort left right bindings))
    (lefts rights : List Term) {bindings : Bindings} (acyclic : bindings.Acyclic) :
    Attempt.Filters (unifyPairs (unify true effort) lefts rights bindings)
      (unifyPairs (unify false effort) lefts rights bindings) := by
  induction lefts generalizing rights bindings with
  | nil => exact .kept acyclic
  | cons left lefts induction =>
      cases rights with
      | nil => exact .kept acyclic
      | cons right rights =>
          have first := filters left right acyclic
          generalize checked : unify true effort left right bindings = checkedFirst at first
          generalize free : unify false effort left right bindings = freeFirst at first
          cases first with
          | kept middleAcyclic =>
              rw [unifyPairs_cons checked, unifyPairs_cons free]
              exact induction rights middleAcyclic
          | refused cyclic =>
              rw [unifyPairs_cons free]
              simp only [unifyPairs, checked]
              have grown := unify_extends acyclic.chainsEnd free
              exact clash_filters_unifyPairs grown.2 cyclic lefts rights
          | clash =>
              simp only [unifyPairs, checked, free]
              exact .clash
          | refusedEarly =>
              simp only [unifyPairs, checked, free]
              exact .refusedEarly
          | unfinished =>
              simp only [unifyPairs, checked, free]
              exact .unfinished

/-- Under acyclic bindings, attempts with and without the occurs check answer
alike, except that the check refuses cyclic answers. -/
theorem unify_filters (effort : Nat) (left right : Term) {bindings : Bindings}
    (acyclic : bindings.Acyclic) :
    Attempt.Filters (unify true effort left right bindings)
      (unify false effort left right bindings) := by
  induction effort generalizing left right bindings with
  | zero => exact .unfinished
  | succ effort induction =>
      have chains := acyclic.chainsEnd
      by_cases equal : bindings.walk left = bindings.walk right
      · simp only [unify, equal, if_true]
        exact .kept acyclic
      · simp only [unify, equal, if_false]
        cases leftEnd : bindings.walk left with
        | var name =>
            exact bindChecked_filters acyclic (chains.get?_eq_none_of_walk leftEnd) _
        | atom leftName =>
            cases rightEnd : bindings.walk right with
            | var name =>
                exact bindChecked_filters acyclic (chains.get?_eq_none_of_walk rightEnd) _
            | atom rightName => exact .clash
            | app rightName rights => exact .clash
        | app leftName lefts =>
            cases rightEnd : bindings.walk right with
            | var name =>
                exact bindChecked_filters acyclic (chains.get?_eq_none_of_walk rightEnd) _
            | atom rightName => exact .clash
            | app rightName rights =>
                by_cases agree : leftName = rightName ∧ lefts.length = rights.length
                · simp only [agree, and_self, if_true]
                  exact unifyPairs_filters induction lefts rights acyclic
                · simp only [agree, if_false]
                  exact .clash

/-- Under acyclic bindings the occurs check only filters: unification with the
check ends with new bindings exactly if it ends with them without the check and
they are acyclic, and a clash without the check is a clash with it. -/
theorem occursCheck_filters (left right : Term) {bindings : Bindings}
    (acyclic : bindings.Acyclic) :
    (∀ extended, UnifyEnds true left right bindings (.unified extended) ↔
      UnifyEnds false left right bindings (.unified extended) ∧ extended.Acyclic) ∧
    (UnifyEnds false left right bindings .clash →
      UnifyEnds true left right bindings .clash) := by
  have filters := fun effort => unify_filters effort left right acyclic
  simp only [unifyEnds_iff]
  refine ⟨fun extended => ⟨?_, ?_⟩, ?_⟩
  · rintro ⟨finished, effort, checked⟩
    obtain ⟨free, extendedAcyclic⟩ := (filters effort).unified_iff.mp checked
    exact ⟨⟨finished, effort, free⟩, extendedAcyclic⟩
  · rintro ⟨⟨finished, effort, free⟩, extendedAcyclic⟩
    exact ⟨finished, effort, (filters effort).unified_iff.mpr ⟨free, extendedAcyclic⟩⟩
  · rintro ⟨finished, effort, free⟩
    exact ⟨finished, effort, (filters effort).clash_of_clash free⟩

/-- Under a binding of `Y` to `g(X)`, the check does not change what comes of
`p(W, Y)` and `p(f(Y), g(a))`.  It refuses the answer for `p(Z, X)` and
`p(a, f(Y))`, in which `X` is bound to `f(Y)`, so this answer is cyclic. -/
theorem occursCheck_refuses_only_circle :
    (Bindings.empty.bind "Y" (.app "g" [.var "X"])).Acyclic ∧
      UnifyEnds false (.app "p" [.var "W", .var "Y"])
        (.app "p" [.app "f" [.var "Y"], .app "g" [.atom "a"]])
        (Bindings.empty.bind "Y" (.app "g" [.var "X"]))
        (.unified (Bindings.ofList [("Y", .app "g" [.var "X"]),
          ("W", .app "f" [.var "Y"]), ("X", .atom "a")])) ∧
      ¬ (Bindings.ofList [("Y", .app "g" [.var "X"]), ("Z", .atom "a"),
        ("X", .app "f" [.var "Y"])]).Acyclic := by
  have acyclic : (Bindings.empty.bind "Y" (.app "g" [.var "X"])).Acyclic :=
    (Bindings.acyclic_empty.bind_iff rfl).mpr (by decide)
  refine ⟨acyclic, ?_, ?_⟩
  · have checked : UnifyEnds true (.app "p" [.var "W", .var "Y"])
        (.app "p" [.app "f" [.var "Y"], .app "g" [.atom "a"]])
        (Bindings.empty.bind "Y" (.app "g" [.var "X"]))
        (.unified (Bindings.ofList [("Y", .app "g" [.var "X"]),
          ("W", .app "f" [.var "Y"]), ("X", .atom "a")])) :=
      unifyEnds_iff.mpr ⟨by simp, 3, by decide⟩
    exact ((occursCheck_filters _ _ acyclic).1 _).mp checked |>.1
  · intro circleAcyclic
    have free : UnifyEnds false (.app "p" [.var "Z", .var "X"])
        (.app "p" [.atom "a", .app "f" [.var "Y"]])
        (Bindings.empty.bind "Y" (.app "g" [.var "X"]))
        (.unified (Bindings.ofList [("Y", .app "g" [.var "X"]), ("Z", .atom "a"),
          ("X", .app "f" [.var "Y"])])) :=
      unifyEnds_iff.mpr ⟨by simp, 2, by decide⟩
    have refused : UnifyEnds true (.app "p" [.var "Z", .var "X"])
        (.app "p" [.atom "a", .app "f" [.var "Y"]])
        (Bindings.empty.bind "Y" (.app "g" [.var "X"])) .clash :=
      unifyEnds_iff.mpr ⟨by simp, 2, by decide⟩
    have accepted := ((occursCheck_filters _ _ acyclic).1 _).mpr ⟨free, circleAcyclic⟩
    cases accepted.unique refused

end HornLogic
