import HornLogic.Proofs.Unification.Termination

/-!
# Equations that hold already

Terms that are resolved to one term are unified by the bindings as they are, even
if the two only agree deep inside the values of variables.  There is no need to
follow the unification: its bindings have the solutions of the old ones, and
acyclic bindings that include others have fewer solutions as soon as they bind
one more variable.
-/

namespace HornLogic

namespace Bindings

theorem Acyclic.get?_eq_none_of_solvedBy_resolve {later earlier : Bindings}
    (acyclic : later.Acyclic) (inclusion : later.Includes earlier)
    (solved : later.SolvedBy earlier.resolve) {name : String}
    (unbound : earlier.get? name = none) : later.get? name = none := by
  have isInstance : (later.resolve name).subst earlier.resolve = .var name := by
    rw [← resolve_of_unbound unbound]
    exact solved.subst_substitute (.var name)
  -- Only a variable has a variable as an instance, and it has no value in either.
  cases resolved : later.resolve name with
  | atom constant => simp [resolved] at isInstance
  | app functor args => simp [resolved] at isInstance
  | var last =>
      have isLeft : last ∈ (later.resolve name).occurrences := by simp [resolved]
      have lastUnbound : later.get? last = none :=
        (acyclic.mem_occurrences_resolve.mp isLeft).1
      have lastUnboundBefore : earlier.get? last = none := by
        cases bound : earlier.get? last with
        | none => rfl
        | some value =>
            rw [inclusion last value bound] at lastUnbound
            cases lastUnbound
      rw [resolved, Term.subst_var, resolve_of_unbound lastUnboundBefore] at isInstance
      cases isInstance
      exact lastUnbound

/-- Acyclic bindings that grew from others and are solved by the resolution of these
did not grow at all. -/
theorem Extends.eq_of_solvedBy_resolve {later earlier : Bindings}
    (extension : later.Extends earlier) (acyclic : later.Acyclic)
    (solved : later.SolvedBy earlier.resolve) : later = earlier := by
  obtain ⟨added, listed, fresh⟩ := extension.exists_added
  have nothing : added = [] := by
    rw [List.eq_nil_iff_forall_not_mem]
    intro entry member
    obtain ⟨unbound, bound⟩ := fresh entry member
    have stillUnbound :=
      acyclic.get?_eq_none_of_solvedBy_resolve extension.includes solved unbound
    rw [stillUnbound] at bound
    cases bound
  calc
    later = ofList later.toList := (ofList_toList later).symm
    _ = ofList earlier.toList := by rw [listed, nothing, List.append_nil]
    _ = earlier := ofList_toList earlier

end Bindings

section

variable {left right : Term} {bindings : Bindings}

theorem UnifyEnds.substitute_eq {extended : Bindings} (acyclic : bindings.Acyclic)
    (ends : UnifyEnds true left right bindings (.unified extended)) :
    extended.Acyclic ∧ left.substitute extended = right.substitute extended := by
  obtain ⟨extendedAcyclic, _, solutions⟩ := ends.solutions acyclic
  exact ⟨extendedAcyclic,
    ((solutions extended.resolve).mp extendedAcyclic.solvedBy_resolve).2⟩

/-- Terms that are resolved to one term are unified without a new binding. -/
theorem unifyEnds_of_substitute_eq (acyclic : bindings.Acyclic)
    (equal : left.substitute bindings = right.substitute bindings) :
    UnifyEnds true left right bindings (.unified bindings) := by
  obtain ⟨answer, ends⟩ := exists_unifyEnds left right acyclic
  cases answer with
  | none => exact absurd equal (ends.no_solution acyclic acyclic.solvedBy_resolve)
  | some extended =>
      obtain ⟨extendedAcyclic, extension, solutions⟩ := ends.solutions acyclic
      have solved : extended.SolvedBy bindings.resolve :=
        (solutions bindings.resolve).mpr ⟨acyclic.solvedBy_resolve, equal⟩
      obtain rfl := extension.eq_of_solvedBy_resolve extendedAcyclic solved
      exact ends

/-- Unification under acyclic bindings leaves them as they are exactly if the terms
are resolved to one term.  So it does when it is repeated under the bindings that
it gave. -/
theorem unify_adds_nothing_iff (left right : Term) {bindings : Bindings}
    (acyclic : bindings.Acyclic) :
    (UnifyEnds true left right bindings (.unified bindings) ↔
      left.substitute bindings = right.substitute bindings) ∧
    ∀ extended, UnifyEnds true left right bindings (.unified extended) →
      UnifyEnds true left right extended (.unified extended) := by
  refine ⟨⟨fun ends => (ends.substitute_eq acyclic).2, unifyEnds_of_substitute_eq acyclic⟩, ?_⟩
  intro extended ends
  obtain ⟨extendedAcyclic, equal⟩ := ends.substitute_eq acyclic
  exact unifyEnds_of_substitute_eq extendedAcyclic equal

/-- With `X` bound to `f(Y)` and `Y` to `Z`, the terms `p(X, W)` and `p(f(Z), W)` are
equal below two bindings, and nothing is added.  For `p(X, W)` and `p(f(a), g(Z))`
the variables `Z` and `W` are bound, and nothing is added a second time. -/
theorem unify_adds_nothing_below_bindings :
    ∃ bindings extended : Bindings, bindings.Acyclic ∧
      bindings.toList = [("X", .app "f" [.var "Y"]), ("Y", .var "Z")] ∧
      UnifyEnds true (.app "p" [.var "X", .var "W"])
        (.app "p" [.app "f" [.var "Z"], .var "W"]) bindings (.unified bindings) ∧
      extended.toList = [("X", .app "f" [.var "Y"]), ("Y", .var "Z"), ("Z", .atom "a"),
        ("W", .app "g" [.var "Z"])] ∧
      UnifyEnds true (.app "p" [.var "X", .var "W"])
        (.app "p" [.app "f" [.atom "a"], .app "g" [.var "Z"]]) bindings
        (.unified extended) ∧
      UnifyEnds true (.app "p" [.var "X", .var "W"])
        (.app "p" [.app "f" [.atom "a"], .app "g" [.var "Z"]]) extended
        (.unified extended) := by
  let outer := Bindings.empty.bind "X" (.app "f" [.var "Y"])
  let bindings := outer.bind "Y" (.var "Z")
  let extended := Bindings.ofList [("X", .app "f" [.var "Y"]), ("Y", .var "Z"),
    ("Z", .atom "a"), ("W", .app "g" [.var "Z"])]
  have outerAcyclic : outer.Acyclic :=
    (Bindings.acyclic_empty.bind_iff rfl).mpr (by decide)
  have acyclic : bindings.Acyclic := (outerAcyclic.bind_iff rfl).mpr (by decide)
  have unified : UnifyEnds true (.app "p" [.var "X", .var "W"])
      (.app "p" [.app "f" [.atom "a"], .app "g" [.var "Z"]]) bindings
      (.unified extended) :=
    unifyEnds_iff.mpr ⟨by simp, 3, by decide⟩
  refine ⟨bindings, extended, acyclic, by decide, ?_, by decide, unified, ?_⟩
  · exact (unify_adds_nothing_iff _ _ acyclic).1.mpr (by decide)
  · exact (unify_adds_nothing_iff _ _ acyclic).2 extended unified

end

end HornLogic
