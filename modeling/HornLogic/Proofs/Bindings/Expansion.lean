import HornLogic.Proofs.Bindings.Resolution
import Mathlib.Data.Finset.SDiff

/-!
# Expansion of variables

Resolution expands variables inside each other, and leaves a variable alone that
it meets inside its own expansion.  Only bound variables are expanded, each once
on a path, so this comes to an end for cyclic bindings too.  All variables that
are being expanded lead to what stands inside of them: a variable that is left
alone lies on a cycle.
-/

namespace HornLogic

namespace Bindings

/-- A term that is resolved, and the variables inside whose values it stands, the
innermost first. -/
structure Expansion where
  expanding : List String
  term : Term

/-- Resolution goes on with the arguments of an application, and with the value of
a variable unless the variable is being expanded. -/
inductive Expansion.CalledBy (bindings : Bindings) : (part whole : Expansion) → Prop where
  | arg {expanding : List String} {functor : String} {args : List Term} {arg : Term}
      (member : arg ∈ args) :
      CalledBy bindings ⟨expanding, arg⟩ ⟨expanding, .app functor args⟩
  | value {expanding : List String} {name : String} {value : Term}
      (outside : name ∉ expanding) (bound : bindings.get? name = some value) :
      CalledBy bindings ⟨name :: expanding, value⟩ ⟨expanding, .var name⟩

/-- The bound variables that can still be expanded. -/
def expandable (bindings : Bindings) (expanding : List String) : Finset String :=
  bindings.names.toFinset \ expanding.toFinset

theorem expandable_cons (bindings : Bindings) (expanding : List String) (name : String) :
    bindings.expandable (name :: expanding) =
      (bindings.expandable expanding).erase name := by
  rw [expandable, List.toFinset_cons, Finset.sdiff_insert, expandable]

theorem mem_expandable {bindings : Bindings} {expanding : List String} {name : String}
    {value : Term} (outside : name ∉ expanding) (bound : bindings.get? name = some value) :
    name ∈ bindings.expandable expanding := by
  rw [expandable, Finset.mem_sdiff, List.mem_toFinset, List.mem_toFinset]
  exact ⟨mem_names_of_get? bound, outside⟩

theorem card_expandable_lt {bindings : Bindings} {expanding : List String} {name : String}
    {value : Term} (outside : name ∉ expanding) (bound : bindings.get? name = some value) :
    (bindings.expandable (name :: expanding)).card <
      (bindings.expandable expanding).card := by
  rw [expandable_cons]
  exact Finset.card_erase_lt_of_mem (mem_expandable outside bound)

theorem card_expandable_nil_le (bindings : Bindings) :
    (bindings.expandable []).card ≤ bindings.size := by
  calc
    (bindings.expandable []).card = bindings.names.toFinset.card := by simp [expandable]
    _ ≤ bindings.names.length := List.toFinset_card_le bindings.names
    _ = bindings.size := length_names bindings

/-- Resolution does not call itself endlessly, whatever the bindings. -/
theorem Expansion.wellFounded_calledBy (bindings : Bindings) :
    WellFounded (CalledBy bindings) := by
  let rank (expansion : Expansion) : Nat × Nat :=
    ((bindings.expandable expansion.expanding).card, expansion.term.size)
  have falls : ∀ {part whole : Expansion}, CalledBy bindings part whole →
      Prod.Lex (· < ·) (· < ·) (rank part) (rank whole) := by
    intro part whole called
    cases called with
    | arg member => exact .right _ (Term.size_arg_lt member)
    | value outside bound => exact .left _ _ (card_expandable_lt outside bound)
  exact Subrelation.wf falls (InvImage.wf rank (Prod.lex Nat.lt_wfRel Nat.lt_wfRel).wf)

/-- A term with its variables expanded inside each other, except those that are
being expanded. -/
def expand (bindings : Bindings) (expanding : List String) : Term → Term
  | .atom name => .atom name
  | .var name =>
      if inside : name ∈ expanding then .var name
      else
        match bound : bindings.get? name with
        | some value =>
            have := card_expandable_lt inside bound
            bindings.expand (name :: expanding) value
        | none => .var name
  | .app functor args =>
      .app functor (args.attach.map fun arg => bindings.expand expanding arg.1)
termination_by term => ((bindings.expandable expanding).card, term.size)
decreasing_by
  · exact .left _ _ this
  · exact .right _ (Term.size_arg_lt arg.2)

/-- Room for the variables that can still be expanded is enough. -/
theorem expand_eq_subst (bindings : Bindings) {room : Nat} {expanding : List String}
    (enough : (bindings.expandable expanding).card ≤ room) (term : Term) :
    bindings.expand expanding term = term.subst (bindings.resolveWithin room expanding) := by
  fun_induction bindings.expand expanding term generalizing room with
  | case1 expanding name => rfl
  | case2 expanding name inside =>
      cases room with
      | zero => rfl
      | succ room => simp [resolveWithin, inside]
  | case3 expanding name outside value bound fewer induction =>
      -- The variable that is expanded is one of those that there is room for.
      obtain ⟨less, rfl⟩ : ∃ less, room = less + 1 :=
        Nat.exists_eq_succ_of_ne_zero (by omega)
      have fits : (bindings.expandable (name :: expanding)).card ≤ less := by omega
      rw [induction fits]
      simp [resolveWithin, outside, bound]
  | case4 expanding name outside unbound =>
      rw [Term.subst_var, resolveWithin_of_unbound unbound]
  | case5 expanding functor args induction =>
      have sameArgs : (args.attach.map fun arg => bindings.expand expanding arg.1) =
          args.map (Term.subst (bindings.resolveWithin room expanding)) := by
        rw [List.attach_map_val]
        exact List.map_congr_left fun arg member => induction ⟨arg, member⟩ enough
      rw [sameArgs, Term.subst_app]

theorem expand_nil (bindings : Bindings) (term : Term) :
    bindings.expand [] term = term.substitute bindings :=
  bindings.expand_eq_subst bindings.card_expandable_nil_le term

/-- The variables inside whose values a term stands lead to all variables of the
term. -/
theorem Expansion.leads_of_reached {bindings : Bindings} {part : Expansion} {start : Term}
    (reached : Relation.ReflTransGen (CalledBy bindings) part ⟨[], start⟩) :
    ∀ outer ∈ part.expanding, ∀ name ∈ part.term.occurrences,
      Relation.TransGen bindings.Mentions outer name := by
  -- From the start down to the part: a call for a value adds one variable in front,
  -- and this one mentions all that stands inside.
  induction reached using Relation.ReflTransGen.head_induction_on with
  | refl =>
      intro outer member
      cases member
  | head called _ induction =>
      cases called with
      | arg member =>
          intro outer isOuter name occurs
          exact induction outer isOuter name (Term.occurrences_arg_subset member occurs)
      | @value expanding inner value outside bound =>
          intro outer isOuter name occurs
          have mention : bindings.Mentions inner name := ⟨value, bound, occurs⟩
          rcases List.mem_cons.mp isOuter with rfl | further
          · exact .single mention
          · exact .tail (induction outer further inner (by simp)) mention

/-- A variable that is left was met inside its own expansion or has no value. -/
theorem exists_of_mem_expand {bindings : Bindings} {expanding : List String} {term : Term}
    {name : String} (left : name ∈ (bindings.expand expanding term).occurrences) :
    ∃ within, Relation.ReflTransGen (Expansion.CalledBy bindings)
        ⟨within, .var name⟩ ⟨expanding, term⟩ ∧
      (name ∈ within ∨ bindings.get? name = none) := by
  fun_induction bindings.expand expanding term with
  | case1 expanding constant => simp at left
  | case2 expanding other inside =>
      obtain rfl : name = other := by simpa using left
      exact ⟨expanding, .refl, .inl inside⟩
  | case3 expanding other outside value bound fewer induction =>
      obtain ⟨within, path, stopped⟩ := induction left
      exact ⟨within, path.tail (.value outside bound), stopped⟩
  | case4 expanding other outside unbound =>
      obtain rfl : name = other := by simpa using left
      exact ⟨expanding, .refl, .inr unbound⟩
  | case5 expanding functor args induction =>
      obtain ⟨arg, member, occurs⟩ :
          ∃ arg ∈ args, name ∈ (bindings.expand expanding arg).occurrences := by
        simpa [List.attach_map_val] using left
      obtain ⟨within, path, stopped⟩ := induction ⟨arg, member⟩ occurs
      exact ⟨within, path.tail (.arg member), stopped⟩

/-- Resolution comes to an end under all bindings, cyclic or not, and every variable
that it leaves has no value or reaches itself through its value. -/
theorem substitute_ends (bindings : Bindings) (term : Term) :
    WellFounded (Expansion.CalledBy bindings) ∧
      bindings.expand [] term = term.substitute bindings ∧
      ∀ name ∈ (term.substitute bindings).occurrences,
        bindings.get? name = none ∨ Relation.TransGen bindings.Mentions name name := by
  refine ⟨Expansion.wellFounded_calledBy bindings, bindings.expand_nil term, ?_⟩
  intro name left
  rw [← bindings.expand_nil term] at left
  obtain ⟨within, path, inside | unbound⟩ := exists_of_mem_expand left
  · exact .inr (Expansion.leads_of_reached path name inside name (by simp))
  · exact .inl unbound

/-- `X` stands for `f(Y, Z)`, `Y` for `g(X, W)` and `Z` for `h(Z, X)`.  On these
cycles `p(Y)` is resolved to `p(g(f(Y, h(Z, X)), W))`: `X`, `Y` and `Z` reach
themselves, and `W` has no value. -/
theorem substitute_ends_on_crossing_cycles :
    ∃ bindings : Bindings,
      bindings.toList = [("X", .app "f" [.var "Y", .var "Z"]),
        ("Y", .app "g" [.var "X", .var "W"]), ("Z", .app "h" [.var "Z", .var "X"])] ∧
      (Term.app "p" [.var "Y"]).substitute bindings =
        .app "p" [.app "g" [.app "f" [.var "Y", .app "h" [.var "Z", .var "X"]],
          .var "W"]] ∧
      bindings.get? "W" = none ∧
      ∀ name ∈ ["X", "Y", "Z"], Relation.TransGen bindings.Mentions name name := by
  let bindings := ofList [("X", .app "f" [.var "Y", .var "Z"]),
    ("Y", .app "g" [.var "X", .var "W"]), ("Z", .app "h" [.var "Z", .var "X"])]
  refine ⟨bindings, by decide, by decide, by decide, ?_⟩
  intro name member
  obtain ⟨_, _, stopped⟩ := substitute_ends bindings (.app "p" [.var "Y"])
  have isLeft : ∀ name ∈ ["X", "Y", "Z"],
      name ∈ ((Term.app "p" [.var "Y"]).substitute bindings).occurrences := by
    decide
  have isBound : ∀ name ∈ ["X", "Y", "Z"], bindings.get? name ≠ none := by
    decide
  exact (stopped name (isLeft name member)).resolve_left (isBound name member)

end Bindings

end HornLogic
