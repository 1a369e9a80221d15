import HornLogic.Proofs.Bindings.Expansion

/-!
# The solved form of bindings

Acyclic bindings can be read as equations that define a map of terms: a bound
variable is mapped to what its value is mapped to.  Resolution is the only such
map that leaves atoms, applications and variables without a value in place.  It
never meets a variable inside its own expansion, it leaves no bound variable, and
resolving again under more bindings is the same as resolving under these at once.
-/

namespace HornLogic

/-- A map of terms that leaves atoms alone and maps applications argument by
argument. -/
structure Term.PreservesStructure (map : Term → Term) : Prop where
  atom : ∀ name, map (.atom name) = .atom name
  app : ∀ functor args, map (.app functor args) = .app functor (args.map map)

/-- Maps that preserve the structure of terms are substitutions. -/
theorem Term.PreservesStructure.eq_subst {map : Term → Term}
    (preserves : Term.PreservesStructure map) (term : Term) :
    map term = term.subst fun name => map (.var name) := by
  induction term with
  | atom name => exact preserves.atom name
  | var name => rfl
  | app functor args induction =>
      rw [preserves.app, Term.subst_app, List.map_congr_left induction]

theorem Term.preservesStructure_subst (assign : String → Term) :
    Term.PreservesStructure (Term.subst assign) where
  atom _ := rfl
  app functor args := Term.subst_app assign functor args

namespace Bindings

/-- A map of terms solves bindings: it preserves structure, maps a bound variable
to what its value is mapped to, and leaves all other variables alone. -/
structure IsSolvedForm (bindings : Bindings) (map : Term → Term) : Prop
    extends Term.PreservesStructure map where
  bound : ∀ name value, bindings.get? name = some value → map (.var name) = map value
  unbound : ∀ name, bindings.get? name = none → map (.var name) = .var name

variable {bindings : Bindings}

theorem Acyclic.isSolvedForm_substitute (acyclic : bindings.Acyclic) :
    bindings.IsSolvedForm (Term.substitute · bindings) where
  toPreservesStructure := Term.preservesStructure_subst bindings.resolve
  bound _ _ isBound := acyclic.resolve_of_bound isBound
  unbound _ isUnbound := resolve_of_unbound isUnbound

theorem Acyclic.get?_eq_none_of_mem_substitute (acyclic : bindings.Acyclic) {term : Term}
    {name : String} (left : name ∈ (term.substitute bindings).occurrences) :
    bindings.get? name = none :=
  (acyclic.mem_occurrences_substitute.mp left).1

theorem Acyclic.substitute_eq_self_iff (acyclic : bindings.Acyclic) {name : String} :
    (Term.var name).substitute bindings = .var name ↔ bindings.get? name = none := by
  constructor
  · intro same
    have left : name ∈ ((Term.var name).substitute bindings).occurrences := by
      simp [same]
    exact acyclic.get?_eq_none_of_mem_substitute left
  · intro isUnbound
    exact resolve_of_unbound isUnbound

/-- A substitution that leaves the variables without a value alone and solves
acyclic bindings is their resolution. -/
theorem Acyclic.eq_resolve_of_solvedBy (acyclic : bindings.Acyclic)
    {assign : String → Term} (solved : bindings.SolvedBy assign)
    (fixes : ∀ name, bindings.get? name = none → assign name = .var name)
    (name : String) : assign name = bindings.resolve name := by
  calc
    assign name = (bindings.resolve name).subst assign :=
      (solved.subst_substitute (.var name)).symm
    _ = (bindings.resolve name).subst .var := by
      refine Term.subst_congr fun inner left => fixes inner ?_
      exact (acyclic.mem_occurrences_resolve.mp left).1
    _ = bindings.resolve name := Term.subst_self _

theorem Acyclic.isSolvedForm_iff (acyclic : bindings.Acyclic) {map : Term → Term} :
    bindings.IsSolvedForm map ↔ map = (Term.substitute · bindings) := by
  constructor
  · intro solvedForm
    have isSubst := solvedForm.toPreservesStructure.eq_subst
    have solved : bindings.SolvedBy fun name => map (.var name) := by
      intro name value isBound
      exact (solvedForm.bound name value isBound).trans (isSubst value)
    funext term
    rw [isSubst term]
    exact Term.subst_congr fun name _ =>
      acyclic.eq_resolve_of_solvedBy solved solvedForm.unbound name
  · rintro rfl
    exact acyclic.isSolvedForm_substitute

/-- Resolution of acyclic bindings meets no variable inside its own expansion. -/
theorem Acyclic.outside_of_reached (acyclic : bindings.Acyclic) {expanding : List String}
    {name : String} {start : Term}
    (reached : Relation.ReflTransGen (Expansion.CalledBy bindings)
      ⟨expanding, .var name⟩ ⟨[], start⟩) : name ∉ expanding := by
  intro inside
  exact acyclic name (Expansion.leads_of_reached reached name inside name (by simp))

/-- Resolving under acyclic bindings and then under others that include them is
resolving under the others. -/
theorem Acyclic.substitute_substitute {later : Bindings} (acyclic : later.Acyclic)
    (inclusion : later.Includes bindings) (term : Term) :
    (term.substitute bindings).substitute later = term.substitute later :=
  (acyclic.solvedBy_resolve.of_includes inclusion).subst_substitute term

/-- Resolution under acyclic bindings is their solved form: the only map that
preserves structure, maps bound variables like their values and leaves the others
alone.  It meets no variable inside its own expansion, leaves no bound variable,
is absorbed by resolution under acyclic bindings that include these, and so has no
effect on what it gave. -/
theorem substitute_is_solved_form (acyclic : bindings.Acyclic) :
    (∀ map, bindings.IsSolvedForm map ↔ map = (Term.substitute · bindings)) ∧
    (∀ term expanding name, Relation.ReflTransGen (Expansion.CalledBy bindings)
      ⟨expanding, .var name⟩ ⟨[], term⟩ → name ∉ expanding) ∧
    (∀ term : Term, ∀ name ∈ (term.substitute bindings).occurrences,
      bindings.get? name = none) ∧
    (∀ later : Bindings, later.Acyclic → later.Includes bindings → ∀ term : Term,
      (term.substitute bindings).substitute later = term.substitute later) ∧
    ∀ term : Term,
      (term.substitute bindings).substitute bindings = term.substitute bindings := by
  refine ⟨fun map => acyclic.isSolvedForm_iff, ?_, ?_, ?_, ?_⟩
  · intro term expanding name reached
    exact acyclic.outside_of_reached reached
  · intro term name left
    exact acyclic.get?_eq_none_of_mem_substitute left
  · intro later laterAcyclic inclusion term
    exact laterAcyclic.substitute_substitute inclusion term
  · intro term
    exact acyclic.substitute_substitute (fun _ _ isBound => isBound) term

/-- With `X` bound to `g(Y, Y)` and `Y` to `f(Z)`, every solved form maps `p(X, W)`
to `p(g(f(Z), f(Z)), W)`.  Resolution comes to `Z` inside of `Y` and `X`, and
leaves it.  Once `Z` is bound to `a`, it gives `p(g(f(a), f(a)), W)` from there. -/
theorem substitute_is_solved_form_of_nested :
    ∃ bindings later : Bindings, bindings.Acyclic ∧ later.Acyclic ∧
      later.Includes bindings ∧
      bindings.toList = [("X", .app "g" [.var "Y", .var "Y"]), ("Y", .app "f" [.var "Z"])] ∧
      later.toList = [("X", .app "g" [.var "Y", .var "Y"]), ("Y", .app "f" [.var "Z"]),
        ("Z", .atom "a")] ∧
      (∀ map, bindings.IsSolvedForm map →
        map (.app "p" [.var "X", .var "W"]) =
          .app "p" [.app "g" [.app "f" [.var "Z"], .app "f" [.var "Z"]], .var "W"]) ∧
      Relation.ReflTransGen (Expansion.CalledBy bindings)
        ⟨["Y", "X"], .var "Z"⟩ ⟨[], .app "p" [.var "X", .var "W"]⟩ ∧
      "Z" ∉ ["Y", "X"] ∧ bindings.get? "Z" = none ∧
      (Term.app "p" [.app "g" [.app "f" [.var "Z"], .app "f" [.var "Z"]],
        .var "W"]).substitute later =
          .app "p" [.app "g" [.app "f" [.atom "a"], .app "f" [.atom "a"]], .var "W"] := by
  let outer := empty.bind "X" (.app "g" [.var "Y", .var "Y"])
  let bindings := outer.bind "Y" (.app "f" [.var "Z"])
  let later := bindings.bind "Z" (.atom "a")
  have outerAcyclic : outer.Acyclic := (acyclic_empty.bind_iff rfl).mpr (by decide)
  have acyclic : bindings.Acyclic := (outerAcyclic.bind_iff rfl).mpr (by decide)
  have laterAcyclic : later.Acyclic := (acyclic.bind_iff rfl).mpr (by decide)
  have inclusion : later.Includes bindings := (Extends.bind rfl (.atom "a")).includes
  obtain ⟨unique, outside, unboundLeft, absorbed, _⟩ := substitute_is_solved_form acyclic
  have resolved : (Term.app "p" [.var "X", .var "W"]).substitute bindings =
      .app "p" [.app "g" [.app "f" [.var "Z"], .app "f" [.var "Z"]], .var "W"] := by
    decide
  have intoX : Expansion.CalledBy bindings
      ⟨["X"], .app "g" [.var "Y", .var "Y"]⟩ ⟨[], .var "X"⟩ :=
    .value (by decide) rfl
  have intoY : Expansion.CalledBy bindings
      ⟨["Y", "X"], .app "f" [.var "Z"]⟩ ⟨["X"], .var "Y"⟩ :=
    .value (by decide) rfl
  have reached : Relation.ReflTransGen (Expansion.CalledBy bindings)
      ⟨["Y", "X"], .var "Z"⟩ ⟨[], .app "p" [.var "X", .var "W"]⟩ :=
    .head (.arg List.mem_cons_self) <| .head intoY <|
      .head (.arg List.mem_cons_self) <| .head intoX <| .single (.arg List.mem_cons_self)
  refine ⟨bindings, later, acyclic, laterAcyclic, inclusion, by decide, by decide, ?_,
    reached, outside _ _ _ reached, unboundLeft _ "Z" (by rw [resolved]; decide), ?_⟩
  · intro map solvedForm
    rw [(unique map).mp solvedForm, ← resolved]
  · rw [← resolved, absorbed later laterAcyclic inclusion]
    decide

end Bindings

end HornLogic
