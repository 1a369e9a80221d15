import HornLogic.Proofs.Unification.Step

/-!
# Unification only adds bindings

With or without the occurs check, a successful unification adds entries for
unbound variables in front of the entries that are there, brings in no
variables but those of the terms and of the bindings, and leaves no circle of
variables behind if there was none.  Circles that lead through arguments may
arise without the check; walks do not enter them.
-/

namespace HornLogic

namespace Bindings

variable {bindings : Bindings}

/-- All bound variables and all values meet a law of terms. -/
def All (law : Term → Prop) (bindings : Bindings) : Prop :=
  ∀ name value, bindings.get? name = some value → law (.var name) ∧ law value

section Laws

variable {law : Term → Prop}

theorem all_empty : empty.All law := by
  intro name value bound
  simp at bound

theorem All.bind (all : bindings.All law) {name : String} {value : Term}
    (nameLaw : law (.var name)) (valueLaw : law value) :
    (bindings.bind name value).All law := by
  intro other term bound
  rw [get?_bind] at bound
  by_cases same : other = name
  · obtain rfl : value = term := by simpa [same] using bound
    exact ⟨same ▸ nameLaw, valueLaw⟩
  · exact all other term (by simpa [same] using bound)

theorem All.mono (all : bindings.All law) {weaker : Term → Prop}
    (weakens : ∀ term, law term → weaker term) : bindings.All weaker := by
  intro name value bound
  obtain ⟨nameLaw, valueLaw⟩ := all name value bound
  exact ⟨weakens _ nameLaw, weakens _ valueLaw⟩

theorem All.walk (all : bindings.All law) {term : Term} (termLaw : law term) :
    law (bindings.walk term) :=
  walk_preserves law (fun name value bound _ => (all name value bound).2) termLaw

theorem All.substitute {good : String → Prop}
    (all : bindings.All fun term => ∀ name ∈ term.occurrences, good name) {term : Term}
    (termGood : ∀ name ∈ term.occurrences, good name) :
    ∀ name ∈ (term.substitute bindings).occurrences, good name := by
  have resolved : ∀ room expanding start, good start →
      ∀ name ∈ (bindings.resolveWithin room expanding start).occurrences, good name := by
    intro room
    induction room with
    | zero => exact fun _ start startGood => List.forall_mem_singleton.mpr startGood
    | succ room induction =>
        intro expanding start startGood
        by_cases inside : start ∈ expanding
        · simpa [resolveWithin, inside] using startGood
        · cases bound : bindings.get? start with
          | none => simpa [resolveWithin, inside, bound] using startGood
          | some value =>
              simp only [resolveWithin, inside, bound, if_false]
              intro name member
              obtain ⟨inner, innerMember, occurs⟩ := Term.mem_occurrences_subst.mp member
              have innerGood := (all start value bound).2 inner innerMember
              exact induction (start :: expanding) inner innerGood name occurs
  intro name member
  obtain ⟨start, startMember, occurs⟩ := Term.mem_occurrences_subst.mp member
  exact resolved bindings.size [] start (termGood start startMember) name occurs

end Laws

/-- All bound variables, and all variables of their values, are among names. -/
def Within (bindings : Bindings) (names : List String) : Prop :=
  bindings.All fun term => ∀ inner ∈ term.occurrences, inner ∈ names

theorem Within.names_subset {names : List String} (within : bindings.Within names) :
    bindings.names ⊆ names := by
  intro name member
  obtain ⟨⟨_, value⟩, entry, rfl⟩ := List.mem_map.mp member
  exact (within _ value (get?_eq_some_iff.mpr entry)).1 _ (by simp)

/-- The entries that an extension adds are listed behind the old ones, and they
are for variables that had no value. -/
theorem Extends.exists_added {later earlier : Bindings}
    (extension : later.Extends earlier) :
    ∃ added, later.toList = earlier.toList ++ added ∧
      ∀ entry ∈ added,
        earlier.get? entry.1 = none ∧ later.get? entry.1 = some entry.2 := by
  obtain ⟨newest, entries⟩ := extension
  refine ⟨newest.reverse, ?_, ?_⟩
  · rw [toList, ← entries, List.reverse_append, toList]
  · intro entry member
    have inNewest := List.mem_reverse.mp member
    constructor
    · have distinct := later.nodup
      rw [← entries, List.map_append, List.nodup_append] at distinct
      rw [get?_eq_none_iff]
      intro listed
      exact distinct.2.2 _ (List.mem_map_of_mem inNewest) _ listed rfl
    · rw [get?_eq_some_iff, ← entries]
      exact List.mem_append_left _ inNewest

theorem ChainsEnd.get?_eq_none_of_ends (chains : bindings.ChainsEnd) {left right : Term}
    {name : String} {rightEnds leftEnds : Prop}
    (ends : bindings.walk left = .var name ∧ rightEnds ∨
      leftEnds ∧ bindings.walk right = .var name) :
    bindings.get? name = none := by
  rcases ends with ⟨atName, _⟩ | ⟨_, atName⟩
  · exact chains.get?_eq_none_of_walk atName
  · exact chains.get?_eq_none_of_walk atName

theorem ChainsEnd.bind (chains : bindings.ChainsEnd) {name : String}
    (unbound : bindings.get? name = none) {value : Term}
    (different : value ≠ .var name)
    (walked : ∀ other, value = .var other → bindings.get? other = none) :
    (bindings.bind name value).ChainsEnd := by
  have leads : ∀ {first second}, (bindings.bind name value).Leads first second →
      bindings.Leads first second ∨ first = name ∧ value = .var second := by
    intro first second link
    rw [Leads, get?_bind] at link
    by_cases same : first = name
    · exact .inr ⟨same, by simpa [same] using link⟩
    · exact .inl (by simpa [same, Leads] using link)
  -- A path that uses the new binding stops there: the value leads nowhere.
  have path : ∀ {first last},
      Relation.TransGen (bindings.bind name value).Leads first last →
        Relation.TransGen bindings.Leads first last ∨ value = .var last := by
    intro first last links
    induction links with
    | single link =>
        rcases leads link with old | ⟨_, atEnd⟩
        · exact .inl (.single old)
        · exact .inr atEnd
    | tail _ link induction =>
        rcases leads link with old | ⟨_, atEnd⟩
        · rcases induction with before | atEnd
          · exact .inl (.tail before old)
          · have stuck := walked _ atEnd
            rw [Leads, stuck] at old
            cases old
        · exact .inr atEnd
  intro first cycle
  rcases path cycle with old | atEnd
  · exact chains first old
  · rcases Relation.TransGen.head'_iff.mp cycle with ⟨next, link, _⟩
    rcases leads link with old | ⟨rfl, _⟩
    · have stuck := walked first atEnd
      rw [Leads, stuck] at old
      cases old
    · exact different atEnd

/-- Later bindings grew from earlier ones by unification of terms whose
variables are among names. -/
structure GrewFrom (later earlier : Bindings) (names : List String) : Prop where
  extension : later.Extends earlier
  chains : later.ChainsEnd
  within : later.Within names

end Bindings

/-- The variables of bindings: those that are bound and those of their
values. -/
def Bindings.variables (bindings : Bindings) : List String :=
  bindings.entries.flatMap fun entry => entry.1 :: entry.2.occurrences

theorem Bindings.mem_variables {bindings : Bindings} {name : String} :
    name ∈ bindings.variables ↔
      name ∈ bindings.names ∨ ∃ other, bindings.Mentions other name := by
  constructor
  · intro member
    obtain ⟨⟨other, value⟩, entry, occurs⟩ := List.mem_flatMap.mp member
    rcases List.mem_cons.mp occurs with rfl | inValue
    · exact .inl (List.mem_map_of_mem entry)
    · exact .inr ⟨other, value, get?_eq_some_iff.mpr entry, inValue⟩
  · rintro (bound | ⟨other, value, entry, inValue⟩)
    · obtain ⟨entry, member, rfl⟩ := List.mem_map.mp bound
      exact List.mem_flatMap.mpr ⟨entry, member, by simp⟩
    · exact List.mem_flatMap.mpr
        ⟨_, get?_eq_some_iff.mp entry, List.mem_cons_of_mem _ inValue⟩

theorem Bindings.within_variables (bindings : Bindings) :
    bindings.Within bindings.variables := by
  intro name value bound
  constructor
  · intro inner member
    obtain rfl : inner = name := by simpa using member
    exact mem_variables.mpr (.inl (mem_names_of_get? bound))
  · intro inner member
    exact mem_variables.mpr (.inr ⟨name, value, bound, member⟩)

theorem Bindings.Within.variables_subset {bindings : Bindings} {names : List String}
    (within : bindings.Within names) : bindings.variables ⊆ names := by
  intro name member
  rcases mem_variables.mp member with bound | ⟨other, value, bound, inValue⟩
  · exact within.names_subset bound
  · exact (within other value bound).2 name inValue

theorem bindChecked_eq_bind {occursCheck : Bool} {bindings extended : Bindings}
    {name : String} {term : Term}
    (success : bindings.bindChecked occursCheck name term = .unified extended) :
    extended = bindings.bind name term := by
  unfold Bindings.bindChecked at success
  split at success
  · split at success
    · cases success
    · cases success
      rfl
    · cases success
  · cases success
    rfl

/-- Unification of terms that meet a law keeps it, if arguments inherit the law
from applications. -/
theorem unify_keeps_all {law : Term → Prop}
    (inherited : ∀ functor args, law (.app functor args) → ∀ arg ∈ args, law arg)
    {occursCheck : Bool} {effort : Nat} {left right : Term}
    {bindings extended : Bindings} (all : bindings.All law)
    (leftLaw : law left) (rightLaw : law right)
    (success : unify occursCheck effort left right bindings = .unified extended) :
    extended.All law := by
  induction effort generalizing left right bindings extended with
  | zero => simp [unify] at success
  | succ effort induction =>
      have leftWalked := all.walk leftLaw
      have rightWalked := all.walk rightLaw
      have step := unify_step occursCheck effort left right bindings
      rw [success] at step
      generalize answered : Attempt.unified extended = answer at step
      cases step with
      | same equal =>
          cases answered
          exact all
      | bind name term different ends =>
          obtain rfl := bindChecked_eq_bind answered.symm
          rcases ends with ⟨atName, rfl⟩ | ⟨rfl, atName⟩
          · exact all.bind (atName ▸ leftWalked) rightWalked
          · exact all.bind (atName ▸ rightWalked) leftWalked
      | args functor lefts rights leftEnd rightEnd _ =>
          rw [leftEnd] at leftWalked
          rw [rightEnd] at rightWalked
          apply unifyPairs_preserves (fun current => current.All law) ?_ all answered.symm
          intro first firstMember second secondMember current next currentAll pair
          apply induction currentAll ?_ ?_ pair
          · exact inherited functor lefts leftWalked first firstMember
          · exact inherited functor rights rightWalked second secondMember
      | apart clash => cases answered

/-- A successful unification only adds bindings. -/
theorem unify_extends {occursCheck : Bool} {effort : Nat} {left right : Term}
    {bindings extended : Bindings} (chains : bindings.ChainsEnd)
    (success : unify occursCheck effort left right bindings = .unified extended) :
    extended.Extends bindings ∧ extended.ChainsEnd := by
  induction effort generalizing left right bindings extended with
  | zero => simp [unify] at success
  | succ effort induction =>
      have step := unify_step occursCheck effort left right bindings
      rw [success] at step
      generalize answered : Attempt.unified extended = answer at step
      cases step with
      | same equal =>
          cases answered
          exact ⟨.refl _, chains⟩
      | bind name term different ends =>
          obtain rfl := bindChecked_eq_bind answered.symm
          have unbound : bindings.get? name = none := chains.get?_eq_none_of_ends ends
          have termUnbound : ∀ other, term = .var other → bindings.get? other = none := by
            rintro other rfl
            exact chains.get?_eq_none_of_ends ends.symm
          exact ⟨.bind unbound term, chains.bind unbound different termUnbound⟩
      | args functor lefts rights leftEnd rightEnd _ =>
          apply unifyPairs_preserves
            (fun current => current.Extends bindings ∧ current.ChainsEnd) ?_
            ⟨.refl _, chains⟩ answered.symm
          intro first firstMember second secondMember current next grown pair
          obtain ⟨extension, nextChains⟩ := induction grown.2 pair
          exact ⟨extension.trans grown.1, nextChains⟩
      | apart clash => cases answered

theorem unify_grows {occursCheck : Bool} {effort : Nat} {left right : Term}
    {bindings extended : Bindings} {names : List String}
    (chains : bindings.ChainsEnd) (within : bindings.Within names)
    (leftListed : ∀ name ∈ left.occurrences, name ∈ names)
    (rightListed : ∀ name ∈ right.occurrences, name ∈ names)
    (success : unify occursCheck effort left right bindings = .unified extended) :
    extended.GrewFrom bindings names := by
  obtain ⟨extension, extendedChains⟩ := unify_extends chains success
  refine ⟨extension, extendedChains, ?_⟩
  apply unify_keeps_all ?_ within leftListed rightListed success
  intro functor args listed arg member name occurs
  exact listed name (Term.occurrences_arg_subset member occurs)

/-- A successful unification lists the old entries first and unchanged.  The new
ones are for unbound variables of the terms or of values, no variable is listed
twice, and chains of variables still end, on variables without a value. -/
theorem unify_only_adds {occursCheck : Bool} {effort : Nat} {left right : Term}
    {bindings extended : Bindings} (chains : bindings.ChainsEnd)
    (success : unify occursCheck effort left right bindings = .unified extended) :
    (∃ added, extended.toList = bindings.toList ++ added ∧
      ∀ entry ∈ added, bindings.get? entry.1 = none ∧
        (entry.1 ∈ left.occurrences ∨ entry.1 ∈ right.occurrences ∨
          ∃ other, bindings.Mentions other entry.1)) ∧
      (extended.toList.map Prod.fst).Nodup ∧
      extended.ChainsEnd ∧
      ∀ term name, extended.walk term = .var name → extended.get? name = none := by
  have grown : extended.GrewFrom bindings
      (left.occurrences ++ right.occurrences ++ bindings.variables) := by
    apply unify_grows chains ?_ ?_ ?_ success
    · exact bindings.within_variables.mono fun _ listed name member =>
        List.mem_append_right _ (listed name member)
    · intro name member
      simp [member]
    · intro name member
      simp [member]
  obtain ⟨added, listed, fresh⟩ := grown.extension.exists_added
  refine ⟨⟨added, listed, fun entry member => ?_⟩, ?_,
    grown.chains, fun _ _ => grown.chains.get?_eq_none_of_walk⟩
  · obtain ⟨unbound, bound⟩ := fresh entry member
    refine ⟨unbound, ?_⟩
    have inPlay := (grown.within entry.1 entry.2 bound).1 entry.1 (by simp)
    rw [List.mem_append, List.mem_append, Bindings.mem_variables] at inPlay
    rcases inPlay with (inLeft | inRight) | old | mentioned
    · exact .inl inLeft
    · exact .inr (.inl inRight)
    · exact absurd old (Bindings.get?_eq_none_iff.mp unbound)
    · exact .inr (.inr mentioned)
  · rw [Bindings.toList, List.map_reverse, List.nodup_reverse]
    exact extended.nodup

/-- Without the occurs check, `p(X, W)` and `p(f(X), g(a))` are unified under
bindings of `X` to `Y` and of `W` to `g(V)`.  The new entries are for variables
of values, and `X` and `Y` lie on a circle through `f`, but walks still end on
variables without a value. -/
theorem unify_only_adds_to_values :
    (Bindings.ofList [("X", .var "Y"), ("W", .app "g" [.var "V"])]).ChainsEnd ∧
      ∃ extended,
        unify false 3 (.app "p" [.var "X", .var "W"])
            (.app "p" [.app "f" [.var "X"], .app "g" [.atom "a"]])
            (Bindings.ofList [("X", .var "Y"), ("W", .app "g" [.var "V"])]) =
          .unified extended ∧
        extended.toList = [("X", .var "Y"), ("W", .app "g" [.var "V"]),
          ("Y", .app "f" [.var "X"]), ("V", .atom "a")] ∧
        extended.ChainsEnd ∧
        ∀ term name, extended.walk term = .var name → extended.get? name = none := by
  have chains : (Bindings.ofList
      [("X", .var "Y"), ("W", .app "g" [.var "V"])]).ChainsEnd := by
    have built : unify false 2 (.app "p" [.var "X", .var "W"])
        (.app "p" [.var "Y", .app "g" [.var "V"]]) .empty =
          .unified (Bindings.ofList [("X", .var "Y"), ("W", .app "g" [.var "V"])]) := by
      decide
    exact (unify_extends Bindings.acyclic_empty.chainsEnd built).2
  have unified : unify false 3 (.app "p" [.var "X", .var "W"])
      (.app "p" [.app "f" [.var "X"], .app "g" [.atom "a"]])
      (Bindings.ofList [("X", .var "Y"), ("W", .app "g" [.var "V"])]) =
        .unified (Bindings.ofList [("X", .var "Y"), ("W", .app "g" [.var "V"]),
          ("Y", .app "f" [.var "X"]), ("V", .atom "a")]) := by
    decide
  obtain ⟨_, _, extendedChains, ends⟩ := unify_only_adds chains unified
  exact ⟨chains, _, unified, by decide, extendedChains, ends⟩

end HornLogic
