import HornLogic.Proofs.Unification.Solutions

/-!
# What unification uses up

Unification looks through bindings, so the terms that it comes to may be larger
than those it began with.  Under the same bindings they are smaller when they are
resolved; and as soon as a variable gets bound there are fewer without a value
among the variables in play, however large the terms resolve.
-/

namespace HornLogic

/-- The variables that unification of two lists of terms can come across: those
of the terms and those of the bindings. -/
def inPlay (lefts rights : List Term) (bindings : Bindings) : List String :=
  lefts.flatMap Term.occurrences ++ rights.flatMap Term.occurrences ++ bindings.variables

/-- How many variables unification can still bind. -/
def countUnbound (lefts rights : List Term) (bindings : Bindings) : Nat :=
  ((inPlay lefts rights bindings).toFinset.filter fun name =>
    bindings.get? name = none).card

/-- The size of what terms stand for. -/
def resolvedSize (terms : List Term) (bindings : Bindings) : Nat :=
  Term.sizeArgs (terms.map (Term.substitute · bindings))

theorem mem_inPlay {lefts rights : List Term} {bindings : Bindings} {name : String} :
    name ∈ inPlay lefts rights bindings ↔
      (∃ left ∈ lefts, name ∈ left.occurrences) ∨
        (∃ right ∈ rights, name ∈ right.occurrences) ∨ name ∈ bindings.variables := by
  simp [inPlay]

theorem inPlay_subset {lefts rights : List Term} {bindings : Bindings} {names : List String}
    (leftsListed : ∀ left ∈ lefts, ∀ name ∈ left.occurrences, name ∈ names)
    (rightsListed : ∀ right ∈ rights, ∀ name ∈ right.occurrences, name ∈ names)
    (known : bindings.variables ⊆ names) : inPlay lefts rights bindings ⊆ names := by
  intro name member
  rcases mem_inPlay.mp member with ⟨left, inLefts, occurs⟩ | ⟨right, inRights, occurs⟩ | bound
  · exact leftsListed left inLefts name occurs
  · exact rightsListed right inRights name occurs
  · exact known bound

theorem occurrences_left_inPlay {lefts : List Term} (rights : List Term) (bindings : Bindings)
    {left : Term} (member : left ∈ lefts) :
    ∀ name ∈ left.occurrences, name ∈ inPlay lefts rights bindings :=
  fun _ occurs => mem_inPlay.mpr (.inl ⟨left, member, occurs⟩)

theorem occurrences_right_inPlay (lefts : List Term) {rights : List Term} (bindings : Bindings)
    {right : Term} (member : right ∈ rights) :
    ∀ name ∈ right.occurrences, name ∈ inPlay lefts rights bindings :=
  fun _ occurs => mem_inPlay.mpr (.inr (.inl ⟨right, member, occurs⟩))

theorem variables_inPlay (lefts rights : List Term) (bindings : Bindings) :
    bindings.variables ⊆ inPlay lefts rights bindings :=
  fun _ known => mem_inPlay.mpr (.inr (.inr known))

theorem within_inPlay (lefts rights : List Term) (bindings : Bindings) :
    bindings.Within (inPlay lefts rights bindings) :=
  bindings.within_variables.mono fun _ listed name member =>
    variables_inPlay lefts rights bindings (listed name member)

/-- Terms and bindings that unification comes to: no variables are new, and the
bindings extend those that it began with. -/
structure ComesTo (parts partners : List Term) (current : Bindings)
    (lefts rights : List Term) (bindings : Bindings) : Prop where
  extension : current.Extends bindings
  inPlay_subset : inPlay parts partners current ⊆ inPlay lefts rights bindings

namespace ComesTo

variable {parts partners lefts rights : List Term} {current bindings : Bindings}

theorem unbound_subset (comes : ComesTo parts partners current lefts rights bindings) :
    ((inPlay parts partners current).toFinset.filter fun name =>
        current.get? name = none) ⊆
      (inPlay lefts rights bindings).toFinset.filter fun name =>
        bindings.get? name = none := by
  intro name member
  rw [Finset.mem_filter, List.mem_toFinset] at member ⊢
  refine ⟨comes.inPlay_subset member.1, ?_⟩
  cases bound : bindings.get? name with
  | none => rfl
  | some value =>
      rw [comes.extension.get?_eq_some bound] at member
      cases member.2

theorem countUnbound_le (comes : ComesTo parts partners current lefts rights bindings) :
    countUnbound parts partners current ≤ countUnbound lefts rights bindings :=
  Finset.card_le_card comes.unbound_subset

/-- With every new binding there are fewer variables to bind. -/
theorem countUnbound_lt (comes : ComesTo parts partners current lefts rights bindings)
    (grown : bindings.size < current.size) :
    countUnbound parts partners current < countUnbound lefts rights bindings := by
  apply Finset.card_lt_card
  rw [Finset.ssubset_iff_of_subset comes.unbound_subset]
  obtain ⟨added, listed, fresh⟩ := comes.extension.exists_added
  have sizes : current.size = bindings.size + added.length := by
    have lengths := congrArg List.length listed
    simpa [Bindings.toList, Bindings.size] using lengths
  obtain ⟨entry, member⟩ : ∃ entry, entry ∈ added :=
    List.exists_mem_of_length_pos (by omega)
  obtain ⟨unbound, bound⟩ := fresh entry member
  have known : entry.1 ∈ current.variables :=
    Bindings.mem_variables.mpr (.inl (Bindings.mem_names_of_get? bound))
  refine ⟨entry.1, ?_, ?_⟩
  · rw [Finset.mem_filter, List.mem_toFinset]
    exact ⟨comes.inPlay_subset (variables_inPlay _ _ current known), unbound⟩
  · intro stillUnbound
    rw [Finset.mem_filter, bound] at stillUnbound
    cases stillUnbound.2

/-- What unification comes to has fewer variables to bind, or its left terms are
smaller under the same bindings. -/
theorem falls (comes : ComesTo parts partners current lefts rights bindings)
    {last first : Nat}
    (smaller : Prod.Lex (· < ·) (· < ·)
      (resolvedSize parts bindings, last) (resolvedSize lefts bindings, first)) :
    Prod.Lex (· < ·) (Prod.Lex (· < ·) (· < ·))
      (countUnbound parts partners current, resolvedSize parts current, last)
      (countUnbound lefts rights bindings, resolvedSize lefts bindings, first) := by
  rcases Nat.lt_or_ge bindings.size current.size with grown | notGrown
  · exact .left _ _ (comes.countUnbound_lt grown)
  · obtain rfl := comes.extension.eq_of_size_le notGrown
    exact .right' _ comes.countUnbound_le smaller

end ComesTo

/-- Unification of listed terms keeps bindings acyclic and lets them grow by
listed variables only. -/
theorem unify_grows_acyclic {names : List String} {effort : Nat} {left right : Term}
    {start bindings extended : Bindings} (acyclic : bindings.Acyclic)
    (grown : bindings.GrewFrom start names)
    (leftListed : ∀ name ∈ left.occurrences, name ∈ names)
    (rightListed : ∀ name ∈ right.occurrences, name ∈ names)
    (success : unify true effort left right bindings = .unified extended) :
    extended.Acyclic ∧ extended.GrewFrom start names := by
  have grew : extended.GrewFrom bindings names :=
    unify_grows acyclic.chainsEnd grown.within leftListed rightListed success
  exact ⟨(unified_solutions acyclic success).1,
    grew.extension.trans grown.extension, grew.chains, grew.within⟩

theorem unifyPairs_grows_acyclic {names : List String} {effort : Nat}
    {lefts rights : List Term} {bindings extended : Bindings}
    (acyclic : bindings.Acyclic) (within : bindings.Within names)
    (leftsListed : ∀ left ∈ lefts, ∀ name ∈ left.occurrences, name ∈ names)
    (rightsListed : ∀ right ∈ rights, ∀ name ∈ right.occurrences, name ∈ names)
    (success : unifyPairs (unify true effort) lefts rights bindings =
      .unified extended) :
    extended.Acyclic ∧ extended.GrewFrom bindings names := by
  apply unifyPairs_preserves
    (fun current => current.Acyclic ∧ current.GrewFrom bindings names) ?_
    ⟨acyclic, .refl bindings, acyclic.chainsEnd, within⟩ success
  intro left leftMember right rightMember current next grown pair
  exact unify_grows_acyclic grown.1 grown.2 (leftsListed left leftMember)
    (rightsListed right rightMember) pair

/-- The arguments at the ends of walks have no other variables than the terms
and the bindings. -/
theorem inPlay_args_subset {left right : Term} {bindings : Bindings}
    {leftName rightName : String} {lefts rights : List Term}
    (leftEnd : bindings.walk left = .app leftName lefts)
    (rightEnd : bindings.walk right = .app rightName rights) :
    inPlay lefts rights bindings ⊆ inPlay [left] [right] bindings := by
  have within := within_inPlay [left] [right] bindings
  have ofLeft := within.walk (occurrences_left_inPlay [right] bindings List.mem_cons_self)
  have ofRight := within.walk (occurrences_right_inPlay [left] bindings List.mem_cons_self)
  rw [leftEnd] at ofLeft
  rw [rightEnd] at ofRight
  apply inPlay_subset ?_ ?_ (variables_inPlay [left] [right] bindings)
  · intro arg member name occurs
    exact ofLeft name (Term.occurrences_arg_subset member occurs)
  · intro arg member name occurs
    exact ofRight name (Term.occurrences_arg_subset member occurs)

theorem resolvedSize_le_of_mem {term : Term} {terms : List Term} (member : term ∈ terms)
    (bindings : Bindings) : resolvedSize [term] bindings ≤ resolvedSize terms bindings :=
  Term.size_le_sizeArgs (List.mem_map_of_mem member)

theorem resolvedSize_args_lt {left : Term} {bindings : Bindings} (acyclic : bindings.Acyclic)
    {functor : String} {lefts : List Term}
    (leftEnd : bindings.walk left = .app functor lefts) :
    resolvedSize lefts bindings < resolvedSize [left] bindings := by
  have resolved : left.substitute bindings =
      .app functor (lefts.map (Term.substitute · bindings)) := by
    rw [← acyclic.substitute_walk left, leftEnd]
    simp [Term.substitute]
  simp [resolvedSize, resolved, Term.sizeArgs, Term.size]

end HornLogic
