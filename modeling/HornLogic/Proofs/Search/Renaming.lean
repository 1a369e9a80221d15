import HornLogic.Proofs.Search.Branches
import HornLogic.Proofs.Search.RenamedSteps
import HornLogic.Proofs.Term.FreshNames

/-!
# Queries with renamed variables

A renaming of the query that leaves alone the names which the search makes itself
renames the search, so the calls for the next item yield the renamed items.  A query
may contain a name that is still to be made, though, since nothing forbids the mark in
a name; then a renamed clause has a variable in common with the query, and answers are
lost.
-/

namespace HornLogic

namespace Search

variable (change : String ↪ String)

theorem start_of_callable {query : Term} (callable : query.isVar = false) :
    start query =
      .ok ⟨reportedVariables query, .proving [⟨query, 0⟩] .empty, []⟩ := by
  simp [start, callable]

/-- The variables that a renamed query asks for, if the renaming keeps whether a
name starts with an underscore. -/
theorem reportedVariables_rename {query : Term}
    (kept : ∀ name ∈ query.occurrences,
      ((change name).toList.head? = some '_' ↔ name.toList.head? = some '_')) :
    reportedVariables (query.rename change) = (reportedVariables query).map change := by
  rw [reportedVariables, Term.variableNames_rename change.injective, List.filter_map,
    reportedVariables]
  congr 1
  apply List.filter_congr
  intro name member
  have occurs : name ∈ query.occurrences := List.mem_eraseDups.mp member
  have same : ((change name).toList.head? == some '_') = (name.toList.head? == some '_') := by
    rw [Bool.eq_iff_iff, beq_iff_eq, beq_iff_eq]
    exact kept name occurs
  simp only [Function.comp_apply, bne, same]

end Search

/-- The renaming leaves alone the names that are made with this number or one that the
counter comes to after it. -/
def FixesFrom (change : String → String) (nextNumber : Nat → Nat) (fresh : Nat) : Prop :=
  ∀ trials name,
    change (freshName (nextNumber^[trials] fresh) name) =
      freshName (nextNumber^[trials] fresh) name

theorem FixesFrom.rename_freshen {change : String → String} {nextNumber : Nat → Nat}
    {fresh : Nat} (fixes : FixesFrom change nextNumber fresh) (trials : Nat) (term : Term) :
    (term.freshen (nextNumber^[trials] fresh)).rename change =
      term.freshen (nextNumber^[trials] fresh) := by
  apply Term.rename_eq_self
  intro name member
  obtain ⟨original, _, rfl⟩ := Term.mem_occurrences_rename.mp member
  exact fixes trials original

namespace Prover

variable {prover : Prover}

theorem renumbers_of_fixesFrom {change : String → String} {fresh : Nat}
    (fixes : FixesFrom change prover.nextNumber fresh) (trials : Nat) :
    prover.Renumbers prover.nextNumber change id (prover.nextNumber^[trials] fresh) := by
  refine ⟨rfl, ?_⟩
  intro signature clause _
  have kept := fixes.rename_freshen trials
  generalize prover.nextNumber^[trials] fresh = number at kept ⊢
  have body : (clause.freshen number).body.map (Term.rename change) =
      (clause.freshen number).body := by
    conv_rhs => rw [← List.map_id (clause.freshen number).body]
    refine List.map_congr_left fun term member => ?_
    obtain ⟨original, _, rfl⟩ := List.mem_map.mp member
    exact kept original
  rw [Clause.rename, body]
  exact congrArg (Clause.mk · _) (kept clause.head)

theorem nthNext_renamed_query (change : String ↪ String) {fresh : Nat}
    (fixes : FixesFrom change prover.nextNumber fresh) (query : Term) (reported : List String)
    (effort calls : Nat) :
    prover.nthNext effort calls fresh
        ⟨reported.map change, .proving [⟨query.rename change, 0⟩] .empty, []⟩ =
      (prover.nthNext effort calls fresh
        ⟨reported, .proving [⟨query, 0⟩] .empty, []⟩).rename change id := by
  have stocks : prover.Stocks ⟨reported, .proving [⟨query, 0⟩] .empty, []⟩ :=
    stocks_of_no_choice
  exact nthNext_rename prover.nextNumber change id effort calls fresh stocks
    fun trials _ => renumbers_of_fixesFrom fixes trials

theorem nthNext_rename_item_iff (change : String ↪ String) {fresh : Nat}
    (fixes : FixesFrom change prover.nextNumber fresh) {query : Term} {reported : List String}
    {calls next : Nat} {item : Item} :
    (∃ effort later, prover.nthNext effort calls fresh
        ⟨reported.map change, .proving [⟨query.rename change, 0⟩] .empty, []⟩ =
          .item item next later) ↔
      ∃ original, item = Item.rename change original ∧
        ∃ effort later, prover.nthNext effort calls fresh
          ⟨reported, .proving [⟨query, 0⟩] .empty, []⟩ = .item original next later := by
  simp only [nthNext_renamed_query change fixes]
  constructor
  · rintro ⟨effort, later, renamed⟩
    obtain ⟨original, after, answered, rfl, _⟩ := Pull.rename_eq_item_iff.mp renamed
    exact ⟨original, rfl, effort, after, answered⟩
  · rintro ⟨original, rfl, effort, after, answered⟩
    exact ⟨effort, _, Pull.rename_eq_item_iff.mpr ⟨original, after, answered, rfl, rfl⟩⟩

theorem nthNext_rename_exhausted_iff (change : String ↪ String) {fresh : Nat}
    (fixes : FixesFrom change prover.nextNumber fresh) {query : Term} {reported : List String}
    {calls next : Nat} :
    (∃ effort later, prover.nthNext effort calls fresh
        ⟨reported.map change, .proving [⟨query.rename change, 0⟩] .empty, []⟩ =
          .exhausted next later) ↔
      ∃ effort later, prover.nthNext effort calls fresh
        ⟨reported, .proving [⟨query, 0⟩] .empty, []⟩ = .exhausted next later := by
  simp only [nthNext_renamed_query change fixes]
  constructor
  · rintro ⟨effort, later, renamed⟩
    obtain ⟨after, answered, _⟩ := Pull.rename_eq_exhausted_iff.mp renamed
    exact ⟨effort, after, answered⟩
  · rintro ⟨effort, after, answered⟩
    exact ⟨effort, _, Pull.rename_eq_exhausted_iff.mpr ⟨after, answered, rfl⟩⟩

end Prover

/-- A name that is made of some name with this number or one that the counter comes to
after it. -/
def UpcomingName (nextNumber : Nat → Nat) (fresh : Nat) (name : String) : Prop :=
  ∃ trials original, name = freshName (nextNumber^[trials] fresh) original

theorem not_upcomingName_of_unmarked {nextNumber : Nat → Nat} {fresh : Nat} {name : String}
    (unmarked : '#' ∉ name.toList) : ¬ UpcomingName nextNumber fresh name := by
  rintro ⟨trials, original, rfl⟩
  exact unmarked (mark_mem_freshName _ original)

/-- A counter that adds one each time does not come back to a number that was used. -/
theorem not_upcomingName_of_used (name : String) {fresh number : Nat}
    (used : number < fresh) : ¬ UpcomingName (· + 1) fresh (freshName number name) := by
  rintro ⟨trials, original, same⟩
  have numbers := (freshName_inj.mp same).2
  have onwards : (· + 1)^[trials] fresh = fresh + trials := Nat.succ_iterate fresh trials
  omega

/-- Answers do not depend on the names of the variables of a query, as long as
these are not names that are still to be made: the search for the query under
other names yields the same items, renamed by a permutation of names that does
not change the names which the search makes.  Which names are still to be made
depends on the counter; one that starts over comes to all of its numbers. -/
theorem KnowledgeBase.renamed_search_yields_renamed_items (kb : KnowledgeBase)
    (config : Config) (nextNumber : Nat → Nat) {query : Term}
    (callable : query.isVar = false) {change : String → String}
    (injective : Set.InjOn change {name | name ∈ query.occurrences})
    (kept : ∀ name ∈ query.occurrences,
      ((change name).toList.head? = some '_' ↔ name.toList.head? = some '_'))
    {fresh : Nat}
    (settled : ∀ name ∈ query.occurrences,
      ¬ UpcomingName nextNumber fresh name ∧
        ¬ UpcomingName nextNumber fresh (change name)) :
    ∃ search renamed,
      Search.start query = .ok search ∧
      Search.start (query.rename change) = .ok renamed ∧
      ∃ permutation : Equiv.Perm String,
        (∀ name ∈ query.occurrences, permutation name = change name) ∧
        FixesFrom permutation nextNumber fresh ∧
        (∀ calls item next,
          (∃ effort later, (kb.prover config nextNumber).nthNext effort calls fresh renamed =
              .item item next later) ↔
            ∃ original, item = Item.rename permutation.toEmbedding original ∧
              ∃ effort later, (kb.prover config nextNumber).nthNext effort calls fresh search =
                .item original next later) ∧
        ∀ calls next,
          (∃ effort later, (kb.prover config nextNumber).nthNext effort calls fresh renamed =
              .exhausted next later) ↔
            ∃ effort later, (kb.prover config nextNumber).nthNext effort calls fresh search =
              .exhausted next later := by
  obtain ⟨permutation, agrees, elsewhere⟩ := exists_permutation_extending injective
  have fixes : FixesFrom permutation nextNumber fresh := by
    intro trials name
    apply elsewhere
    · intro member
      exact (settled _ member).1 ⟨trials, name, rfl⟩
    · intro member
      obtain ⟨original, occurs, made⟩ := List.mem_map.mp member
      exact (settled original occurs).2 ⟨trials, name, made⟩
  have same : query.rename change = query.rename permutation.toEmbedding :=
    Term.rename_congr fun name member => (agrees name member).symm
  have keptAfter : ∀ name ∈ query.occurrences,
      ((permutation.toEmbedding name).toList.head? = some '_' ↔
        name.toList.head? = some '_') := by
    intro name member
    rw [Equiv.coe_toEmbedding, agrees name member]
    exact kept name member
  have started := Search.start_of_callable callable
  have renamedStarted : Search.start (query.rename change) = .ok
      ⟨(Search.reportedVariables query).map permutation.toEmbedding,
        .proving [⟨query.rename permutation.toEmbedding, 0⟩] .empty, []⟩ := by
    rw [same, Search.start_of_callable (by simpa using callable),
      Search.reportedVariables_rename _ keptAfter]
  refine ⟨_, _, started, renamedStarted, permutation, agrees, fixes, ?_, ?_⟩
  · intro calls item next
    exact @Prover.nthNext_rename_item_iff (kb.prover config nextNumber)
      permutation.toEmbedding fresh fixes _ _ calls next item
  · intro calls next
    exact @Prover.nthNext_rename_exhausted_iff (kb.prover config nextNumber)
      permutation.toEmbedding fresh fixes _ _ calls next

/-- After the numbers below 7 have been used, `X#0` is as good a name as any other:
the query `p(f(A), B)` over the clause `p(X, b)` still has an answer when `A` is
renamed to it. -/
theorem KnowledgeBase.answer_after_renaming_to_used_name :
    ∃ renamed,
      Search.start (.app "p" [.app "f" [.var "X#0"], .var "B"]) = .ok renamed ∧
      ∃ effort solution next later,
        ((KnowledgeBase.empty.addAll [⟨.app "p" [.var "X", .atom "b"], []⟩]).1.prover).nthNext
          effort 0 7 renamed = .item (.ok solution) next later := by
  have settled : ∀ name ∈ (Term.app "p" [.app "f" [.var "A"], .var "B"]).occurrences,
      ¬ UpcomingName (· + 1) 7 name ∧
        ¬ UpcomingName (· + 1) 7 (Equiv.swap "A" "X#0" name) := by
    have used : ¬ UpcomingName (· + 1) 7 "X#0" := @not_upcomingName_of_used "X" 7 0 (by decide)
    refine List.forall_mem_cons.mpr ⟨⟨not_upcomingName_of_unmarked (by decide), ?_⟩, ?_⟩
    · rwa [Equiv.swap_apply_left]
    · exact List.forall_mem_singleton.mpr
        ⟨not_upcomingName_of_unmarked (by decide), not_upcomingName_of_unmarked (by decide)⟩
  obtain ⟨search, renamed, started, renamedStarted, permutation, _, _, items, _⟩ :=
    @KnowledgeBase.renamed_search_yields_renamed_items
      (KnowledgeBase.empty.addAll [⟨.app "p" [.var "X", .atom "b"], []⟩]).1 {} (· + 1)
      (.app "p" [.app "f" [.var "A"], .var "B"]) rfl (Equiv.swap "A" "X#0")
      (Equiv.injective _).injOn (by decide) 7 settled
  refine ⟨renamed, renamedStarted, ?_⟩
  have original : ∃ effort solution next later,
      ((KnowledgeBase.empty.addAll [⟨.app "p" [.var "X", .atom "b"], []⟩]).1.prover).nthNext
          effort 0 7 search = .item (.ok solution) next later := by
    obtain rfl := eq_of_start started
    exact ⟨20, _, _, _, rfl⟩
  obtain ⟨effort, solution, next, later, answered⟩ := original
  obtain ⟨largerEffort, last, yielded⟩ := (items 0 _ next).mpr
    ⟨.ok solution, rfl, effort, later, answered⟩
  exact ⟨largerEffort, _, next, last, yielded⟩

/-- Before any number was used, `X#0` is the name that the variable of the clause
`p(X, b)` is about to get: the query `p(f(A), B)` has an answer, and has none any
more when `A` is renamed to it. -/
theorem KnowledgeBase.answer_lost_by_renaming_to_upcoming_name :
    (∀ name, ((Equiv.swap "A" "X#0" name).toList.head? = some '_' ↔
      name.toList.head? = some '_')) ∧
    ∃ search renamed,
      Search.start (.app "p" [.app "f" [.var "A"], .var "B"]) = .ok search ∧
      Search.start ((Term.app "p" [.app "f" [.var "A"], .var "B"]).rename
        (Equiv.swap "A" "X#0")) = .ok renamed ∧
      (∃ effort solution next later,
        ((KnowledgeBase.empty.addAll [⟨.app "p" [.var "X", .atom "b"], []⟩]).1.prover).nthNext
          effort 0 0 search = .item (.ok solution) next later) ∧
      ∃ effort next later,
        ((KnowledgeBase.empty.addAll [⟨.app "p" [.var "X", .atom "b"], []⟩]).1.prover).nthNext
          effort 0 0 renamed = .exhausted next later := by
  constructor
  · intro name
    rw [Equiv.swap_apply_def]
    split_ifs with first second
    · subst first
      decide
    · subst second
      decide
    · rfl
  · exact ⟨_, _, rfl, rfl, ⟨20, _, _, _, rfl⟩, 20, _, _, rfl⟩

end HornLogic
