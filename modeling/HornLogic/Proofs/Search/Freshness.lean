import HornLogic.Proofs.Search.Branches
import HornLogic.Proofs.Source.VariableNames
import HornLogic.Proofs.Unification.Solutions

/-!
# Names in a search

A search over clauses with written names knows only written names and names
that were made fresh from them with the numbers used so far.  The names that
the next number makes of written names are therefore unknown to it, so a clause
that is renamed with this number shares no variable with the search.
-/

namespace HornLogic

/-- The names that a search can know when the numbers below `fresh` were used. -/
inductive KnownName (fresh : Nat) : String → Prop where
  | written {name : String} : WrittenName name → KnownName fresh name
  | renamed {name : String} {suffix : Nat} :
      WrittenName name → suffix < fresh → KnownName fresh (freshName suffix name)

theorem KnownName.mono {fresh later : Nat} {name : String} (known : KnownName fresh name)
    (enough : fresh ≤ later) : KnownName later name := by
  cases known with
  | written written => exact .written written
  | renamed written below => exact .renamed written (below.trans_le enough)

/-- The next number makes an unknown name of every written name. -/
theorem WrittenName.freshName_unknown {name : String} (written : WrittenName name)
    (fresh : Nat) : ¬ KnownName fresh (freshName fresh name) := by
  intro known
  generalize made : freshName fresh name = other at known
  cases known with
  | written otherWritten => exact written.not_freshName fresh (made ▸ otherWritten)
  | @renamed original suffix _ below =>
      have same := (freshName_inj.mp made).2
      omega

namespace Term

/-- No test that two terms do not unify occurs in a term. -/
def Untested (term : Term) : Prop :=
  ⟨notUnifiableName, 2⟩ ∉ term.applied

instance (term : Term) : Decidable term.Untested :=
  inferInstanceAs (Decidable (_ ∉ _))

theorem Untested.arg {functor : String} {args : List Term}
    (untested : (app functor args).Untested) {arg : Term} (member : arg ∈ args) :
    arg.Untested := by
  intro occurs
  apply untested
  rw [applied_app]
  exact List.mem_cons_of_mem _ (List.mem_flatMap.mpr ⟨arg, member, occurs⟩)

/-- The term has written names and no tests. -/
structure Plain (term : Term) : Prop where
  written : ∀ name ∈ term.occurrences, WrittenName name
  untested : term.Untested

/-- The term has known names and no tests. -/
structure Known (fresh : Nat) (term : Term) : Prop where
  known : ∀ name ∈ term.occurrences, KnownName fresh name
  untested : term.Untested

theorem Plain.known {term : Term} (plain : term.Plain) (fresh : Nat) :
    term.Known fresh := by
  constructor
  · intro name member
    exact .written (plain.written name member)
  · exact plain.untested

theorem Known.mono {fresh later : Nat} {term : Term} (known : term.Known fresh)
    (enough : fresh ≤ later) : term.Known later := by
  constructor
  · intro name member
    exact (known.known name member).mono enough
  · exact known.untested

theorem Known.later {fresh : Nat} {term : Term} (known : term.Known fresh) :
    term.Known (fresh + 1) :=
  known.mono (Nat.le_succ fresh)

theorem Known.arg {fresh : Nat} {functor : String} {args : List Term}
    (known : (app functor args).Known fresh) {arg : Term} (member : arg ∈ args) :
    arg.Known fresh := by
  constructor
  · intro name occurs
    exact known.known name (occurrences_arg_subset member occurs)
  · exact known.untested.arg member

theorem Plain.renamed {term : Term} (plain : term.Plain) (fresh : Nat) :
    (term.rename (freshName fresh)).Known (fresh + 1) := by
  constructor
  · intro name member
    obtain ⟨other, otherMember, rfl⟩ := mem_occurrences_rename.mp member
    exact .renamed (plain.written other otherMember) (Nat.lt_succ_self fresh)
  · rw [Untested, applied_rename]
    exact plain.untested

end Term

theorem not_notUnifiable_of_known {fresh : Nat} {term left right : Term}
    (known : term.Known fresh) : term.goalForm ≠ .notUnifiable left right := by
  intro form
  apply known.untested
  rw [Term.eq_notUnifiable_of_goalForm form, Term.notUnifiable, Term.applied_app]
  exact List.mem_cons_self

/-- Head and body of the clause are plain. -/
structure Clause.Plain (clause : Clause) : Prop where
  head : clause.head.Plain
  body : ∀ goal ∈ clause.body, goal.Plain

def Clause.Untested (clause : Clause) : Prop :=
  ∀ term ∈ clause.head :: clause.body, term.Untested

instance (clause : Clause) : Decidable clause.Untested :=
  inferInstanceAs (Decidable (∀ term ∈ clause.head :: clause.body, term.Untested))

theorem Clause.Parsed.plain {clause : Clause} (parsed : clause.Parsed)
    (untested : clause.Untested) : clause.Plain := by
  obtain ⟨headNames, bodyNames⟩ := List.forall_mem_cons.mp parsed.names
  obtain ⟨headUntested, bodyUntested⟩ := List.forall_mem_cons.mp untested
  constructor
  · exact ⟨headNames, headUntested⟩
  · intro goal member
    exact ⟨bodyNames goal member, bodyUntested goal member⟩

/-- The goals and the bindings of a branch are known, and the bindings are
acyclic. -/
structure KnownBranch (fresh : Nat) (goals : List Goal) (bindings : Bindings) :
    Prop where
  goals : ∀ goal ∈ goals, goal.term.Known fresh
  values : bindings.All (Term.Known fresh)
  acyclic : bindings.Acyclic

theorem KnownBranch.terms {fresh : Nat} {goals : List Goal} {bindings : Bindings}
    (branch : KnownBranch fresh goals bindings) :
    TermBranch (Term.Known fresh) goals bindings :=
  ⟨branch.goals, branch.values⟩

theorem TermBranch.known {fresh : Nat} {goals : List Goal} {bindings : Bindings}
    (terms : TermBranch (Term.Known fresh) goals bindings) (acyclic : bindings.Acyclic) :
    KnownBranch fresh goals bindings :=
  ⟨terms.goals, terms.values, acyclic⟩

theorem KnownBranch.mono {fresh later : Nat} {goals : List Goal} {bindings : Bindings}
    (branch : KnownBranch fresh goals bindings) (enough : fresh ≤ later) :
    KnownBranch later goals bindings :=
  (branch.terms.mono fun _ known => known.mono enough).known branch.acyclic

theorem known_termLaw {prover : Prover} (counts : prover.Counts) {clauses : List Clause}
    (plain : ∀ clause ∈ clauses, clause.Plain) : TermLaw prover clauses Term.Known where
  later {fresh} _ known := by
    rw [counts fresh]
    exact known.later
  arg known member := known.arg member
  renamed fresh member inClause := by
    have clausePlain := plain _ member
    have allPlain := List.forall_mem_cons.mpr ⟨clausePlain.head, clausePlain.body⟩
    rw [counts fresh]
    exact (allPlain _ inClause).renamed fresh

/-- Searches over plain clauses know all of their terms. -/
theorem knownBranch_branchLaw {prover : Prover} (counts : prover.Counts)
    (checked : prover.config.occursCheck = true) {clauses : List Clause}
    (plain : ∀ clause ∈ clauses, clause.Plain) :
    BranchLaw prover clauses KnownBranch := by
  have terms : BranchLaw prover clauses fun fresh => TermBranch (Term.Known fresh) :=
    (known_termLaw counts plain).branchLaw
  constructor
  · intro fresh goals bindings branch
    exact (terms.later branch.terms).known branch.acyclic
  · intro fresh goal rest bindings branch
    exact (terms.walked branch.terms).known branch.acyclic
  · intro fresh depth left right rest bindings branch
    exact (terms.both branch.terms).known branch.acyclic
  · intro effort fresh depth left right rest bindings branch clashes
    exact (terms.passed branch.terms clashes).known branch.acyclic
  · intro effort fresh goal rest bindings extended signature clause branch form member
      unifies
    apply (terms.entered branch.terms form member unifies).known
    rw [checked] at unifies
    exact (unified_solutions branch.acyclic unifies).1

theorem knownBranch_start {fresh : Nat} {query : Term} (plain : query.Plain) :
    KnownBranch fresh [⟨query, 0⟩] .empty :=
  (termBranch_start (plain.known fresh)).known Bindings.acyclic_empty

open Classical in
/-- Gives to the fresh names of written names the values of the inner
substitution, and to all other names those of the outer one. -/
noncomputable def overlay (fresh : Nat) (inner outer : String → Term)
    (name : String) : Term :=
  if made : ∃ original, WrittenName original ∧ freshName fresh original = name then
    inner made.choose
  else outer name

section

variable {fresh : Nat} (inner outer : String → Term)

theorem overlay_freshName {name : String} (written : WrittenName name) :
    overlay fresh inner outer (freshName fresh name) = inner name := by
  have made : ∃ original, WrittenName original ∧
      freshName fresh original = freshName fresh name :=
    ⟨name, written, rfl⟩
  have same : made.choose = name := (freshName_inj.mp made.choose_spec.2).1
  rw [overlay, dif_pos made, same]

theorem overlay_of_known {name : String} (known : KnownName fresh name) :
    overlay fresh inner outer name = outer name := by
  -- A known name may well be fresh, but not with this number.
  apply dif_neg
  intro ⟨original, written, made⟩
  exact written.freshName_unknown fresh (made ▸ known)

theorem subst_overlay_of_known {term : Term} (known : term.Known fresh) :
    term.subst (overlay fresh inner outer) = term.subst outer := by
  apply Term.subst_congr
  intro name member
  exact overlay_of_known inner outer (known.known name member)

theorem subst_overlay_of_renamed {term : Term} (plain : term.Plain) :
    (term.rename (freshName fresh)).subst (overlay fresh inner outer) =
      term.subst inner := by
  rw [Term.subst_rename]
  apply Term.subst_congr
  intro name member
  exact overlay_freshName inner outer (plain.written name member)

theorem solvedBy_overlay {bindings : Bindings}
    (values : bindings.All (Term.Known fresh)) (solved : bindings.SolvedBy outer) :
    bindings.SolvedBy (overlay fresh inner outer) := by
  intro name value bound
  obtain ⟨nameKnown, valueKnown⟩ := values name value bound
  rw [subst_overlay_of_known inner outer valueKnown, ← solved name value bound]
  exact overlay_of_known inner outer (nameKnown.known name (by simp))

end

end HornLogic
