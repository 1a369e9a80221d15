import HornLogic.Proofs.Search.NamesApart
import HornLogic.Proofs.Search.Renumbering

/-!
# Branches with other numbers

Two searches that have tried clauses in another order come to the same goals under the same
bindings, but the numbers in the fresh names differ.  When they go on with the same clause,
the numbers that they rename it with are put into relation as well.  This leaves the numbers
alone that the branch has used already, so the two go on with the same goals and bindings up
to the numbers.
-/

namespace HornLogic

/-- The numbering that gives one number this value.  The number that had the value before
gets the value that is free now. -/
def renumberAlso (numbering : Nat ↪ Nat) (number value : Nat) : Nat ↪ Nat :=
  numbering.trans (Equiv.swap (numbering number) value).toEmbedding

section

variable (numbering : Nat ↪ Nat) (number value : Nat)

theorem renumberAlso_self : renumberAlso numbering number value number = value :=
  Equiv.swap_apply_left _ _

theorem renumberAlso_of_ne {other : Nat} (differs : other ≠ number)
    (unused : numbering other ≠ value) :
    renumberAlso numbering number value other = numbering other :=
  Equiv.swap_apply_of_ne_of_ne (numbering.injective.ne differs) unused

end

/-- The later numbering gives the same values to the numbers below `fresh`, as far as these
values are below `other`. -/
def KeepsNumbers (fresh other : Nat) (numbering later : Nat ↪ Nat) : Prop :=
  ∀ number, number < fresh → numbering number < other → later number = numbering number

theorem keepsNumbers_renumberAlso (numbering : Nat ↪ Nat) (fresh other : Nat) :
    KeepsNumbers fresh other numbering (renumberAlso numbering fresh other) :=
  fun _ below valueBelow => renumberAlso_of_ne _ _ _ below.ne valueBelow.ne

section

variable {numbering later : Nat ↪ Nat} {fresh other : Nat}
  (keeps : KeepsNumbers fresh other numbering later)
include keeps

/-- A name that both searches know is made with a number that is in use. -/
theorem KnownName.renumberBy_of_keeps {name : String} (known : KnownName fresh name)
    (otherKnown : KnownName other (renumberBy numbering name)) :
    renumberBy later name = renumberBy numbering name := by
  cases known with
  | written written => rw [renumberBy_of_written _ written, renumberBy_of_written _ written]
  | @renamed original number written below =>
      rw [renumberBy_freshName _ written] at otherKnown ⊢
      rw [renumberBy_freshName _ written]
      have valueBelow : numbering number < other := by
        by_contra beyond
        exact written.freshName_unknown _ (otherKnown.mono (Nat.le_of_not_lt beyond))
      rw [keeps number below valueBelow]

theorem Term.NamesKnown.rename_of_keeps {term : Term} (known : term.NamesKnown fresh)
    (otherKnown : (term.rename (renumberBy numbering)).NamesKnown other) :
    term.rename (renumberBy later) = term.rename (renumberBy numbering) := by
  apply rename_congr
  intro name member
  apply (known name member).renumberBy_of_keeps keeps
  exact otherKnown _ (mem_occurrences_rename.mpr ⟨name, member, rfl⟩)

end

theorem Bindings.rename_congr {first second : String ↪ String} {bindings : Bindings}
    (same : bindings.All fun term => term.rename first = term.rename second) :
    bindings.rename first = bindings.rename second := by
  simp only [rename, mk.injEq]
  apply List.map_congr_left
  intro entry member
  obtain ⟨name, value⟩ := entry
  obtain ⟨sameName, sameValue⟩ := same name value (get?_eq_some_iff.mpr member)
  rw [sameValue, (Term.var.inj sameName : first name = second name)]

/-- One search with the next number `fresh` can have a branch with these goals and bindings,
and one with the next number `other` can have it with other numbers in the fresh names. -/
structure RenumberedBranch (numbering : Nat ↪ Nat) (fresh other : Nat) (goals : List Goal)
    (bindings : Bindings) : Prop where
  known : TermBranch (Term.NamesKnown fresh) goals bindings
  otherKnown : TermBranch (Term.NamesKnown other)
    (goals.map (Goal.rename (renumberBy numbering))) (bindings.rename (renumberBy numbering))

namespace RenumberedBranch

variable {numbering : Nat ↪ Nat} {fresh other : Nat} {goals : List Goal} {bindings : Bindings}

theorem mono (branch : RenumberedBranch numbering fresh other goals bindings)
    {later otherLater : Nat} (onwards : fresh ≤ later) (otherOnwards : other ≤ otherLater) :
    RenumberedBranch numbering later otherLater goals bindings where
  known := branch.known.mono fun _ known => known.mono onwards
  otherKnown := branch.otherKnown.mono fun _ known => known.mono otherOnwards

section

variable {later : Nat ↪ Nat} (branch : RenumberedBranch numbering fresh other goals bindings)
  (keeps : KeepsNumbers fresh other numbering later)
include branch keeps

theorem goals_of_keeps :
    goals.map (Goal.rename (renumberBy later)) =
      goals.map (Goal.rename (renumberBy numbering)) := by
  apply List.map_congr_left
  intro goal member
  have same := (branch.known.goals goal member).rename_of_keeps keeps
    (branch.otherKnown.goals _ (List.mem_map_of_mem member))
  simp only [Goal.rename, same]

theorem bindings_of_keeps :
    bindings.rename (renumberBy later) = bindings.rename (renumberBy numbering) := by
  apply Bindings.rename_congr
  intro name value bound
  obtain ⟨nameKnown, valueKnown⟩ := branch.known.values name value bound
  have renamed := bindings.get?_rename (renumberBy numbering) name
  rw [bound, Option.map_some] at renamed
  obtain ⟨otherNameKnown, otherValueKnown⟩ := branch.otherKnown.values _ _ renamed
  exact ⟨nameKnown.rename_of_keeps keeps otherNameKnown,
    valueKnown.rename_of_keeps keeps otherValueKnown⟩

theorem of_keeps : RenumberedBranch later fresh other goals bindings where
  known := branch.known
  otherKnown := by
    rw [branch.goals_of_keeps keeps, branch.bindings_of_keeps keeps]
    exact branch.otherKnown

end

variable {goal : Goal} {rest : List Goal}

theorem others (branch : RenumberedBranch numbering fresh other (goal :: rest) bindings) :
    RenumberedBranch numbering fresh other rest bindings where
  known := ⟨(List.forall_mem_cons.mp branch.known.goals).2, branch.known.values⟩
  otherKnown := ⟨(List.forall_mem_cons.mp branch.otherKnown.goals).2, branch.otherKnown.values⟩

variable {clauses : List Clause} (parsed : ∀ clause ∈ clauses, clause.Parsed)
include parsed

theorem walked (branch : RenumberedBranch numbering fresh other (goal :: rest) bindings) :
    RenumberedBranch numbering fresh other
      (⟨bindings.walk goal.term, goal.depth⟩ :: rest) bindings := by
  have law := @namesKnown_branchLaw { candidates := default } (fun _ => rfl) clauses parsed
  refine ⟨law.walked branch.known, ?_⟩
  have walked := law.walked branch.otherKnown
  rwa [Goal.rename, Bindings.walk_rename] at walked

theorem both {left right : Term} {depth : Nat}
    (branch : RenumberedBranch numbering fresh other (⟨.both left right, depth⟩ :: rest)
      bindings) :
    RenumberedBranch numbering fresh other (⟨left, depth⟩ :: ⟨right, depth⟩ :: rest)
      bindings := by
  have law := @namesKnown_branchLaw { candidates := default } (fun _ => rfl) clauses parsed
  refine ⟨law.both branch.known, ?_⟩
  have joined := branch.otherKnown
  rw [List.map_cons, Goal.rename, Term.rename, Term.subst_both] at joined
  exact law.both joined

/-- Both searches try the clause with the same outcome, up to the numbers. -/
theorem tried (branch : RenumberedBranch numbering fresh other (goal :: rest) bindings)
    {clause : Clause} (member : clause ∈ clauses) (occursCheck : Bool) (effort : Nat) :
    unify occursCheck effort (goal.term.rename (renumberBy numbering))
        (clause.freshen other).head (bindings.rename (renumberBy numbering)) =
      (unify occursCheck effort goal.term (clause.freshen fresh).head bindings).rename
        (renumberBy (renumberAlso numbering fresh other)) := by
  have clauseRenamed := (parsed clause member).freshen_renumberBy
    (renumberAlso numbering fresh other) fresh
  rw [renumberAlso_self] at clauseRenamed
  have keeps := keepsNumbers_renumberAlso numbering fresh other
  have goalRenamed := congrArg (List.map Goal.term) (branch.goals_of_keeps keeps)
  rw [List.map_cons, List.map_cons, List.map_cons, List.map_cons] at goalRenamed
  rw [← unify_rename, ← branch.bindings_of_keeps keeps, ← clauseRenamed]
  exact congrArg (unify occursCheck effort · _ _) (List.cons.inj goalRenamed).1.symm

/-- If they go on with the body of the clause, they do so up to the numbers. -/
theorem entered (branch : RenumberedBranch numbering fresh other (goal :: rest) bindings)
    {clause : Clause} (member : clause ∈ clauses) {occursCheck : Bool} {effort : Nat}
    {signature : Signature} (form : goal.term.goalForm = .call signature)
    {extended : Bindings}
    (unifies : unify occursCheck effort goal.term (clause.freshen fresh).head bindings =
      .unified extended) :
    RenumberedBranch (renumberAlso numbering fresh other) (fresh + 1) (other + 1)
        ((clause.freshen fresh).body.map (⟨·, goal.depth + 1⟩) ++ rest) extended ∧
      ((clause.freshen fresh).body.map (Goal.mk · (goal.depth + 1)) ++ rest).map
          (Goal.rename (renumberBy (renumberAlso numbering fresh other))) =
        (clause.freshen other).body.map (Goal.mk · (goal.depth + 1)) ++
          rest.map (Goal.rename (renumberBy numbering)) := by
  have law := @namesKnown_branchLaw { candidates := default, config := { occursCheck } }
    (fun _ => rfl) clauses parsed
  have clauseRenamed := (parsed clause member).freshen_renumberBy
    (renumberAlso numbering fresh other) fresh
  rw [renumberAlso_self] at clauseRenamed
  have goals : ((clause.freshen fresh).body.map (Goal.mk · (goal.depth + 1)) ++ rest).map
        (Goal.rename (renumberBy (renumberAlso numbering fresh other))) =
      (clause.freshen other).body.map (Goal.mk · (goal.depth + 1)) ++
        rest.map (Goal.rename (renumberBy numbering)) := by
    have keeps := keepsNumbers_renumberAlso numbering fresh other
    rw [List.map_append, branch.others.goals_of_keeps keeps, ← clauseRenamed]
    simp only [Clause.rename, List.map_map]
    rfl
  refine ⟨⟨law.entered branch.known form member unifies, ?_⟩, goals⟩
  have otherForm : (goal.rename (renumberBy numbering)).term.goalForm = .call signature := by
    rw [Goal.rename, Term.goalForm_rename, form]
    rfl
  have otherUnifies := branch.tried parsed member occursCheck effort
  rw [unifies] at otherUnifies
  rw [goals]
  have otherEntered := law.entered branch.otherKnown otherForm member otherUnifies
  exact otherEntered

end RenumberedBranch

theorem renumberedBranch_start {query : Term} (parsed : query.Parsed) (fresh other : Nat) :
    RenumberedBranch (.refl Nat) fresh other [⟨query, 0⟩] .empty := by
  have known : ∀ number, query.NamesKnown number :=
    fun _ name member => .written (parsed.names name member)
  refine ⟨termBranch_start (known fresh), ?_⟩
  rw [List.map_singleton, Goal.rename, parsed.rename_renumberBy, Bindings.rename_empty]
  exact termBranch_start (known other)

end HornLogic
