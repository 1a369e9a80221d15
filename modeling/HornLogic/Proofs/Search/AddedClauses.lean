import HornLogic.Proofs.Search.Rearrangement

/-!
# Added clauses

If the tree over some clauses can be explored to its end, so can the tree over some of these
clauses in the same order: it is the first tree without the branches of the clauses that are
left out.  So clauses that are added anywhere neither remove nor reorder solutions.  One change
of the numbers in fresh names is enough for all solutions, since every trial over the fewer
clauses is one of the trials over all of them.
-/

namespace HornLogic

namespace KeepsNumbers

variable {fresh other middle between : Nat} {numbering later latest : Nat ↪ Nat}

theorem refl (fresh other : Nat) (numbering : Nat ↪ Nat) :
    KeepsNumbers fresh other numbering numbering :=
  fun _ _ _ => rfl

theorem trans (first : KeepsNumbers fresh other numbering later)
    (second : KeepsNumbers middle between later latest) (onwards : fresh ≤ middle)
    (otherOnwards : other ≤ between) : KeepsNumbers fresh other numbering latest := by
  intro number below valueBelow
  have same := first number below valueBelow
  rw [← same]
  exact second number (below.trans_le onwards) (same ▸ valueBelow.trans_le otherOnwards)

end KeepsNumbers

/-- Some of the proofs that one search finds, in their order, are what another search finds
when the numbers are changed.  The two have used the numbers up to `fresh` and `other` before,
and up to `last` and `next` then; the numbers that were in use before keep their values. -/
structure KeptProofs (numbering later : Nat ↪ Nat) (fresh other last next : Nat)
    (proofs kept : List Bindings) : Prop where
  keeps : KeepsNumbers fresh other numbering later
  onwards : fresh ≤ last
  otherOnwards : other ≤ next
  sublist : kept.Sublist proofs
  branches : ∀ bindings ∈ kept, RenumberedBranch later last next [] bindings

namespace KeptProofs

variable {numbering later latest : Nat ↪ Nat} {fresh other middle between last next : Nat}
  {proofs more kept others : List Bindings}

theorem nothing (numbering : Nat ↪ Nat) (other : Nat) (onwards : fresh ≤ last)
    (proofs : List Bindings) : KeptProofs numbering numbering fresh other last other proofs [] where
  keeps := .refl _ _ _
  onwards := onwards
  otherOnwards := Nat.le_refl other
  sublist := List.nil_sublist proofs
  branches _ member := absurd member List.not_mem_nil

theorem of_trial (keeps : KeepsNumbers fresh other numbering later)
    (keptProofs : KeptProofs later latest (fresh + 1) (other + 1) last next proofs kept) :
    KeptProofs numbering latest fresh other last next proofs kept where
  keeps := keeps.trans keptProofs.keeps (Nat.le_succ fresh) (Nat.le_succ other)
  onwards := (Nat.le_succ fresh).trans keptProofs.onwards
  otherOnwards := (Nat.le_succ other).trans keptProofs.otherOnwards
  sublist := keptProofs.sublist
  branches := keptProofs.branches

theorem after_others (keptProofs : KeptProofs numbering later middle other last next proofs kept)
    (onwards : fresh ≤ middle) (before : List Bindings) :
    KeptProofs numbering later fresh other last next (before ++ proofs) kept where
  keeps := (KeepsNumbers.refl fresh other numbering).trans keptProofs.keeps onwards
    (Nat.le_refl other)
  onwards := onwards.trans keptProofs.onwards
  otherOnwards := keptProofs.otherOnwards
  sublist := keptProofs.sublist.trans (List.sublist_append_right before proofs)
  branches := keptProofs.branches

theorem map_rename_of_keeps
    (keptProofs : KeptProofs numbering later fresh other last next proofs kept)
    (keeps : KeepsNumbers last next later latest) :
    kept.map (Bindings.rename (renumberBy latest)) =
      kept.map (Bindings.rename (renumberBy later)) :=
  List.map_congr_left fun bindings member =>
    (keptProofs.branches bindings member).bindings_of_keeps keeps

theorem append (first : KeptProofs numbering later fresh other middle between proofs kept)
    (second : KeptProofs later latest middle between last next more others) :
    KeptProofs numbering latest fresh other last next (proofs ++ more) (kept ++ others) where
  keeps := first.keeps.trans second.keeps first.onwards first.otherOnwards
  onwards := first.onwards.trans second.onwards
  otherOnwards := first.otherOnwards.trans second.otherOnwards
  sublist := first.sublist.append second.sublist
  branches := by
    refine List.forall_mem_append.mpr ⟨fun bindings member => ?_, second.branches⟩
    exact ((first.branches bindings member).of_keeps second.keeps).mono second.onwards
      second.otherOnwards

end KeptProofs

/-- An exploration finds the kept ones of these proofs, under other numbers. -/
def Exploration.FindsKept (exploration : Exploration) (numbering : Nat ↪ Nat)
    (fresh other last : Nat) (proofs : List Bindings) : Prop :=
  ∃ found next, exploration.Finds found next ∧ ∃ later kept,
    found = kept.map (Bindings.rename (renumberBy later)) ∧
      KeptProofs numbering later fresh other last next proofs kept

namespace Prover

variable {clauses fewer : List Clause} (parsed : ∀ clause ∈ clauses, clause.Parsed)
  {config : Config}

section

/-! What is found for the goals after the first one is a hypothesis here. -/

variable {effort : Nat}
  (continues : ∀ {numbering : Nat ↪ Nat} {fresh other : Nat} {goals : List Goal}
    {bindings : Bindings}, RenumberedBranch numbering fresh other goals bindings →
    ∀ {proofs last}, ((scanning clauses config).explore effort goals bindings fresh).Finds
      proofs last →
    ((scanning fewer config).explore effort (goals.map (Goal.rename (renumberBy numbering)))
      (bindings.rename (renumberBy numbering)) other).FindsKept numbering fresh other last
        proofs)
include parsed continues

theorem findsKept_follow {numbering : Nat ↪ Nat} {fresh other : Nat} {goal : Goal}
    {rest : List Goal} {bindings : Bindings}
    (branch : RenumberedBranch numbering fresh other (goal :: rest) bindings)
    {signature : Signature} (form : goal.term.goalForm = .call signature) {clause : Clause}
    (member : clause ∈ clauses) {proofs : List Bindings} {last : Nat}
    (finds : ((scanning clauses config).follow effort
      ((scanning clauses config).explore effort) goal.term goal.depth rest bindings clause
      fresh).Finds proofs last) :
    ((scanning fewer config).follow effort ((scanning fewer config).explore effort)
      (goal.term.rename (renumberBy numbering)) goal.depth
      (rest.map (Goal.rename (renumberBy numbering)))
      (bindings.rename (renumberBy numbering)) clause other).FindsKept numbering fresh other
        last proofs := by
  refine exists_finds_follow_renumbered parsed branch form member finds _ ?_ ?_
  · rintro rfl rfl
    have nothing := KeptProofs.nothing numbering (other + 1) (Nat.le_refl (fresh + 1)) []
    exact ⟨numbering, [], rfl, nothing.of_trial (.refl _ _ _)⟩
  · intro goals extended entered finds
    obtain ⟨found, next, otherFinds, later, kept, same, keptProofs⟩ := continues entered finds
    exact ⟨found, next, otherFinds, later, kept, same,
      keptProofs.of_trial (keepsNumbers_renumberAlso numbering fresh other)⟩

/-- The branches of the clauses that are not left out, by induction on which ones these are. -/
theorem findsKept_followEach {goal : Goal} {rest : List Goal} {bindings : Bindings}
    {signature : Signature} (form : goal.term.goalForm = .call signature)
    {candidates left : List Clause} (sublist : left.Sublist candidates)
    (stored : ∀ clause ∈ candidates, clause ∈ clauses)
    {numbering : Nat ↪ Nat} {fresh other : Nat}
    (branch : RenumberedBranch numbering fresh other (goal :: rest) bindings)
    {proofs : List Bindings} {last : Nat}
    (finds : (Exploration.followEach ((scanning clauses config).follow effort
      ((scanning clauses config).explore effort) goal.term goal.depth rest bindings)
      candidates fresh).Finds proofs last) :
    (Exploration.followEach ((scanning fewer config).follow effort
      ((scanning fewer config).explore effort) (goal.term.rename (renumberBy numbering))
      goal.depth (rest.map (Goal.rename (renumberBy numbering)))
      (bindings.rename (renumberBy numbering))) left other).FindsKept numbering fresh other
        last proofs := by
  induction sublist generalizing numbering fresh other proofs with
  | slnil =>
      obtain ⟨rfl, rfl⟩ := Exploration.finds_failure_iff.mp finds
      exact ⟨[], other, Exploration.finds_failure other, numbering, [], rfl,
        .nothing numbering other (Nat.le_refl last) []⟩
  | cons clause _ induction =>
      obtain ⟨_, storedOthers⟩ := List.forall_mem_cons.mp stored
      obtain ⟨before, middle, after, first, others, rfl⟩ := finds.of_andThen
      have onwards : fresh ≤ middle :=
        follow_numbersFrom (counts_scanning _ _) effort _ _ _ _ _ _ _ first.ending
      obtain ⟨found, next, otherFinds, later, kept, same, keptProofs⟩ :=
        induction storedOthers (branch.mono onwards (Nat.le_refl other)) others
      exact ⟨found, next, otherFinds, later, kept, same,
        keptProofs.after_others onwards before⟩
  | cons_cons clause _ induction =>
      obtain ⟨storedFirst, storedOthers⟩ := List.forall_mem_cons.mp stored
      obtain ⟨before, middle, after, first, others, rfl⟩ := finds.of_andThen
      obtain ⟨_, between, firstFinds, later, kept, rfl, firstKept⟩ :=
        findsKept_follow parsed continues branch form storedFirst first
      -- The branch is the same under the numbering that the first clause led to.
      have again := (branch.of_keeps firstKept.keeps).mono firstKept.onwards
        firstKept.otherOnwards
      obtain ⟨sameGoal, sameRest⟩ := List.cons.inj (branch.goals_of_keeps firstKept.keeps)
      have sameTerm := congrArg Goal.term sameGoal
      simp only [Goal.rename] at sameTerm
      obtain ⟨_, next, othersFind, latest, othersKept, rfl, keptProofs⟩ :=
        induction storedOthers again others
      rw [sameTerm, sameRest, branch.bindings_of_keeps firstKept.keeps] at othersFind
      refine ⟨_, next, firstFinds.andThen othersFind, latest, kept ++ othersKept, ?_,
        firstKept.append keptProofs⟩
      rw [List.map_append, firstKept.map_rename_of_keeps keptProofs.keeps]

end

include parsed

/-- What is found in a tree over fewer clauses is what is kept of the tree over all of them. -/
theorem findsKept_explore (left : fewer.Sublist clauses) (effort : Nat) {numbering : Nat ↪ Nat}
    {fresh other : Nat} {goals : List Goal} {bindings : Bindings}
    (branch : RenumberedBranch numbering fresh other goals bindings)
    {proofs : List Bindings} {last : Nat}
    (finds : ((scanning clauses config).explore effort goals bindings fresh).Finds proofs
      last) :
    ((scanning fewer config).explore effort (goals.map (Goal.rename (renumberBy numbering)))
      (bindings.rename (renumberBy numbering)) other).FindsKept numbering fresh other last
        proofs := by
  induction effort generalizing numbering fresh other goals bindings proofs last with
  | zero => exact absurd finds Exploration.not_finds_interrupted
  | succ effort induction =>
      cases goals with
      | nil =>
          obtain ⟨rfl, rfl⟩ := finds.unique (Exploration.finds_success bindings fresh)
          refine ⟨_, other, Exploration.finds_success _ other, numbering, [bindings], rfl, ?_⟩
          exact
            { keeps := .refl _ _ _
              onwards := Nat.le_refl _
              otherOnwards := Nat.le_refl _
              sublist := List.Sublist.refl _
              branches := List.forall_mem_singleton.mpr branch }
      | cons goal rest =>
          have walked := branch.walked parsed
          obtain ⟨term, depth⟩ := goal
          refine exists_finds_cons_renamed finds (scanning fewer config) rfl
            (renumberBy numbering) other _ ?_ ?_ ?_ ?_
          · rintro rfl rfl
            exact ⟨numbering, [], rfl, .nothing numbering other (Nat.le_refl last) []⟩
          · intro first second joined finds
            rw [joined] at walked
            exact induction (walked.both parsed) finds
          · exact induction walked.others
          · intro signature form finds
            exact findsKept_followEach parsed induction form (left.filter _)
              (fun clause member => (List.mem_filter.mp member).1) walked finds

end Prover

end HornLogic
