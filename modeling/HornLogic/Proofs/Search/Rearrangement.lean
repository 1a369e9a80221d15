import HornLogic.Proofs.KnowledgeBase
import HornLogic.Proofs.Search.ExploredAnswers
import HornLogic.Proofs.Search.RenumberedBranches
import Mathlib.Data.List.Flatten
import Mathlib.Data.List.Forall2
import Mathlib.Data.List.Perm.Basic

/-!
# Rearranged clauses

If a tree can be explored to its end, every clause that is tried for a goal is followed to the
end of its branch, and what is found there does not depend on what was found before, apart
from the numbers in fresh names.  So when the clauses are arranged in another way, their
branches are followed just as well, and what is found is arranged in this way too.
-/

namespace HornLogic

/-- A way to arrange the entries of lists, for entries of any type. -/
structure Arrangement (arranged : (α : Type) → List α → List α → Prop) : Prop where
  refl {α : Type} (entries : List α) : arranged α entries entries
  trans {α : Type} {first second third : List α} :
    arranged α first second → arranged α second third → arranged α first third
  append {α : Type} {first second more others : List α} :
    arranged α first second → arranged α more others → arranged α (first ++ more)
      (second ++ others)
  filter {α : Type} (keeps : α → Bool) {first second : List α} :
    arranged α first second → arranged α (first.filter keeps) (second.filter keeps)
  flatten {α : Type} {first second : List (List α)} :
    arranged (List α) first second → arranged α first.flatten second.flatten
  map {α β : Type} (value : α → β) {first second : List α} :
    arranged α first second → arranged β (first.map value) (second.map value)
  /-- Entries are arranged together with what they come from. -/
  of_map {α β : Type} {value : α → β} {first : List α} {second : List β} :
    arranged β (first.map value) second →
      ∃ original, arranged α first original ∧ original.map value = second
  subset {α : Type} {first second : List α} : arranged α first second → second ⊆ first

theorem perm_arrangement : Arrangement fun _ => List.Perm where
  refl := .refl
  trans := .trans
  append := .append
  filter keeps := .filter keeps
  flatten := .flatten
  map value := .map value
  of_map {_ _ value first second} arranged := by
    obtain ⟨original, same, permutes⟩ :=
      (congrFun (congrFun (List.eq_map_comp_perm value) second) first).mpr arranged.symm
    exact ⟨original, permutes.symm, same.symm⟩
  subset arranged := arranged.symm.subset

/-- The second list comes from the first one by arranging it and then going over to related
entries. -/
def ArrangedUpTo (arranged : (α : Type) → List α → List α → Prop) {α : Type}
    (related : α → α → Prop) (first second : List α) : Prop :=
  ∃ middle, arranged α first middle ∧ List.Forall₂ related middle second

namespace Arrangement

variable {arranged : (α : Type) → List α → List α → Prop} (arrangement : Arrangement arranged)
  {α : Type} {related : α → α → Prop}
include arrangement

theorem upTo_of_forall₂ {first second : List α} (pairs : List.Forall₂ related first second) :
    ArrangedUpTo arranged related first second :=
  ⟨first, arrangement.refl first, pairs⟩

theorem flatten_upTo {first second : List (List α)}
    (parts : List.Forall₂ (ArrangedUpTo arranged related) first second) :
    ArrangedUpTo arranged related first.flatten second.flatten := by
  induction parts with
  | nil => exact arrangement.upTo_of_forall₂ .nil
  | cons part _ induction =>
      obtain ⟨middle, arrangedPart, pairs⟩ := part
      obtain ⟨others, arrangedOthers, otherPairs⟩ := induction
      exact ⟨middle ++ others, arrangement.append arrangedPart arrangedOthers,
        List.rel_append pairs otherPairs⟩

theorem arranged_then_upTo {first middle second : List α}
    (before : arranged α first middle) (after : ArrangedUpTo arranged related middle second) :
    ArrangedUpTo arranged related first second := by
  obtain ⟨others, onwards, pairs⟩ := after
  exact ⟨others, arrangement.trans before onwards, pairs⟩

end Arrangement

theorem ArrangedUpTo.map {arranged : (α : Type) → List α → List α → Prop}
    (arrangement : Arrangement arranged) {α β : Type} {related : α → α → Prop}
    {relatedValues : β → β → Prop} {value : α → β}
    (relates : ∀ first second, related first second →
      relatedValues (value first) (value second))
    {first second : List α} (upTo : ArrangedUpTo arranged related first second) :
    ArrangedUpTo arranged relatedValues (first.map value) (second.map value) := by
  obtain ⟨middle, before, pairs⟩ := upTo
  refine ⟨middle.map value, arrangement.map value before, ?_⟩
  rw [List.forall₂_map_left_iff, List.forall₂_map_right_iff]
  exact pairs.imp relates

/-- The second bindings are the first ones with other numbers in the fresh names. -/
def Bindings.Renumbered (first second : Bindings) : Prop :=
  ∃ numbering : Nat ↪ Nat, second = first.rename (renumberBy numbering)

section

variable (change : String ↪ String)

theorem Bindings.goalForm_walk_rename (bindings : Bindings) (term : Term) :
    ((bindings.rename change).walk (term.rename change)).goalForm =
      (bindings.walk term).goalForm.rename change := by
  rw [walk_rename, Term.goalForm_rename]

theorem unify_substitute_rename (occursCheck : Bool) (effort : Nat) (bindings : Bindings)
    (left right : Term) :
    unify occursCheck effort ((left.rename change).substitute (bindings.rename change))
        ((right.rename change).substitute (bindings.rename change)) .empty =
      (unify occursCheck effort (left.substitute bindings) (right.substitute bindings)
        .empty).rename change := by
  rw [← unify_rename, Bindings.substitute_rename, Bindings.substitute_rename,
    Bindings.rename_empty]

end

namespace Prover

/-- The first goal is treated in the same way under other names.  If what follows is found
under these names too, and so is what the clauses for it lead to, then this is so with the
first goal in front. -/
theorem exists_finds_cons_renamed {prover : Prover} {effort fresh depth last : Nat}
    {term : Term} {rest : List Goal} {bindings : Bindings} {proofs : List Bindings}
    (finds : (prover.explore (effort + 1) (⟨term, depth⟩ :: rest) bindings fresh).Finds proofs
      last)
    (other : Prover) (sameConfig : other.config = prover.config) (change : String ↪ String)
    (otherFresh : Nat) (related : List Bindings → Nat → Prop)
    (nothing : proofs = [] → last = fresh → related [] otherFresh)
    (both : ∀ left right, bindings.walk term = .both left right →
      (prover.explore effort (⟨left, depth⟩ :: ⟨right, depth⟩ :: rest) bindings fresh).Finds
        proofs last →
      ∃ found next, (other.explore effort
          ((⟨left, depth⟩ :: ⟨right, depth⟩ :: rest).map (Goal.rename change))
          (bindings.rename change) otherFresh).Finds found next ∧ related found next)
    (passed : (prover.explore effort rest bindings fresh).Finds proofs last →
      ∃ found next, (other.explore effort (rest.map (Goal.rename change))
          (bindings.rename change) otherFresh).Finds found next ∧ related found next)
    (called : ∀ signature, (bindings.walk term).goalForm = .call signature →
      (Exploration.followEach (prover.follow effort (prover.explore effort)
        (bindings.walk term) depth rest bindings) (prover.candidates signature) fresh).Finds
          proofs last →
      ∃ found next, (Exploration.followEach (other.follow effort (other.explore effort)
          ((bindings.walk term).rename change) depth (rest.map (Goal.rename change))
          (bindings.rename change)) (other.candidates signature) otherFresh).Finds found next ∧
        related found next) :
    ∃ found next, (other.explore (effort + 1) ((⟨term, depth⟩ :: rest).map (Goal.rename change))
        (bindings.rename change) otherFresh).Finds found next ∧ related found next := by
  obtain ⟨allowed, first⟩ := finds_cons_iff.mp finds
  rw [← sameConfig] at allowed
  have otherForm := bindings.goalForm_walk_rename change term
  have otherTest := unify_substitute_rename change other.config.occursCheck effort bindings
  cases first with
  | both form finds =>
      obtain ⟨found, next, otherFinds, met⟩ := both _ _ (Term.eq_both_of_goalForm form) finds
      rw [form] at otherForm
      exact ⟨found, next, finds_cons_iff.mpr ⟨allowed, .both otherForm otherFinds⟩, met⟩
  | refuted form unifies finds =>
      obtain ⟨rfl, rfl⟩ := Exploration.finds_failure_iff.mp finds
      rw [form] at otherForm
      rw [← sameConfig] at unifies
      have otherUnifies := (otherTest _ _).trans (congrArg (Attempt.rename _) unifies)
      refine ⟨[], otherFresh, finds_cons_iff.mpr ⟨allowed, ?_⟩, nothing rfl rfl⟩
      exact .refuted otherForm otherUnifies (Exploration.finds_failure otherFresh)
  | passed form clashes finds =>
      obtain ⟨found, next, otherFinds, met⟩ := passed finds
      rw [form] at otherForm
      rw [← sameConfig] at clashes
      have otherClashes := (otherTest _ _).trans (congrArg (Attempt.rename _) clashes)
      refine ⟨found, next, finds_cons_iff.mpr ⟨allowed, ?_⟩, met⟩
      exact .passed otherForm otherClashes otherFinds
  | called form finds =>
      obtain ⟨found, next, otherFinds, met⟩ := called _ form finds
      rw [form] at otherForm
      rw [← Bindings.walk_rename] at otherFinds
      exact ⟨found, next, finds_cons_iff.mpr ⟨allowed, .called otherForm otherFinds⟩, met⟩

/-- A clause is tried with the same outcome under other numbers.  If its body and what follows
the goal can be explored under these, so can the branch of the clause. -/
theorem exists_finds_follow_renumbered {clauses others : List Clause}
    (parsed : ∀ clause ∈ clauses, clause.Parsed) {config : Config} {effort : Nat}
    {numbering : Nat ↪ Nat} {fresh other : Nat} {goal : Goal} {rest : List Goal}
    {bindings : Bindings}
    (branch : RenumberedBranch numbering fresh other (goal :: rest) bindings)
    {signature : Signature} (form : goal.term.goalForm = .call signature) {clause : Clause}
    (member : clause ∈ clauses) {proofs : List Bindings} {last : Nat}
    (finds : ((scanning clauses config).follow effort
      ((scanning clauses config).explore effort) goal.term goal.depth rest bindings clause
      fresh).Finds proofs last)
    (related : List Bindings → Nat → Prop)
    (nothing : proofs = [] → last = fresh + 1 → related [] (other + 1))
    (entered : ∀ {goals extended},
      RenumberedBranch (renumberAlso numbering fresh other) (fresh + 1) (other + 1) goals
        extended →
      ((scanning clauses config).explore effort goals extended (fresh + 1)).Finds proofs last →
      ∃ found next, ((scanning others config).explore effort
          (goals.map (Goal.rename (renumberBy (renumberAlso numbering fresh other))))
          (extended.rename (renumberBy (renumberAlso numbering fresh other)))
          (other + 1)).Finds found next ∧ related found next) :
    ∃ found next, ((scanning others config).follow effort
        ((scanning others config).explore effort) (goal.term.rename (renumberBy numbering))
        goal.depth (rest.map (Goal.rename (renumberBy numbering)))
        (bindings.rename (renumberBy numbering)) clause other).Finds found next ∧
      related found next := by
  have tried := branch.tried parsed member config.occursCheck effort
  rcases finds_follow_iff.mp finds with ⟨clashes, rfl, rfl⟩ | ⟨extended, unifies, finds⟩
  · refine ⟨[], other + 1, finds_follow_iff.mpr (.inl ⟨?_, rfl, rfl⟩), nothing rfl rfl⟩
    exact tried.trans (congrArg (Attempt.rename _) clashes)
  · obtain ⟨branchEntered, goals⟩ := branch.entered parsed member form unifies
    obtain ⟨found, next, otherFinds, met⟩ := entered branchEntered finds
    rw [goals] at otherFinds
    refine ⟨found, next, finds_follow_iff.mpr (.inr ⟨_, ?_, otherFinds⟩), met⟩
    exact tried.trans (congrArg (Attempt.rename _) unifies)

variable {arranged : (α : Type) → List α → List α → Prop} (arrangement : Arrangement arranged)
  {clauses others : List Clause} (same : arranged Clause clauses others)
  (parsed : ∀ clause ∈ clauses, clause.Parsed) {config : Config}

section

/-! What is shown of the goals after the first one is a hypothesis here. -/

variable {effort : Nat}
  (onwards : ∀ {numbering : Nat ↪ Nat} {fresh other : Nat} {goals : List Goal}
    {bindings : Bindings}, RenumberedBranch numbering fresh other goals bindings →
    ∀ {proofs last}, ((scanning clauses config).explore effort goals bindings fresh).Finds
      proofs last →
    ∃ found next, ((scanning others config).explore effort
        (goals.map (Goal.rename (renumberBy numbering)))
        (bindings.rename (renumberBy numbering)) other).Finds found next ∧
      ArrangedUpTo arranged Bindings.Renumbered proofs found)
include arrangement same parsed onwards

theorem finds_call_rearranged {numbering : Nat ↪ Nat} {fresh other : Nat} {goal : Goal}
    {rest : List Goal} {bindings : Bindings}
    (branch : RenumberedBranch numbering fresh other (goal :: rest) bindings)
    {signature : Signature} (form : goal.term.goalForm = .call signature)
    {proofs : List Bindings} {last : Nat}
    (finds : (Exploration.followEach ((scanning clauses config).follow effort
      ((scanning clauses config).explore effort) goal.term goal.depth rest bindings)
      ((scanning clauses config).candidates signature) fresh).Finds proofs last) :
    ∃ found next, (Exploration.followEach ((scanning others config).follow effort
        ((scanning others config).explore effort) (goal.term.rename (renumberBy numbering))
        goal.depth (rest.map (Goal.rename (renumberBy numbering)))
        (bindings.rename (renumberBy numbering)))
        ((scanning others config).candidates signature) other).Finds found next ∧
      ArrangedUpTo arranged Bindings.Renumbered proofs found := by
  obtain ⟨parts, rfl, found⟩ := Exploration.Finds.of_followEach
    (follow_numbersFrom (counts_scanning _ _) effort _ _ _ _) finds
  -- Every clause keeps the part that was found on its branch when it is put elsewhere.
  obtain ⟨sameLength, pairs⟩ := List.forall₂_iff_zip.mp found
  have firsts := List.map_fst_zip sameLength.le
  have seconds := List.map_snd_zip sameLength.ge
  have candidates : arranged Clause ((scanning clauses config).candidates signature)
      ((scanning others config).candidates signature) := arrangement.filter _ same
  rw [← firsts] at candidates
  obtain ⟨entries, arrangedEntries, otherCandidates⟩ := arrangement.of_map candidates
  have each : ∀ entry ∈ entries, ∀ first, other ≤ first → ∃ part next,
      ((scanning others config).follow effort ((scanning others config).explore effort)
        (goal.term.rename (renumberBy numbering)) goal.depth
        (rest.map (Goal.rename (renumberBy numbering)))
        (bindings.rename (renumberBy numbering)) entry.1 first).Finds part next ∧
      ArrangedUpTo arranged Bindings.Renumbered entry.2 part := by
    intro ⟨clause, part⟩ member first beyond
    have inZip := arrangement.subset arrangedEntries member
    obtain ⟨number, next, later, finds⟩ := pairs inZip
    have stored : clause ∈ clauses := (List.mem_filter.mp (List.of_mem_zip inZip).1).1
    refine exists_finds_follow_renumbered parsed (branch.mono later beyond) form stored finds
      (fun found _ => ArrangedUpTo arranged Bindings.Renumbered part found) ?_
      fun entered finds => onwards entered finds
    rintro rfl _
    exact arrangement.upTo_of_forall₂ .nil
  obtain ⟨otherParts, next, otherFinds, related⟩ :=
    Exploration.exists_finds_followEach
      (follow_numbersFrom (counts_scanning _ _) effort _ _ _ _) each
  refine ⟨otherParts.flatten, next, otherCandidates ▸ otherFinds, ?_⟩
  have arrangedParts := arrangement.flatten (arrangement.map Prod.snd arrangedEntries)
  rw [seconds] at arrangedParts
  apply arrangement.arranged_then_upTo arrangedParts
  apply arrangement.flatten_upTo
  rw [List.forall₂_map_left_iff]
  exact related

end

include arrangement same parsed

/-- What is found in a tree is found in another arrangement if the clauses are arranged in
this way. -/
theorem finds_rearranged (effort : Nat) {numbering : Nat ↪ Nat} {fresh other : Nat}
    {goals : List Goal} {bindings : Bindings}
    (branch : RenumberedBranch numbering fresh other goals bindings)
    {proofs : List Bindings} {last : Nat}
    (finds : ((scanning clauses config).explore effort goals bindings fresh).Finds proofs
      last) :
    ∃ found next, ((scanning others config).explore effort
        (goals.map (Goal.rename (renumberBy numbering)))
        (bindings.rename (renumberBy numbering)) other).Finds found next ∧
      ArrangedUpTo arranged Bindings.Renumbered proofs found := by
  induction effort generalizing numbering fresh other goals bindings proofs last with
  | zero => exact absurd finds Exploration.not_finds_interrupted
  | succ effort induction =>
      cases goals with
      | nil =>
          obtain ⟨rfl, _⟩ := finds.unique (Exploration.finds_success bindings fresh)
          refine ⟨_, other, Exploration.finds_success _ other, ?_⟩
          exact arrangement.upTo_of_forall₂ (.cons ⟨numbering, rfl⟩ .nil)
      | cons goal rest =>
          have walked := branch.walked parsed
          obtain ⟨term, depth⟩ := goal
          refine exists_finds_cons_renamed finds (scanning others config) rfl
            (renumberBy numbering) other
            (fun found _ => ArrangedUpTo arranged Bindings.Renumbered proofs found)
            ?_ ?_ ?_ ?_
          · rintro rfl _
            exact arrangement.upTo_of_forall₂ .nil
          · intro left right joined finds
            rw [joined] at walked
            exact induction (walked.both parsed) finds
          · exact induction walked.others
          · intro signature form finds
            exact finds_call_rearranged arrangement same parsed induction walked form finds

end Prover

/-- The second solution is the first one with other numbers in the fresh names. -/
def Solution.Renumbered (first second : Solution) : Prop :=
  ∃ numbering : Nat ↪ Nat, second = first.rename (renumberBy numbering)

/-- If a search over parsed clauses ends without a fault, the search over an arrangement of
them does too, and its solutions are arranged in this way, up to the numbers in fresh
names. -/
theorem KnowledgeBase.Built.finds_rearranged {arranged : (α : Type) → List α → List α → Prop}
    (arrangement : Arrangement arranged) {kb other : KnowledgeBase} (built : kb.Built)
    (otherBuilt : other.Built) (same : arranged Clause kb.clauses.toList other.clauses.toList)
    (parsed : ∀ clause ∈ kb.clauses, clause.Parsed) {config : Config} {query : Term}
    (queryParsed : query.Parsed) {search : Search} (started : Search.start query = .ok search)
    {fresh otherFresh : Nat} {solutions : List Solution}
    (finds : (kb.prover config).Finds fresh search solutions) :
    ∃ others, (other.prover config).Finds otherFresh search others ∧
      ArrangedUpTo arranged Solution.Renumbered solutions others := by
  have renumbers : ∀ first second, Bindings.Renumbered first second →
      Solution.Renumbered (Search.solutionUnder (Search.reportedVariables query) first)
        (Search.solutionUnder (Search.reportedVariables query) second) := by
    intro first second ⟨numbering, same⟩
    exact ⟨numbering, same ▸ Search.solutionUnder_renumberBy queryParsed numbering first⟩
  rw [built.prover_eq, eq_of_start started] at finds
  rw [otherBuilt.prover_eq, eq_of_start started]
  obtain ⟨effort, proofs, last, explored, rfl⟩ := Prover.finds_iff_explored.mp finds
  have start := renumberedBranch_start queryParsed fresh otherFresh
  obtain ⟨found, next, otherExplored, upTo⟩ :=
    Prover.finds_rearranged arrangement same (by simpa using parsed) effort start explored
  rw [List.map_singleton, Goal.rename, queryParsed.rename_renumberBy,
    Bindings.rename_empty] at otherExplored
  refine ⟨found.map (Search.solutionUnder (Search.reportedVariables query)), ?_, ?_⟩
  · exact Prover.finds_iff_explored.mpr ⟨effort, found, next, otherExplored, rfl⟩
  · exact upTo.map arrangement renumbers

end HornLogic
