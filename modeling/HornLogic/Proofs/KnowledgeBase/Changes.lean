import HornLogic.Proofs.FirstOccurrences
import HornLogic.Proofs.KnowledgeBase
import Mathlib.Data.List.DropRight

/-!
# Changes of a knowledge base

A knowledge base is changed by adding one clause or several and by removing all of them.
A clause whose head is a variable cannot be added; it is reported, and of several
clauses those before it stay.  However changes follow one another, clauses and index
remain in step.
-/

namespace HornLogic

namespace KnowledgeBase

/-- What can be done to a knowledge base. -/
inductive Change where
  | add (clause : Clause)
  | addAll (clauses : List Clause)
  | clear

namespace Change

def clears : Change → Bool
  | .clear => true
  | _ => false

def offered : Change → List Clause
  | .add clause => [clause]
  | .addAll clauses => clauses
  | .clear => []

/-- The clauses that are added: those before the first one whose head is a variable. -/
def accepted (change : Change) : List Clause :=
  change.offered.takeWhile fun clause => !clause.head.isVar

/-- The first clause whose head is a variable. -/
def refused? (change : Change) : Option Clause :=
  change.offered.find? fun clause => clause.head.isVar

end Change

/-- Makes a change.  Gives the knowledge base after it, and the fault that is reported. -/
def change (kb : KnowledgeBase) : Change → KnowledgeBase × Option Fault
  | .add clause =>
      match kb.add clause with
      | .ok extended => (extended, none)
      | .error fault => (kb, some fault)
  | .addAll clauses => kb.addAll clauses
  | .clear => (.empty, none)

def afterChanges (changes : List Change) : KnowledgeBase :=
  changes.foldl (fun kb change => (kb.change change).1) .empty

/-- The last changes, up to the last time that all clauses were removed. -/
def sinceClear (changes : List Change) : List Change :=
  changes.rtakeWhile fun change => !change.clears

theorem signature?_eq_none_iff {clause : Clause} :
    clause.signature? = none ↔ clause.head.isVar = true := by
  obtain ⟨head, body⟩ := clause
  cases head <;> simp [Clause.signature?, Term.signature?, Term.isVar]

theorem add_of_variable {clause : Clause} (variableHead : clause.head.isVar = true)
    (kb : KnowledgeBase) : kb.add clause = .error (.notCallable clause.head) := by
  simp [add, signature?_eq_none_iff.mpr variableHead]

theorem add_of_callable {clause : Clause} (callable : clause.head.isVar = false)
    (kb : KnowledgeBase) :
    ∃ signature, clause.signature? = some signature ∧
      kb.add clause = .ok
        ⟨kb.clauses.push clause, insertPosition signature kb.size kb.index⟩ := by
  cases named : clause.signature? with
  | none => simp [signature?_eq_none_iff.mp named] at callable
  | some signature => exact ⟨signature, rfl, by simp [add, named]⟩

theorem change_add (kb : KnowledgeBase) (clause : Clause) :
    kb.change (.add clause) = kb.change (.addAll [clause]) := by
  cases added : kb.add clause <;> simp [change, addAll, added]

/-- The clauses before the first one that cannot be added are added, and that one is
reported. -/
theorem addAll_spec (kb : KnowledgeBase) (clauses : List Clause) :
    (kb.addAll clauses).1.clauses.toList =
        kb.clauses.toList ++ clauses.takeWhile (fun clause => !clause.head.isVar) ∧
      (kb.addAll clauses).2 =
        (clauses.find? fun clause => clause.head.isVar).map fun clause =>
          .notCallable clause.head := by
  induction clauses generalizing kb with
  | nil => simp [addAll]
  | cons clause clauses induction =>
      cases variableHead : clause.head.isVar with
      | true => simp [addAll, add_of_variable variableHead, variableHead]
      | false =>
          obtain ⟨signature, _, added⟩ := add_of_callable variableHead kb
          obtain ⟨stored, reported⟩ :=
            induction ⟨kb.clauses.push clause, insertPosition signature kb.size kb.index⟩
          simp [addAll, added, variableHead, stored, reported]

theorem addAll_takeWhile (kb : KnowledgeBase) (clauses : List Clause) :
    (kb.addAll (clauses.takeWhile fun clause => !clause.head.isVar)).1 =
      (kb.addAll clauses).1 := by
  induction clauses generalizing kb with
  | nil => rfl
  | cons clause clauses induction =>
      cases variableHead : clause.head.isVar with
      | true => simp [addAll, add_of_variable variableHead, variableHead]
      | false =>
          obtain ⟨signature, _, added⟩ := add_of_callable variableHead kb
          simp [addAll, added, variableHead, induction]

theorem change_reports (kb : KnowledgeBase) (change : Change) :
    (kb.change change).2 =
      change.refused?.map fun clause => Fault.notCallable clause.head := by
  cases change with
  | add clause =>
      rw [change_add]
      exact (kb.addAll_spec [clause]).2
  | addAll clauses => exact (kb.addAll_spec clauses).2
  | clear => rfl

/-- Unless a change removes all clauses, it puts those that it accepts behind them. -/
theorem clauses_change (kb : KnowledgeBase) {change : Change}
    (keeps : change.clears = false) :
    (kb.change change).1.clauses.toList = kb.clauses.toList ++ change.accepted := by
  cases change with
  | add clause =>
      rw [change_add]
      exact (kb.addAll_spec [clause]).1
  | addAll clauses => exact (kb.addAll_spec clauses).1
  | clear => cases keeps

theorem Built.change {kb : KnowledgeBase} (built : kb.Built) (change : Change) :
    (kb.change change).1.Built := by
  cases change with
  | add clause =>
      rw [change_add]
      exact built.addAll [clause]
  | addAll clauses => exact built.addAll clauses
  | clear => exact .empty

theorem map_fst_insertPosition (signature : Signature) (position : Nat)
    (index : List (Signature × List Nat)) :
    (insertPosition signature position index).map Prod.fst =
      if signature ∈ index.map Prod.fst then index.map Prod.fst
      else index.map Prod.fst ++ [signature] := by
  induction index with
  | nil => rfl
  | cons entry index induction =>
      obtain ⟨known, positions⟩ := entry
      by_cases found : known = signature
      · simp [insertPosition, found]
      · have differs : signature ≠ known := Ne.symm found
        simp only [insertPosition, if_neg found, List.map_cons, induction, List.mem_cons,
          differs, false_or]
        split <;> rfl

theorem signatures_add {kb extended : KnowledgeBase} {clause : Clause}
    (listed : kb.signatures = (kb.clauses.toList.filterMap Clause.signature?).eraseDups)
    (added : kb.add clause = .ok extended) :
    extended.signatures =
      (extended.clauses.toList.filterMap Clause.signature?).eraseDups := by
  cases variableHead : clause.head.isVar with
  | true => simp [add_of_variable variableHead] at added
  | false =>
      obtain ⟨signature, named, result⟩ := add_of_callable variableHead kb
      obtain rfl := Except.ok.inj (result.symm.trans added)
      have known : signature ∈ kb.signatures ↔
          signature ∈ kb.clauses.toList.filterMap Clause.signature? := by
        rw [listed, List.mem_eraseDups]
      have clausesAfter : (kb.clauses.push clause).toList.filterMap Clause.signature? =
          kb.clauses.toList.filterMap Clause.signature? ++ [signature] := by
        simp [named]
      rw [clausesAfter, eraseDups_concat, ← if_congr known rfl rfl, ← listed]
      exact map_fst_insertPosition signature kb.size kb.index

theorem Built.signatures_eq {kb : KnowledgeBase} (built : kb.Built) :
    kb.signatures = (kb.clauses.toList.filterMap Clause.signature?).eraseDups := by
  apply built.preserves fun kb =>
    kb.signatures = (kb.clauses.toList.filterMap Clause.signature?).eraseDups
  · rfl
  · exact signatures_add

theorem Indexed.mem_positions_iff {kb : KnowledgeBase} (indexed : kb.Indexed)
    {signature : Signature} {position : Nat} :
    position ∈ kb.positions signature ↔
      ∃ clause, kb.clauses[position]? = some clause ∧
        clause.signature? = some signature := by
  rw [indexed.positions_eq, List.mem_filter, List.mem_range, decide_eq_true_iff,
    Option.bind_eq_some_iff, and_iff_right_iff_imp]
  rintro ⟨clause, found, _⟩
  exact (Array.getElem?_eq_some_iff.mp found).1

theorem Indexed.positions_increase {kb : KnowledgeBase} (indexed : kb.Indexed)
    (signature : Signature) : (kb.positions signature).Pairwise (· < ·) := by
  rw [indexed.positions_eq]
  exact List.pairwise_lt_range.filter _

theorem Indexed.matching_eq {kb : KnowledgeBase} (indexed : kb.Indexed) {goal : Term}
    (callable : goal.isVar = false) :
    kb.matching goal =
      .ok (kb.clauses.toList.filter fun clause => clause.signature? = goal.signature?) := by
  cases goal with
  | var name => cases callable
  | atom name => exact congrArg Except.ok (indexed.clausesOf_eq _)
  | app functor args => exact congrArg Except.ok (indexed.clausesOf_eq _)

theorem afterChanges_concat (changes : List Change) (change : Change) :
    afterChanges (changes ++ [change]) = ((afterChanges changes).change change).1 := by
  simp [afterChanges]

theorem built_afterChanges (changes : List Change) : (afterChanges changes).Built := by
  induction changes using List.reverseRecOn with
  | nil => exact .empty
  | append_singleton changes change induction =>
      rw [afterChanges_concat]
      exact induction.change change

theorem clauses_afterChanges (changes : List Change) :
    (afterChanges changes).clauses.toList =
      (sinceClear changes).flatMap Change.accepted := by
  induction changes using List.reverseRecOn with
  | nil => rfl
  | append_singleton changes change induction =>
      rw [afterChanges_concat, sinceClear, List.rtakeWhile_concat]
      cases clears : change.clears with
      | false =>
          rw [clauses_change _ clears, induction]
          simp [sinceClear]
      | true =>
          cases change with
          | clear => rfl
          | _ => cases clears

/-- The clauses are those that were accepted since all clauses were removed for the last
time, the index says where they are, and changes that fail do so without a trace. -/
structure InStep (changes : List Change) (kb : KnowledgeBase) : Prop where
  clauses_eq : kb.clauses.toList = (sinceClear changes).flatMap Change.accepted
  positions_increase : ∀ signature, (kb.positions signature).Pairwise (· < ·)
  positions_below : ∀ signature, ∀ position ∈ kb.positions signature, position < kb.size
  mem_positions_iff : ∀ signature position, position ∈ kb.positions signature ↔
    ∃ clause, kb.clauses[position]? = some clause ∧ clause.signature? = some signature
  signatures_nodup : kb.signatures.Nodup
  /-- The predicates come in the order in which they were first defined. -/
  signatures_eq :
    kb.signatures = (kb.clauses.toList.filterMap Clause.signature?).eraseDups
  matching_eq : ∀ goal, goal.isVar = false → kb.matching goal =
    .ok (kb.clauses.toList.filter fun clause => clause.signature? = goal.signature?)
  /-- A change fails just if one of its clauses has a variable as its head, and reports
  the first such head. -/
  reports : ∀ change, (kb.change change).2 =
    change.refused?.map fun clause => Fault.notCallable clause.head
  failing_add : ∀ clause fault, (kb.change (.add clause)).2 = some fault →
    (kb.change (.add clause)).1 = kb
  /-- The knowledge base is the one that the clauses before the first variable head lead
  to. -/
  failing_addAll : ∀ clauses fault, (kb.change (.addAll clauses)).2 = some fault →
    (kb.change (.addAll clauses)).1.clauses.toList =
        kb.clauses.toList ++ clauses.takeWhile (fun clause => !clause.head.isVar) ∧
      (kb.change (.addAll clauses)).1 =
        (kb.change (.addAll (clauses.takeWhile fun clause => !clause.head.isVar))).1

/-- After any changes, also such that fail, the knowledge base is in step with them. -/
theorem afterChanges_inStep (changes : List Change) :
    InStep changes (afterChanges changes) := by
  have built := built_afterChanges changes
  have members : ∀ signature position, position ∈ (afterChanges changes).positions signature ↔
      ∃ clause, (afterChanges changes).clauses[position]? = some clause ∧
        clause.signature? = some signature :=
    fun _ _ => built.indexed.mem_positions_iff
  constructor
  · exact clauses_afterChanges changes
  · exact built.indexed.positions_increase
  · intro signature position member
    obtain ⟨clause, found, _⟩ := (members signature position).mp member
    exact (Array.getElem?_eq_some_iff.mp found).1
  · exact members
  · rw [built.signatures_eq]
    exact nodup_eraseDups _
  · exact built.signatures_eq
  · exact fun goal callable => built.indexed.matching_eq callable
  · exact change_reports _
  · intro clause fault failed
    rw [change_reports] at failed
    cases variableHead : clause.head.isVar with
    | false => simp [Change.refused?, Change.offered, variableHead] at failed
    | true => simp [change, add_of_variable variableHead]
  · intro clauses fault _
    exact ⟨(addAll_spec _ clauses).1, (addAll_takeWhile _ clauses).symm⟩

end KnowledgeBase

end HornLogic
