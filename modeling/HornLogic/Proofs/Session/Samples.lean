import HornLogic.Proofs.KnowledgeBase.Changes
import HornLogic.Session.Basic

/-!
# Loading samples

Nothing can go wrong when a sample is loaded: its text is a program, and no clause of it has a
variable as its head, so all of them are added.
-/

namespace HornLogic

theorem Sample.toList_programText (lines : List String) :
    (programText lines).toList = '\n' :: lines.flatMap fun line => line.toList ++ ['\n'] := by
  rw [programText, String.toList_append]
  induction lines with
  | nil => rfl
  | cons line lines induction => simpa using induction

/-- All of the text is read as clauses, and these can be added. -/
def Source.ReadsAsClauses (text : List Char) : Prop :=
  ∃ clauses rest, readClauses (text.length + 1) (text.length + 1) text = (clauses, rest) ∧
    skipLayout rest = [] ∧ ∀ clause ∈ clauses, clause.nameAnonymous.head.isVar = false

theorem Source.ReadsAsClauses.exists_clauses {text : String}
    (reads : ReadsAsClauses text.toList) :
    ∃ clauses, Clause.parseProgram text = .ok clauses ∧
      ∀ clause ∈ clauses, clause.head.isVar = false := by
  obtain ⟨clauses, rest, read, whole, callable⟩ := reads
  refine ⟨clauses.map Clause.nameAnonymous, ?_, List.forall_mem_map.mpr callable⟩
  simp [Clause.parseProgram, parseAll, read, whole, Except.map]

instance (text : List Char) : Decidable (Source.ReadsAsClauses text) :=
  decidable_of_iff
    (Source.skipLayout (Source.readClauses (text.length + 1) (text.length + 1) text).2 = [] ∧
      ∀ clause ∈ (Source.readClauses (text.length + 1) (text.length + 1) text).1,
        clause.nameAnonymous.head.isVar = false)
    ⟨fun reads => ⟨_, _, rfl, reads⟩, fun ⟨_, _, read, reads⟩ => read ▸ reads⟩

theorem Sample.exists_clauses : ∀ sample ∈ catalog, ∃ clauses,
    Clause.parseProgram sample.source = .ok clauses ∧
      ∀ clause ∈ clauses, clause.head.isVar = false := by
  have reads : ∀ lines, Source.ReadsAsClauses
      ('\n' :: lines.flatMap fun line => line.toList ++ ['\n']) → ∃ clauses,
        Clause.parseProgram (programText lines) = .ok clauses ∧
          ∀ clause ∈ clauses, clause.head.isVar = false := by
    intro lines reads
    rw [← toList_programText] at reads
    exact reads.exists_clauses
  simp only [catalog, List.forall_mem_cons]
  refine ⟨reads _ ?_, reads _ ?_, reads _ ?_, reads _ ?_, nofun⟩
  all_goals decide +kernel

/-- A sample is loaded by adding all clauses of its text. -/
theorem Session.load_sample (session : Session) {name : String} {sample : Sample}
    (found : Sample.find? name = some sample) :
    ∃ clauses kb, Clause.parseProgram sample.source = .ok clauses ∧
      session.kb.addAll clauses = (kb, none) ∧
      kb.clauses.toList = session.kb.clauses.toList ++ clauses ∧
      (session.load name).session = { session with kb } := by
  obtain ⟨clauses, parsed, callable⟩ :=
    Sample.exists_clauses sample (List.mem_of_find?_eq_some found)
  obtain ⟨stored, reported⟩ := session.kb.addAll_spec clauses
  have none : (session.kb.addAll clauses).2 = none := by
    rw [reported, List.find?_eq_none.mpr]
    · rfl
    · simpa using callable
  have all : clauses.takeWhile (fun clause => !clause.head.isVar) = clauses :=
    List.takeWhile_eq_self_iff.mpr (by simpa using callable)
  refine ⟨clauses, (session.kb.addAll clauses).1, parsed, ?_, ?_, ?_⟩
  · rw [← none]
  · rw [stored, all]
  · simp [load, found, parsed, Except.toOption]

end HornLogic
