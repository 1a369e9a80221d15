import HornLogic.KnowledgeBase
import HornLogic.Search.Step
import Mathlib.Data.List.Basic
import Mathlib.Data.List.Induction

/-!
# The index of a knowledge base

However a knowledge base was filled, its index lists for every predicate the
positions of exactly the clauses with that head, in order.  Finding clauses
through the index is therefore the same as looking at all of them.
-/

namespace HornLogic

namespace KnowledgeBase

/-- Knowledge bases that are filled by adding clauses, one at a time or several
up to the first that cannot be added. -/
inductive Built : KnowledgeBase → Prop where
  | empty : Built .empty
  | add {kb extended : KnowledgeBase} {clause : Clause} :
      Built kb → kb.add clause = .ok extended → Built extended
  | addAll {kb : KnowledgeBase} (clauses : List Clause) :
      Built kb → Built (kb.addAll clauses).1

/-- The index lists for every predicate the positions of its clauses in order,
and every clause belongs to a predicate. -/
structure Indexed (kb : KnowledgeBase) : Prop where
  positions_eq : ∀ signature, kb.positions signature =
    (List.range kb.size).filter fun position =>
      kb.clauses[position]?.bind Clause.signature? = some signature
  callable : ∀ clause ∈ kb.clauses, clause.signature?.isSome

theorem indexed_empty : Indexed .empty := by
  constructor
  · intro signature
    rfl
  · intro clause member
    simp [empty] at member

theorem lookup_insertPosition (signature other : Signature) (position : Nat)
    (index : List (Signature × List Nat)) :
    ((insertPosition signature position index).lookup other).getD [] =
      (index.lookup other).getD [] ++ if other = signature then [position] else [] := by
  induction index with
  | nil =>
      by_cases same : other = signature
      · simp [insertPosition, same]
      · have differ : (other == signature) = false := by simpa using same
        simp [insertPosition, List.lookup_cons, same, differ]
  | cons entry index induction =>
      obtain ⟨known, positions⟩ := entry
      by_cases atEntry : other = known
      · subst atEntry
        by_cases same : other = signature
        · simp [insertPosition, same]
        · simp [insertPosition, same]
      · have differ : (other == known) = false := by simpa using atEntry
        by_cases found : known = signature
        · have absent : other ≠ signature := found ▸ atEntry
          simp [insertPosition, List.lookup_cons, found, absent, found ▸ differ]
        · simp [insertPosition, List.lookup_cons, found, differ, induction]

theorem Indexed.add {kb extended : KnowledgeBase} {clause : Clause}
    (indexed : kb.Indexed) (added : kb.add clause = .ok extended) :
    extended.Indexed := by
  unfold KnowledgeBase.add at added
  cases known : clause.signature? with
  | none => simp [known] at added
  | some signature =>
      obtain rfl : _ = extended := by simpa [known] using added
      constructor
      · intro other
        have before := indexed.positions_eq other
        simp only [positions] at before ⊢
        rw [lookup_insertPosition, before]
        -- The old positions look at the old clauses, the last one at the new.
        have old : (List.range kb.size).filter (fun position =>
              (kb.clauses.push clause)[position]?.bind Clause.signature? = some other) =
            (List.range kb.size).filter fun position =>
              kb.clauses[position]?.bind Clause.signature? = some other := by
          apply List.filter_congr
          intro position member
          have small : position < kb.clauses.size := by simpa [size] using member
          simp [Array.getElem?_push, Nat.ne_of_lt small]
        have sizeAfter : (kb.clauses.push clause).size = kb.size + 1 := by
          simp [size]
        simp only [size] at old sizeAfter ⊢
        rw [sizeAfter, List.range_succ, List.filter_append, old]
        congr 1
        by_cases same : other = signature
        · simp [same, known]
        · have differ : signature ≠ other := Ne.symm same
          simp [same, known, differ]
      · intro candidate member
        rcases Array.mem_push.mp member with old | rfl
        · exact indexed.callable candidate old
        · simp [known]

/-- What holds of the empty knowledge base and is kept by adding a clause holds of all that
are filled. -/
theorem Built.preserves (kept : KnowledgeBase → Prop) (start : kept .empty)
    (preserves : ∀ {kb extended : KnowledgeBase} {clause : Clause}, kept kb →
      kb.add clause = .ok extended → kept extended)
    {kb : KnowledgeBase} (built : kb.Built) : kept kb := by
  have addAll : ∀ (clauses : List Clause) {kb : KnowledgeBase}, kept kb →
      kept (kb.addAll clauses).1 := by
    intro clauses
    induction clauses with
    | nil => exact id
    | cons clause clauses induction =>
        intro kb holds
        cases added : kb.add clause with
        | error fault => simpa [KnowledgeBase.addAll, added] using holds
        | ok extended =>
            simpa [KnowledgeBase.addAll, added] using induction (preserves holds added)
  induction built with
  | empty => exact start
  | add _ added induction => exact preserves induction added
  | addAll clauses _ induction => exact addAll clauses induction

theorem Built.indexed {kb : KnowledgeBase} (built : kb.Built) : kb.Indexed :=
  built.preserves Indexed indexed_empty Indexed.add

theorem filterMap_range_getElem? (clauses : List Clause) :
    (List.range clauses.length).filterMap (fun position => clauses[position]?) =
      clauses := by
  induction clauses using List.reverseRecOn with
  | nil => rfl
  | append_singleton clauses last induction =>
      have old : (List.range clauses.length).filterMap
            (fun position => (clauses ++ [last])[position]?) = clauses := by
        conv_rhs => rw [← induction]
        apply List.filterMap_congr
        intro position member
        exact List.getElem?_append_left (List.mem_range.mp member)
      rw [List.length_append, List.length_singleton, List.range_succ,
        List.filterMap_append, old]
      simp

/-- Clauses are found through the index as if all of them were looked at. -/
theorem Indexed.clausesOf_eq {kb : KnowledgeBase} (indexed : kb.Indexed)
    (signature : Signature) :
    kb.clausesOf signature =
      kb.clauses.toList.filter fun clause => clause.signature? = some signature := by
  have all : (List.range kb.size).filterMap (fun position => kb.clauses[position]?) =
      kb.clauses.toList := by
    simpa [size] using filterMap_range_getElem? kb.clauses.toList
  rw [clausesOf, indexed.positions_eq, List.filterMap_filter, ← all,
    List.filter_filterMap]
  apply List.filterMap_congr
  intro position _
  cases found : kb.clauses[position]? with
  | none => simp
  | some clause =>
      by_cases same : clause.signature? = some signature
      · simp [same, Option.filter]
      · simp [same, Option.filter]

end KnowledgeBase

/-- Searches that find the clauses of a predicate by looking at all clauses in
order. -/
def Prover.scanning (clauses : List Clause) (config : Config := {})
    (nextNumber : Nat → Nat := (· + 1)) : Prover where
  candidates signature := clauses.filter fun clause => clause.signature? = some signature
  config
  nextNumber

/-- A search over a knowledge base is one that looks at all its clauses. -/
theorem KnowledgeBase.Built.prover_eq {kb : KnowledgeBase} (built : kb.Built)
    (config : Config) (nextNumber : Nat → Nat) :
    kb.prover config nextNumber = Prover.scanning kb.clauses.toList config nextNumber := by
  have found : kb.clausesOf = fun signature =>
      kb.clauses.toList.filter fun clause => clause.signature? = some signature :=
    funext built.indexed.clausesOf_eq
  simp only [KnowledgeBase.prover, Prover.scanning, found]

end HornLogic
