import Mathlib.Data.Nat.ModEq
import HornLogic.Proofs.Search.Renumbering
import HornLogic.Proofs.Search.Soundness

/-!
# Counters that start over

The numbers that a counter gives one after the other may replace consecutive ones, as long as
none of them comes twice.  A search then gives the same answers on this counter, up to the
numbers.  A counter of 64 bits gives 2^64 numbers before one of them comes again.
-/

namespace HornLogic

theorem wrappingNext_iterate {start : Nat} (inRange : start < UInt64.size) (trials : Nat) :
    wrappingNext^[trials] start = (start + trials) % UInt64.size := by
  induction trials with
  | zero => exact (Nat.mod_eq_of_lt inRange).symm
  | succ trials induction =>
      rw [Function.iterate_succ_apply', induction, wrappingNext, Nat.mod_add_mod, Nat.add_assoc]

theorem wrappingNext_injOn {start count : Nat} (inRange : start < UInt64.size)
    (few : count ≤ UInt64.size) :
    Set.InjOn (fun trials => wrappingNext^[trials] start) (Set.Iio count) := by
  intro trials before others othersBefore same
  simp only [wrappingNext_iterate inRange] at same
  have congruent : Nat.ModEq UInt64.size trials others :=
    Nat.ModEq.add_left_cancel' start same
  exact congruent.eq_of_lt_of_lt (before.trans_le few) (othersBefore.trans_le few)

namespace KnowledgeBase

variable {kb : KnowledgeBase} (parsed : ∀ clause ∈ kb.clauses, clause.Parsed) (config : Config)
include parsed

theorem exists_renumbering (fresh : Nat) {nextNumber : Nat → Nat} {start count : Nat}
    (different : Set.InjOn (fun trials => nextNumber^[trials] start) (Set.Iio count)) :
    ∃ numbering : Equiv.Perm Nat,
      (∀ trials < count, numbering (fresh + trials) = nextNumber^[trials] start) ∧
      ∀ number, fresh ≤ number → number < fresh + count →
        (kb.prover config).Renumbers nextNumber (renumberBy numbering)
          (fun number => nextNumber^[number - fresh] start) number := by
  have injective : Set.InjOn (fun number => nextNumber^[number - fresh] start)
      {number | number ∈ List.range' fresh count} := by
    intro number member other otherMember same
    have bounds := List.mem_range'_1.mp member
    have otherBounds := List.mem_range'_1.mp otherMember
    have apart : number - fresh = other - fresh :=
      different (Set.mem_Iio.mpr (by omega)) (Set.mem_Iio.mpr (by omega)) same
    omega
  obtain ⟨numbering, agrees, _⟩ := exists_permutation_extending injective
  refine ⟨numbering, ?_, fun number beyond before => ⟨?_, ?_⟩⟩
  · intro trials few
    rw [agrees _ (List.mem_range'_1.mpr (by omega)), Nat.add_sub_cancel_left]
  · have next : number + 1 - fresh = number - fresh + 1 := by omega
    simp only [Prover.counts_of_knowledgeBase kb config number, next, Function.iterate_succ_apply']
  · intro signature clause stored
    have inBase := Array.mem_toList_iff.mp (mem_of_mem_clausesOf stored)
    rw [(parsed clause inBase).freshen_renumberBy, Equiv.coe_toEmbedding,
      agrees number (List.mem_range'_1.mpr ⟨beyond, before⟩)]

variable {query : Term} (written : query.Parsed) {search : Search}
  (started : Search.start query = .ok search) {start : Nat} (inRange : start < UInt64.size)
include written started inRange

/-- On a counter of 64 bits a search gives, up to the numbers, every answer for which it takes
at most 2^64 numbers. -/
theorem gives_on_wrapping_counter {fresh calls last : Nat} {answer : Option Item}
    (gives : (kb.prover config).Gives fresh search calls answer last)
    (few : last - fresh ≤ UInt64.size) :
    ∃ numbering : Equiv.Perm Nat,
      (∀ trials < last - fresh, numbering (fresh + trials) = (start + trials) % UInt64.size) ∧
      (kb.prover config wrappingNext).Gives start search calls
        (answer.map (Item.rename (renumberBy numbering)))
        ((start + (last - fresh)) % UInt64.size) := by
  obtain ⟨numbering, agrees, renumbers⟩ :=
    kb.exists_renumbering parsed config fresh (wrappingNext_injOn inRange few)
  obtain ⟨effort, after, answered⟩ := gives
  have renamed := Prover.answer?_rename (renumberBy numbering)
    (Prover.counts_of_knowledgeBase kb config) (Prover.stocks_of_start _ started)
    (fun number beyond before => renumbers number beyond (by omega)) answered
  rw [Search.start_renumberBy written started, Nat.sub_self, Function.iterate_zero_apply]
    at renamed
  simp only [wrappingNext_iterate inRange] at agrees renamed
  exact ⟨numbering, agrees, effort, _, renamed⟩

/-- Calls that make at most 2^64 steps answer alike on a counter of 64 bits and on one that
never starts over, up to the numbers. -/
theorem nthNext_on_wrapping_counter {effort calls : Nat}
    (few : effort * (calls + 1) ≤ UInt64.size) (fresh : Nat) :
    ∃ numbering : Equiv.Perm Nat,
      (∀ trials < effort * (calls + 1),
        numbering (fresh + trials) = (start + trials) % UInt64.size) ∧
      (kb.prover config wrappingNext).nthNext effort calls start search =
        ((kb.prover config).nthNext effort calls fresh search).rename (renumberBy numbering)
          fun number => (start + (number - fresh)) % UInt64.size := by
  obtain ⟨numbering, agrees, renumbers⟩ :=
    kb.exists_renumbering parsed config fresh (wrappingNext_injOn inRange few)
  have renamed := Prover.nthNext_rename wrappingNext (renumberBy numbering) _ effort calls fresh
    (Prover.stocks_of_start _ started) fun trials before => by
      rw [(Prover.counts_of_knowledgeBase kb config).iterate_eq]
      exact renumbers (fresh + trials) (Nat.le_add_right _ _) (Nat.add_lt_add_left before _)
  rw [Search.start_renumberBy written started, Nat.sub_self, Function.iterate_zero_apply]
    at renamed
  simp only [wrappingNext_iterate inRange] at agrees renamed
  exact ⟨numbering, agrees, renamed⟩

end KnowledgeBase

end HornLogic
