import HornLogic.Proofs.KnowledgeBase
import HornLogic.Proofs.Search.Calls
import HornLogic.Proofs.Search.Derivability

/-!
# What a search sees of a knowledge base

A search looks up clauses only for goals that call a predicate.  A conjunction is taken
apart and a test is passed or failed before anything is looked up, so clauses that are
stored for the two operators are never tried.  Two knowledge bases with the same clauses
for every other predicate are therefore the same to every search, however the clauses of
different predicates are mixed.
-/

namespace HornLogic

/-- A goal can call every predicate but the two operators. -/
def Signature.CanBeCalled (signature : Signature) : Prop :=
  signature ≠ ⟨Term.conjunctionName, 2⟩ ∧ signature ≠ ⟨Term.notUnifiableName, 2⟩

namespace Term

theorem exists_app_of_signature? {term : Term} {functor : String}
    (named : term.signature? = some ⟨functor, 2⟩) :
    ∃ left right, term = .app functor [left, right] := by
  cases term with
  | var name => cases named
  | atom name => simp [signature?] at named
  | app other args =>
      obtain ⟨same, length⟩ : other = functor ∧ args.length = 2 := by
        simpa [signature?] using named
      obtain ⟨left, right, pair⟩ := List.length_eq_two.mp length
      exact ⟨left, right, by rw [same, pair]⟩

theorem canBeCalled_of_goalForm {term : Term} {signature : Signature}
    (form : term.goalForm = .call signature) : signature.CanBeCalled := by
  have named := signature?_of_goalForm form
  constructor
  · intro operator
    rw [operator] at named
    obtain ⟨left, right, joined⟩ := exists_app_of_signature? named
    have other := goalForm_both left right
    rw [both, ← joined, form] at other
    cases other
  · intro operator
    rw [operator] at named
    obtain ⟨left, right, tested⟩ := exists_app_of_signature? named
    have other := goalForm_notUnifiable left right
    rw [notUnifiable, ← tested, form] at other
    cases other

end Term

namespace Prover

/-- The provers have the same settings and the same counter, and the same clauses for
every predicate that can be called. -/
structure Agrees (prover other : Prover) : Prop where
  config : prover.config = other.config
  nextNumber : prover.nextNumber = other.nextNumber
  candidates : ∀ signature, signature.CanBeCalled →
    prover.candidates signature = other.candidates signature

namespace Agrees

variable {prover other : Prover} (agrees : prover.Agrees other)
include agrees

theorem select_eq (effort fresh : Nat) (search : Search) (goal : Goal) (rest : List Goal)
    (bindings : Bindings) :
    prover.select effort fresh search goal rest bindings =
      other.select effort fresh search goal rest bindings := by
  cases form : goal.term.goalForm with
  | notCallable => simp only [select, form]
  | both left right => simp only [select, form]
  | notUnifiable left right => simp only [select, form, agrees.config]
  | call signature =>
      have found := agrees.candidates signature (Term.canBeCalled_of_goalForm form)
      simp only [select, form, call, found]

theorem step_eq (effort fresh : Nat) (search : Search) :
    prover.step effort fresh search = other.step effort fresh search := by
  obtain ⟨reported, phase, stack⟩ := search
  cases phase with
  | finished => rfl
  | retrying => simp only [step, retry, agrees.config, agrees.nextNumber]
  | proving goals bindings =>
      cases goals with
      | nil => rfl
      | cons goal rest => simp only [step, agrees.config, agrees.select_eq]

theorem next_eq (effort fresh : Nat) (search : Search) :
    prover.next effort fresh search = other.next effort fresh search := by
  induction effort generalizing fresh search with
  | zero => rfl
  | succ effort induction => simp only [next, agrees.step_eq, induction]

theorem nthNext_eq (effort calls fresh : Nat) (search : Search) :
    prover.nthNext effort calls fresh search = other.nthNext effort calls fresh search := by
  induction calls generalizing fresh search with
  | zero => exact agrees.next_eq effort fresh search
  | succ calls induction => simp only [nthNext, agrees.next_eq, induction]

end Agrees

end Prover

/-- If two knowledge bases have the same clauses in the same order for every predicate
but the operators, the calls of every search give the same with both, with the same
numbers in the names of variables, whatever the counter. -/
theorem KnowledgeBase.Built.search_sees_predicates_only {kb other : KnowledgeBase}
    (built : kb.Built) (otherBuilt : other.Built)
    (same : ∀ signature : Signature, signature ≠ ⟨Term.conjunctionName, 2⟩ →
      signature ≠ ⟨Term.notUnifiableName, 2⟩ →
        (kb.clauses.toList.filter fun clause => clause.signature? = some signature) =
          other.clauses.toList.filter fun clause => clause.signature? = some signature)
    (config : Config) (nextNumber : Nat → Nat) {query : Term}
    (callable : query.isVar = false) (fresh : Nat) :
    ∃ search, Search.start query = .ok search ∧
      ∀ effort calls, (kb.prover config nextNumber).nthNext effort calls fresh search =
        (other.prover config nextNumber).nthNext effort calls fresh search := by
  have agrees : (kb.prover config nextNumber).Agrees (other.prover config nextNumber) := by
    constructor
    · rfl
    · rfl
    · intro signature canBeCalled
      calc
        kb.clausesOf signature = kb.clauses.toList.filter fun clause =>
            clause.signature? = some signature := built.indexed.clausesOf_eq signature
        _ = other.clauses.toList.filter fun clause =>
            clause.signature? = some signature :=
          same signature canBeCalled.1 canBeCalled.2
        _ = other.clausesOf signature := (otherBuilt.indexed.clausesOf_eq signature).symm
  refine ⟨_, by simp [Search.start, callable]; rfl, ?_⟩
  intro effort calls
  exact agrees.nthNext_eq effort calls fresh _

/-- With `p(f(X)).` and `q(a).` in another order, and a clause for conjunctions between
them, the query `q(A), p(B)` has the same answer, for which the counter starts over. -/
theorem KnowledgeBase.answer_after_mixing_predicates :
    ∃ kb other search solution later,
      kb = (KnowledgeBase.empty.addAll
        [⟨.app "p" [.app "f" [.var "X"]], []⟩, ⟨.app "q" [.atom "a"], []⟩]).1 ∧
      other = (KnowledgeBase.empty.addAll
        [⟨.app "q" [.atom "a"], []⟩, ⟨.both (.var "X") (.var "X"), []⟩,
          ⟨.app "p" [.app "f" [.var "X"]], []⟩]).1 ∧
      Search.start (.both (.app "q" [.var "A"]) (.app "p" [.var "B"])) = .ok search ∧
      (kb.prover {} wrappingNext).nthNext 20 0 (UInt64.size - 1) search =
        .item (.ok solution) 1 later ∧
      (other.prover {} wrappingNext).nthNext 20 0 (UInt64.size - 1) search =
        .item (.ok solution) 1 later ∧
      solution.get? "B" = some (.app "f" [.var "X#0"]) := by
  obtain ⟨kb, filled⟩ : ∃ kb, kb = (KnowledgeBase.empty.addAll
    [⟨.app "p" [.app "f" [.var "X"]], []⟩, ⟨.app "q" [.atom "a"], []⟩]).1 := ⟨_, rfl⟩
  obtain ⟨other, otherFilled⟩ : ∃ other, other = (KnowledgeBase.empty.addAll
    [⟨.app "q" [.atom "a"], []⟩, ⟨.both (.var "X") (.var "X"), []⟩,
      ⟨.app "p" [.app "f" [.var "X"]], []⟩]).1 := ⟨_, rfl⟩
  have same : ∀ signature : Signature, signature ≠ ⟨Term.conjunctionName, 2⟩ →
      signature ≠ ⟨Term.notUnifiableName, 2⟩ →
        (kb.clauses.toList.filter fun clause => clause.signature? = some signature) =
          other.clauses.toList.filter fun clause => clause.signature? = some signature := by
    intro signature notJoined _
    subst filled
    subst otherFilled
    by_cases first : signature = ⟨"p", 1⟩
    · subst first
      decide
    · by_cases second : signature = ⟨"q", 1⟩
      · subst second
        decide
      · simp [KnowledgeBase.addAll, KnowledgeBase.add, KnowledgeBase.empty,
          Clause.signature?, Term.signature?, Term.both, Ne.symm first, Ne.symm second,
          Ne.symm notJoined]
  obtain ⟨search, started, agree⟩ :=
    @KnowledgeBase.Built.search_sees_predicates_only kb other
      (filled ▸ .addAll _ .empty) (otherFilled ▸ .addAll _ .empty) same {} wrappingNext
      (.both (.app "q" [.var "A"]) (.app "p" [.var "B"])) rfl (UInt64.size - 1)
  obtain ⟨solution, later, found, value⟩ : ∃ solution later,
      (kb.prover {} wrappingNext).nthNext 20 0 (UInt64.size - 1) search =
        .item (.ok solution) 1 later ∧
        solution.get? "B" = some (.app "f" [.var "X#0"]) := by
    subst filled
    cases started
    exact ⟨_, _, rfl, rfl⟩
  exact ⟨kb, other, search, solution, later, filled, otherFilled, started, found,
    agree 20 0 ▸ found, value⟩

end HornLogic
