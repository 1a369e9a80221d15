import HornLogic.Clause
import Mathlib.Data.List.Basic

/-!
# Substitution of variables

Two substitutions give the same instance of a term exactly when they agree on
its variables, and one after the other they act as their composition.  The
value of a variable is smaller than the instance of any application that
contains it, so the two are never equal.
-/

namespace HornLogic

namespace Term

/-- Induction over a term with a hypothesis for every argument. -/
@[elab_as_elim, induction_eliminator]
theorem inductionOn {motive : Term → Prop} (term : Term)
    (atom : ∀ name, motive (.atom name))
    (var : ∀ name, motive (.var name))
    (app : ∀ functor args, (∀ arg ∈ args, motive arg) →
      motive (.app functor args)) :
    motive term :=
  @Term.rec motive (fun args => ∀ arg ∈ args, motive arg)
    atom var app
    (fun _ member => absurd member List.not_mem_nil)
    (fun _ _ first others => List.forall_mem_cons.mpr ⟨first, others⟩)
    term

section Equations

variable (assign : String → Term) (name functor : String) (args : List Term)

@[simp] theorem subst_atom : (atom name).subst assign = atom name :=
  rfl

@[simp] theorem subst_var : (var name).subst assign = assign name :=
  rfl

@[simp] theorem subst_app :
    (app functor args).subst assign = app functor (args.map (subst assign)) := by
  simp [subst]

@[simp] theorem occurrences_atom : (atom name).occurrences = [] :=
  rfl

@[simp] theorem occurrences_var : (var name).occurrences = [name] :=
  rfl

@[simp] theorem occurrences_app :
    (app functor args).occurrences = args.flatMap occurrences := by
  simp [occurrences]

variable {functor args} in
theorem occurrences_arg_subset {arg : Term} (member : arg ∈ args) :
    arg.occurrences ⊆ (app functor args).occurrences := by
  intro name occurs
  rw [occurrences_app]
  exact List.mem_flatMap.mpr ⟨arg, member, occurs⟩

end Equations

/-- Two substitutions give the same instance of a term exactly when they agree
on its variables. -/
theorem subst_eq_subst_iff {first second : String → Term} {term : Term} :
    term.subst first = term.subst second ↔
      ∀ name ∈ term.occurrences, first name = second name := by
  induction term with
  | atom name => simp
  | var name => simp
  | app functor args induction =>
      constructor
      · intro equality name member
        obtain ⟨arg, argMember, occurs⟩ : ∃ arg ∈ args, name ∈ arg.occurrences := by
          simpa using member
        have sameArgs : args.map (subst first) = args.map (subst second) := by
          simpa using equality
        exact (induction arg argMember).mp
          (List.map_inj_left.mp sameArgs arg argMember) name occurs
      · intro agree
        have sameArgs : args.map (subst first) = args.map (subst second) := by
          refine List.map_congr_left fun arg argMember => ?_
          refine (induction arg argMember).mpr fun name occurs => ?_
          exact agree name (by simpa using ⟨arg, argMember, occurs⟩)
        simp [sameArgs]

theorem subst_congr {first second : String → Term} {term : Term}
    (agree : ∀ name ∈ term.occurrences, first name = second name) :
    term.subst first = term.subst second :=
  subst_eq_subst_iff.mpr agree

@[simp] theorem subst_self (term : Term) : term.subst var = term := by
  induction term with
  | atom name => rfl
  | var name => rfl
  | app functor args induction =>
      have sameArgs : args.map (subst var) = args := by
        calc
          args.map (subst var) = args.map id := List.map_congr_left induction
          _ = args := List.map_id args
      simp [sameArgs]

theorem subst_subst (first second : String → Term) (term : Term) :
    (term.subst first).subst second =
      term.subst fun name => (first name).subst second := by
  induction term with
  | atom name => rfl
  | var name => rfl
  | app functor args induction =>
      have sameArgs : (args.map (subst first)).map (subst second) =
          args.map (subst fun name => (first name).subst second) := by
        rw [List.map_map]
        exact List.map_congr_left induction
      rw [subst_app, subst_app, subst_app, sameArgs]

theorem mem_occurrences_subst {assign : String → Term} {term : Term}
    {name : String} :
    name ∈ (term.subst assign).occurrences ↔
      ∃ other ∈ term.occurrences, name ∈ (assign other).occurrences := by
  induction term with
  | atom other => simp
  | var other => simp
  | app functor args induction =>
      constructor
      · intro member
        obtain ⟨arg, argMember, occurs⟩ :
            ∃ arg ∈ args, name ∈ (arg.subst assign).occurrences := by
          simpa using member
        obtain ⟨other, otherMember, inValue⟩ := (induction arg argMember).mp occurs
        exact ⟨other, by simpa using ⟨arg, argMember, otherMember⟩, inValue⟩
      · rintro ⟨other, otherMember, inValue⟩
        obtain ⟨arg, argMember, occurs⟩ : ∃ arg ∈ args, other ∈ arg.occurrences := by
          simpa using otherMember
        have inArg := (induction arg argMember).mpr ⟨other, occurs, inValue⟩
        simpa using ⟨arg, argMember, inArg⟩

theorem subst_rename (change : String → String) (assign : String → Term) (term : Term) :
    (term.rename change).subst assign =
      term.subst fun name => assign (change name) :=
  subst_subst _ _ _

theorem mem_occurrences_rename {change : String → String} {term : Term}
    {name : String} :
    name ∈ (term.rename change).occurrences ↔
      ∃ other ∈ term.occurrences, name = change other := by
  simp [rename, mem_occurrences_subst]

mutual

/-- The functors that are applied in a term, each with its number of
arguments. -/
def applied : Term → List Signature
  | .atom _ => []
  | .var _ => []
  | .app functor args => ⟨functor, args.length⟩ :: appliedArgs args

def appliedArgs : List Term → List Signature
  | [] => []
  | term :: terms => term.applied ++ appliedArgs terms

end

theorem appliedArgs_eq_flatMap (terms : List Term) :
    appliedArgs terms = terms.flatMap applied := by
  induction terms with
  | nil => rfl
  | cons term terms induction => simp [appliedArgs, induction]

@[simp] theorem applied_app (functor : String) (args : List Term) :
    (app functor args).applied = ⟨functor, args.length⟩ :: args.flatMap applied := by
  simp [applied, appliedArgs_eq_flatMap]

theorem applied_rename (change : String → String) (term : Term) :
    (term.rename change).applied = term.applied := by
  induction term with
  | atom name => rfl
  | var name => rfl
  | app functor args induction =>
      have sameArgs : (args.map (rename change)).flatMap applied =
          args.flatMap applied := by
        rw [List.flatMap_map]
        exact List.flatMap_congr induction
      rw [rename, subst_app, applied_app, applied_app, List.length_map]
      exact congrArg _ sameArgs

mutual

/-- The number of atoms, variables and applications in a term. -/
def size : Term → Nat
  | .atom _ => 1
  | .var _ => 1
  | .app _ args => sizeArgs args + 1

def sizeArgs : List Term → Nat
  | [] => 0
  | term :: terms => term.size + sizeArgs terms

end

theorem size_pos (term : Term) : 0 < term.size := by
  cases term <;> simp [size]

theorem size_le_sizeArgs {arg : Term} {args : List Term} (member : arg ∈ args) :
    arg.size ≤ sizeArgs args := by
  induction args with
  | nil => simp at member
  | cons first others induction =>
      rcases List.mem_cons.mp member with rfl | later
      · exact Nat.le_add_right _ _
      · exact Nat.le_trans (induction later) (Nat.le_add_left _ _)

theorem size_arg_lt {functor : String} {arg : Term} {args : List Term}
    (member : arg ∈ args) : arg.size < (app functor args).size :=
  Nat.lt_succ_of_le (size_le_sizeArgs member)

theorem size_subst_arg_lt {assign : String → Term} {functor : String}
    {arg : Term} {args : List Term} (member : arg ∈ args) :
    (arg.subst assign).size < ((app functor args).subst assign).size := by
  rw [subst_app]
  exact size_arg_lt (List.mem_map_of_mem member)

/-- The value of a variable is no larger than the instance of a term that
contains it. -/
theorem size_assign_le {assign : String → Term} {term : Term} {name : String}
    (member : name ∈ term.occurrences) :
    (assign name).size ≤ (term.subst assign).size := by
  induction term with
  | atom other => simp at member
  | var other =>
      obtain rfl : name = other := by simpa using member
      exact Nat.le_refl _
  | app functor args induction =>
      obtain ⟨arg, argMember, occurs⟩ : ∃ arg ∈ args, name ∈ arg.occurrences := by
        simpa using member
      exact Nat.le_of_lt (Nat.lt_of_le_of_lt
        (induction arg argMember occurs) (size_subst_arg_lt argMember))

/-- A variable and a larger term that contains it have no common instance. -/
theorem assign_ne_subst {assign : String → Term} {term : Term} {name : String}
    (member : name ∈ term.occurrences) (different : term ≠ var name) :
    assign name ≠ term.subst assign := by
  cases term with
  | atom other => simp at member
  | var other =>
      have same : name = other := by simpa using member
      exact absurd (by rw [same]) different
  | app functor args =>
      intro equality
      obtain ⟨arg, argMember, occurs⟩ : ∃ arg ∈ args, name ∈ arg.occurrences := by
        simpa using member
      have argSmaller : (arg.subst assign).size <
          ((app functor args).subst assign).size :=
        size_subst_arg_lt argMember
      have valueFits : (assign name).size ≤ (arg.subst assign).size :=
        size_assign_le occurs
      rw [equality] at valueFits
      omega

end Term

end HornLogic
