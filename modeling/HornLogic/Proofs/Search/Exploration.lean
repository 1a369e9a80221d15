import HornLogic.Proofs.Search.Run

/-!
# Exploring the tree of a query

The tree of a query is explored by plain recursion: the first goal is looked
at, and the branches of all clauses for it are followed one after the other,
each to its end, before the exploration goes on.  The leaves that are met are
the proofs of all goals and the faults; a fault ends the exploration.  The
numbers for renaming are counted through in the order of the trials.

An effort bounds the nesting of the recursion.  With a larger effort the
leaves that were met stay, and an exploration that came to its end stays as it
is.
-/

namespace HornLogic

/-- What is found at the end of a branch. -/
inductive Leaf where
  /-- All goals are proved under these bindings. -/
  | success (bindings : Bindings)
  | fault (cause : Fault)

/-- What a leaf tells about the reported variables. -/
def Leaf.item (reported : List String) : Leaf → Item
  | .success bindings => .ok (Search.solutionUnder reported bindings)
  | .fault cause => .error cause

/-- How an exploration ends, with the next free number. -/
inductive Ending where
  /-- All branches were followed. -/
  | complete (fresh : Nat)
  /-- A fault was met. -/
  | faulted (fresh : Nat)
  /-- The effort was used up. -/
  | interrupted

/-- The next free number, unless the effort was used up. -/
def Ending.fresh? : Ending → Option Nat
  | .complete fresh => some fresh
  | .faulted fresh => some fresh
  | .interrupted => none

/-- The leaves that were met in order, each with the next free number at that
moment, and how the exploration ended. -/
structure Exploration where
  leaves : List (Leaf × Nat)
  ending : Ending

namespace Exploration

/-- Nothing is found on a branch that fails. -/
def failure (fresh : Nat) : Exploration :=
  ⟨[], .complete fresh⟩

def success (bindings : Bindings) (fresh : Nat) : Exploration :=
  ⟨[(.success bindings, fresh)], .complete fresh⟩

def fault (cause : Fault) (fresh : Nat) : Exploration :=
  ⟨[(.fault cause, fresh)], .faulted fresh⟩

def interrupted : Exploration :=
  ⟨[], .interrupted⟩

/-- Goes on with further branches when all branches so far were followed. -/
def andThen (first : Exploration) (further : Nat → Exploration) : Exploration :=
  match first.ending with
  | .complete fresh =>
      ⟨first.leaves ++ (further fresh).leaves, (further fresh).ending⟩
  | _ => first

/-- Follows the branches of clauses one after the other. -/
def followEach (follow : Clause → Nat → Exploration) :
    List Clause → Nat → Exploration
  | [], fresh => failure fresh
  | clause :: clauses, fresh =>
      (follow clause fresh).andThen (followEach follow clauses)

end Exploration

namespace Prover

/-- Follows the branch of one clause for a goal: the clause is renamed with the
next number, and if its head unifies with the goal its body is to be proved
first. -/
def follow (prover : Prover) (effort : Nat)
    (explore : List Goal → Bindings → Nat → Exploration)
    (goal : Term) (depth : Nat) (rest : List Goal) (bindings : Bindings)
    (clause : Clause) (fresh : Nat) : Exploration :=
  match unify prover.config.occursCheck effort goal (clause.freshen fresh).head bindings with
  | .unified extended =>
      explore ((clause.freshen fresh).body.map (⟨·, depth + 1⟩) ++ rest) extended
        (prover.nextNumber fresh)
  | .clash => .failure (prover.nextNumber fresh)
  | .unfinished => .interrupted

/-- Explores the tree of goals under bindings, depth first, left to right and in
the order of the clauses. -/
def explore (prover : Prover) : (effort : Nat) → List Goal → Bindings → Nat → Exploration
  | 0, _, _, _ => .interrupted
  | _ + 1, [], bindings, fresh => .success bindings fresh
  | effort + 1, ⟨term, depth⟩ :: rest, bindings, fresh =>
      match prover.config.exceededAt depth with
      | some limit => .fault (.depthLimit limit) fresh
      | none =>
          match (bindings.walk term).goalForm with
          | .notCallable =>
              .fault (.notCallable ((bindings.walk term).substitute bindings)) fresh
          | .both left right =>
              prover.explore effort (⟨left, depth⟩ :: ⟨right, depth⟩ :: rest) bindings fresh
          | .notUnifiable left right =>
              match unify prover.config.occursCheck effort (left.substitute bindings)
                  (right.substitute bindings) .empty with
              | .unified _ => .failure fresh
              | .clash => prover.explore effort rest bindings fresh
              | .unfinished => .interrupted
          | .call signature =>
              .followEach
                (prover.follow effort (prover.explore effort) (bindings.walk term) depth
                  rest bindings)
                (prover.candidates signature) fresh

end Prover

namespace Exploration

/-- One exploration is a beginning of another if they are the same, or if it
was interrupted and the leaves that it met come first in the other. -/
def Begins (earlier later : Exploration) : Prop :=
  earlier = later ∨
    earlier.ending = .interrupted ∧ earlier.leaves <+: later.leaves

namespace Begins

theorem refl (exploration : Exploration) : exploration.Begins exploration :=
  .inl rfl

theorem interrupted (exploration : Exploration) :
    Exploration.interrupted.Begins exploration :=
  .inr ⟨rfl, List.nil_prefix⟩

theorem leaves {earlier later : Exploration} (begins : earlier.Begins later) :
    earlier.leaves <+: later.leaves := by
  rcases begins with rfl | ⟨_, leavesFirst⟩
  · exact List.prefix_refl _
  · exact leavesFirst

theorem trans {earlier later latest : Exploration} (begins : earlier.Begins later)
    (onwards : later.Begins latest) : earlier.Begins latest := by
  rcases begins with rfl | ⟨ended, leavesFirst⟩
  · exact onwards
  · exact .inr ⟨ended, leavesFirst.trans onwards.leaves⟩

theorem andThen_of_complete {earlier later : Exploration}
    {further furtherLater : Nat → Exploration} (begins : earlier.Begins later)
    (furtherBegins : ∀ fresh, earlier.ending = .complete fresh →
      (further fresh).Begins (furtherLater fresh)) :
    (earlier.andThen further).Begins (later.andThen furtherLater) := by
  rcases begins with rfl | ⟨ended, leavesFirst⟩
  · cases ending : earlier.ending with
    | faulted fresh =>
        simp only [Exploration.andThen, ending]
        exact .refl _
    | interrupted =>
        simp only [Exploration.andThen, ending]
        exact .refl _
    | complete fresh =>
        simp only [Exploration.andThen, ending]
        rcases furtherBegins fresh ending with same | ⟨furtherEnded, furtherFirst⟩
        · rw [same]
          exact .refl _
        · exact .inr ⟨furtherEnded, (List.prefix_append_right_inj _).mpr furtherFirst⟩
  · refine .inr ⟨by simp [Exploration.andThen, ended], ?_⟩
    have unchanged : (earlier.andThen further).leaves = earlier.leaves := by
      simp [Exploration.andThen, ended]
    rw [unchanged]
    refine leavesFirst.trans ?_
    unfold Exploration.andThen
    split
    · exact List.prefix_append _ _
    · exact List.prefix_refl _

theorem andThen {earlier later : Exploration} {further furtherLater : Nat → Exploration}
    (begins : earlier.Begins later)
    (furtherBegins : ∀ fresh, (further fresh).Begins (furtherLater fresh)) :
    (earlier.andThen further).Begins (later.andThen furtherLater) := by
  apply begins.andThen_of_complete
  intro fresh _
  exact furtherBegins fresh

theorem followEach {follow followLater : Clause → Nat → Exploration}
    (begins : ∀ clause fresh, (follow clause fresh).Begins (followLater clause fresh))
    (clauses : List Clause) (fresh : Nat) :
    (Exploration.followEach follow clauses fresh).Begins
      (Exploration.followEach followLater clauses fresh) := by
  induction clauses generalizing fresh with
  | nil => exact .refl _
  | cons clause clauses induction => exact (begins clause fresh).andThen induction

end Begins

end Exploration

namespace Prover

variable {prover : Prover}

theorem follow_begins {effort larger : Nat} (enough : effort ≤ larger)
    {explore exploreLater : List Goal → Bindings → Nat → Exploration}
    (begins : ∀ goals bindings fresh,
      (explore goals bindings fresh).Begins (exploreLater goals bindings fresh))
    (goal : Term) (depth : Nat) (rest : List Goal) (bindings : Bindings)
    (clause : Clause) (fresh : Nat) :
    (prover.follow effort explore goal depth rest bindings clause fresh).Begins
      (prover.follow larger exploreLater goal depth rest bindings clause fresh) := by
  unfold follow
  cases attempt : unify prover.config.occursCheck effort goal
      (clause.freshen fresh).head bindings with
  | unfinished => exact .interrupted _
  | clash =>
      rw [unify_eq_of_answered attempt (by simp) enough]
      exact .refl _
  | unified extended =>
      rw [unify_eq_of_answered attempt (by simp) enough]
      exact begins _ _ _

/-- With a larger effort an exploration goes on from where it was
interrupted. -/
theorem explore_begins {effort larger : Nat} (enough : effort ≤ larger)
    (goals : List Goal) (bindings : Bindings) (fresh : Nat) :
    (prover.explore effort goals bindings fresh).Begins
      (prover.explore larger goals bindings fresh) := by
  induction effort generalizing larger goals bindings fresh with
  | zero => exact .interrupted _
  | succ effort induction =>
      obtain ⟨larger, rfl⟩ : ∃ less, larger = less + 1 :=
        Nat.exists_eq_succ_of_ne_zero (by omega)
      have enoughBelow : effort ≤ larger := by omega
      cases goals with
      | nil => exact .refl _
      | cons goal rest =>
          obtain ⟨term, depth⟩ := goal
          simp only [explore]
          cases prover.config.exceededAt depth with
          | some limit => exact .refl _
          | none =>
              cases (bindings.walk term).goalForm with
              | notCallable => exact .refl _
              | both left right => exact induction enoughBelow _ _ _
              | call signature =>
                  apply Exploration.Begins.followEach
                  intro clause fresh
                  exact follow_begins enoughBelow (induction enoughBelow) _ _ _ _ _ _
              | notUnifiable left right =>
                  cases attempt : unify prover.config.occursCheck effort
                      (left.substitute bindings) (right.substitute bindings) .empty with
                  | unfinished =>
                      simp only [attempt]
                      exact .interrupted _
                  | unified extended =>
                      simp only [attempt,
                        unify_eq_of_answered attempt (by simp) enoughBelow]
                      exact .refl _
                  | clash =>
                      simp only [attempt,
                        unify_eq_of_answered attempt (by simp) enoughBelow]
                      exact induction enoughBelow _ _ _

end Prover

end HornLogic
