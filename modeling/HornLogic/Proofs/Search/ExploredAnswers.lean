import HornLogic.Proofs.Search.Refinement

/-!
# Answers read off an exploration

The answer to a call is read off the exploration of the tree, if it was taken far enough:
it is the leaf with the number of the call, or there is none when all leaves come before.
A search finds a list of solutions if its calls give them one by one and then nothing.
This is so exactly when the tree can be explored to its end without meeting a fault, and
the solutions are those of its leaves.
-/

namespace HornLogic

namespace Exploration

/-- What an exploration says about the answer to the call with this number. -/
inductive Tells (exploration : Exploration) (reported : List String) (calls : Nat) :
    Option Item → Nat → Prop where
  | leaf {leaf : Leaf} {next : Nat} (met : exploration.leaves[calls]? = some (leaf, next)) :
      Tells exploration reported calls (some (leaf.item reported)) next
  | ended {next : Nat} (few : exploration.leaves.length ≤ calls)
      (known : exploration.ending.fresh? = some next) :
      Tells exploration reported calls none next

theorem Begins.tells {earlier later : Exploration} (begins : earlier.Begins later)
    {reported : List String} {calls next : Nat} {answer : Option Item}
    (tells : earlier.Tells reported calls answer next) :
    later.Tells reported calls answer next := by
  cases tells with
  | @leaf leaf _ met =>
      obtain ⟨further, all⟩ := begins.leaves
      apply Tells.leaf
      rw [← all, List.getElem?_append_left (List.getElem?_eq_some_iff.mp met).1]
      exact met
  | ended few known =>
      rw [← begins.eq_of_ended known]
      exact .ended few known

/-- The exploration came to its end without a fault, and these are the bindings of the
proofs that it met. -/
structure Finds (exploration : Exploration) (proofs : List Bindings) (last : Nat) : Prop where
  leaves : exploration.leaves.map Prod.fst = proofs.map .success
  ending : exploration.ending = .complete last

section

variable {exploration : Exploration} {proofs : List Bindings} {last : Nat}

theorem Finds.unique {others : List Bindings} {otherLast : Nat}
    (finds : exploration.Finds proofs last)
    (otherFinds : exploration.Finds others otherLast) :
    proofs = others ∧ last = otherLast := by
  constructor
  · have injective : Function.Injective Leaf.success := fun _ _ same => by cases same; rfl
    exact injective.list_map (finds.leaves.symm.trans otherFinds.leaves)
  · have same := finds.ending.symm.trans otherFinds.ending
    cases same
    rfl

theorem finds_failure (fresh : Nat) : (failure fresh).Finds [] fresh :=
  ⟨rfl, rfl⟩

theorem finds_failure_iff {fresh : Nat} :
    (failure fresh).Finds proofs last ↔ proofs = [] ∧ last = fresh := by
  constructor
  · intro finds
    exact finds.unique (finds_failure fresh)
  · intro ⟨nothing, same⟩
    rw [nothing, same]
    exact finds_failure fresh

theorem finds_success (bindings : Bindings) (fresh : Nat) :
    (success bindings fresh).Finds [bindings] fresh :=
  ⟨rfl, rfl⟩

theorem not_finds_fault (cause : Fault) (fresh : Nat) :
    ¬ (fault cause fresh).Finds proofs last := by
  intro finds
  cases finds.ending

theorem not_finds_interrupted : ¬ interrupted.Finds proofs last := by
  intro finds
  cases finds.ending

theorem Finds.andThen {further : Nat → Exploration} {middle : Nat} {more : List Bindings}
    (finds : exploration.Finds proofs middle)
    (furtherFinds : (further middle).Finds more last) :
    (exploration.andThen further).Finds (proofs ++ more) last := by
  constructor
  · simp [Exploration.andThen, finds.ending, finds.leaves, furtherFinds.leaves]
  · simp [Exploration.andThen, finds.ending, furtherFinds.ending]

theorem Finds.of_andThen {further : Nat → Exploration}
    (finds : (exploration.andThen further).Finds proofs last) :
    ∃ before middle after, exploration.Finds before middle ∧
      (further middle).Finds after last ∧ proofs = before ++ after := by
  cases ending : exploration.ending with
  | faulted fresh =>
      have same := finds.ending
      simp [Exploration.andThen, ending] at same
  | interrupted =>
      have same := finds.ending
      simp [Exploration.andThen, ending] at same
  | complete middle =>
      have ended := finds.ending
      have leaves := finds.leaves
      simp only [Exploration.andThen, ending, List.map_append] at ended leaves
      obtain ⟨before, after, rfl, first, second⟩ := List.append_eq_map_iff.mp leaves
      exact ⟨before, middle, after, ⟨first.symm, ending⟩, ⟨second.symm, ended⟩, rfl⟩

end

/-- A law of explorations, for the first number that they may use, which is kept when
explorations are put together. -/
structure ExplorationLaw (prover : Prover) (law : Nat → Exploration → Prop) : Prop where
  failure (fresh : Nat) : law fresh (.failure fresh)
  success (bindings : Bindings) (fresh : Nat) : law fresh (.success bindings fresh)
  fault (cause : Fault) (fresh : Nat) : law fresh (.fault cause fresh)
  interrupted (fresh : Nat) : law fresh .interrupted
  later {fresh : Nat} {exploration : Exploration} :
    law (prover.nextNumber fresh) exploration → law fresh exploration
  andThen {fresh : Nat} {exploration : Exploration} {further : Nat → Exploration} :
    law fresh exploration →
      (∀ middle, exploration.ending = .complete middle → law middle (further middle)) →
      law fresh (exploration.andThen further)

theorem ExplorationLaw.followEach {prover : Prover} {law : Nat → Exploration → Prop}
    (explorationLaw : ExplorationLaw prover law) {follow : Clause → Nat → Exploration}
    (holds : ∀ clause fresh, law fresh (follow clause fresh)) (clauses : List Clause)
    (fresh : Nat) : law fresh (Exploration.followEach follow clauses fresh) := by
  induction clauses generalizing fresh with
  | nil => exact explorationLaw.failure fresh
  | cons clause clauses induction =>
      apply explorationLaw.andThen (holds clause fresh)
      intro middle _
      exact induction middle

/-- An exploration that ended with a fault has met one. -/
def MeetsFault (exploration : Exploration) : Prop :=
  ∀ last, exploration.ending = .faulted last →
    ∃ cause number, (.fault cause, number) ∈ exploration.leaves

theorem meetsFault_law (prover : Prover) : ExplorationLaw prover fun _ => MeetsFault where
  failure fresh last ended := by cases ended
  success bindings fresh last ended := by cases ended
  fault cause fresh last _ := ⟨cause, fresh, List.mem_singleton_self _⟩
  interrupted fresh last ended := by cases ended
  later meets := meets
  andThen {_ exploration _} meets furtherMeets := by
    cases ending : exploration.ending with
    | complete middle =>
        intro last ended
        simp only [Exploration.andThen, ending] at ended ⊢
        obtain ⟨cause, number, member⟩ := furtherMeets middle ending last ended
        exact ⟨cause, number, List.mem_append_right _ member⟩
    | faulted number =>
        simpa only [Exploration.andThen, ending] using meets
    | interrupted =>
        simpa only [Exploration.andThen, ending] using meets

/-- A complete exploration used the numbers from this one on. -/
def NumbersFrom (fresh : Nat) (exploration : Exploration) : Prop :=
  ∀ last, exploration.ending = .complete last → fresh ≤ last

theorem numbersFrom_law {prover : Prover} (counts : prover.Counts) :
    ExplorationLaw prover NumbersFrom where
  failure fresh last ended := by
    cases ended
    exact Nat.le_refl fresh
  success bindings fresh last ended := by
    cases ended
    exact Nat.le_refl fresh
  fault cause fresh last ended := by cases ended
  interrupted fresh last ended := by cases ended
  later from_next last ended := by
    have beyond := from_next last ended
    rw [counts] at beyond
    exact (Nat.le_succ _).trans beyond
  andThen {fresh exploration further} first furtherNumbers := by
    cases ending : exploration.ending with
    | complete middle =>
        intro last ended
        simp only [Exploration.andThen, ending] at ended
        exact (first middle ending).trans (furtherNumbers middle ending last ended)
    | faulted number =>
        intro last ended
        simp [Exploration.andThen, ending] at ended
    | interrupted =>
        intro last ended
        simp [Exploration.andThen, ending] at ended

section

variable {follow : Clause → Nat → Exploration} {clauses : List Clause} {fresh : Nat}
  (numbers : ∀ clause fresh, (follow clause fresh).NumbersFrom fresh)
include numbers

theorem Finds.of_followEach {proofs : List Bindings} {last : Nat}
    (finds : (followEach follow clauses fresh).Finds proofs last) :
    ∃ parts : List (List Bindings), proofs = parts.flatten ∧
      List.Forall₂ (fun clause part => ∃ first next, fresh ≤ first ∧
        (follow clause first).Finds part next) clauses parts := by
  induction clauses generalizing fresh proofs with
  | nil =>
      obtain ⟨rfl, _⟩ := finds.unique (finds_failure fresh)
      exact ⟨[], rfl, .nil⟩
  | cons clause clauses induction =>
      obtain ⟨before, middle, after, first, others, rfl⟩ := finds.of_andThen
      obtain ⟨parts, rfl, found⟩ := induction others
      refine ⟨before :: parts, rfl, .cons ⟨fresh, middle, Nat.le_refl fresh, first⟩ ?_⟩
      apply found.imp
      intro clause part ⟨number, next, beyond, finds⟩
      exact ⟨number, next, (numbers _ _ middle first.ending).trans beyond, finds⟩

/-- If something is found on the branch of every clause, whatever number the clause is
renamed with, the branches of all of them can be followed. -/
theorem exists_finds_followEach {α : Type} {clauseOf : α → Clause}
    {met : α → List Bindings → Prop} {entries : List α}
    (each : ∀ entry ∈ entries, ∀ first, fresh ≤ first →
      ∃ part next, (follow (clauseOf entry) first).Finds part next ∧ met entry part) :
    ∃ parts last, (followEach follow (entries.map clauseOf) fresh).Finds parts.flatten last ∧
      List.Forall₂ met entries parts := by
  induction entries generalizing fresh with
  | nil => exact ⟨[], fresh, finds_failure fresh, .nil⟩
  | cons entry entries induction =>
      obtain ⟨first, others⟩ := List.forall_mem_cons.mp each
      obtain ⟨part, middle, finds, holds⟩ := first fresh (Nat.le_refl fresh)
      have onwards : fresh ≤ middle := numbers _ _ middle finds.ending
      obtain ⟨parts, last, othersFind, pairs⟩ := induction fun entry member number beyond =>
        others entry member number (onwards.trans beyond)
      exact ⟨part :: parts, last, finds.andThen othersFind, .cons holds pairs⟩

end

end Exploration

namespace Prover

variable {prover : Prover}

section

variable {law : Nat → Exploration → Prop}
  (explorationLaw : Exploration.ExplorationLaw prover law)
include explorationLaw

theorem follow_lawful {effort : Nat} {explore : List Goal → Bindings → Nat → Exploration}
    (holds : ∀ goals bindings fresh, law fresh (explore goals bindings fresh))
    (goal : Term) (depth : Nat) (rest : List Goal) (bindings : Bindings) (clause : Clause)
    (fresh : Nat) :
    law fresh (prover.follow effort explore goal depth rest bindings clause fresh) := by
  unfold follow
  cases unify prover.config.occursCheck effort goal (clause.freshen fresh).head bindings with
  | unified extended => exact explorationLaw.later (holds _ _ _)
  | clash => exact explorationLaw.later (explorationLaw.failure _)
  | unfinished => exact explorationLaw.interrupted fresh

theorem explore_lawful (effort : Nat) (goals : List Goal) (bindings : Bindings)
    (fresh : Nat) : law fresh (prover.explore effort goals bindings fresh) := by
  induction effort generalizing goals bindings fresh with
  | zero => exact explorationLaw.interrupted fresh
  | succ effort induction =>
      cases goals with
      | nil => exact explorationLaw.success bindings fresh
      | cons goal rest =>
          obtain ⟨term, depth⟩ := goal
          simp only [explore]
          cases prover.config.exceededAt depth with
          | some limit => exact explorationLaw.fault _ fresh
          | none =>
              cases (bindings.walk term).goalForm with
              | notCallable => exact explorationLaw.fault _ fresh
              | both left right => exact induction _ _ _
              | call signature =>
                  apply explorationLaw.followEach
                  exact follow_lawful explorationLaw induction _ _ _ _
              | notUnifiable left right =>
                  cases attempt : unify prover.config.occursCheck effort
                      (left.substitute bindings) (right.substitute bindings) .empty with
                  | unified extended =>
                      simp only [attempt]
                      exact explorationLaw.failure fresh
                  | clash =>
                      simp only [attempt]
                      exact induction _ _ _
                  | unfinished =>
                      simp only [attempt]
                      exact explorationLaw.interrupted fresh

end

theorem explore_meetsFault (effort : Nat) (goals : List Goal) (bindings : Bindings)
    (fresh : Nat) : (prover.explore effort goals bindings fresh).MeetsFault :=
  explore_lawful (Exploration.meetsFault_law prover) effort goals bindings fresh

theorem follow_numbersFrom (counts : prover.Counts) (effort : Nat) (goal : Term) (depth : Nat)
    (rest : List Goal) (bindings : Bindings) (clause : Clause) (fresh : Nat) :
    (prover.follow effort (prover.explore effort) goal depth rest bindings clause
      fresh).NumbersFrom fresh :=
  follow_lawful (Exploration.numbersFrom_law counts)
    (explore_lawful (Exploration.numbersFrom_law counts) effort) goal depth rest bindings clause
    fresh

theorem counts_scanning (clauses : List Clause) (config : Config) :
    (scanning clauses config).Counts :=
  fun _ => rfl

section

variable {effort : Nat} {term : Term} {depth : Nat} {rest : List Goal} {bindings : Bindings}
  {fresh : Nat} {proofs : List Bindings} {last : Nat}

/-- The branch of a clause either fails at once or goes on with the body. -/
theorem finds_follow_iff {explore : List Goal → Bindings → Nat → Exploration}
    {clause : Clause} :
    (prover.follow effort explore term depth rest bindings clause fresh).Finds proofs last ↔
      (unify prover.config.occursCheck effort term (clause.freshen fresh).head bindings =
          .clash ∧ proofs = [] ∧ last = prover.nextNumber fresh) ∨
      ∃ extended, unify prover.config.occursCheck effort term (clause.freshen fresh).head
          bindings = .unified extended ∧
        (explore ((clause.freshen fresh).body.map (⟨·, depth + 1⟩) ++ rest) extended
          (prover.nextNumber fresh)).Finds proofs last := by
  unfold follow
  cases unify prover.config.occursCheck effort term (clause.freshen fresh).head bindings with
  | unfinished => simp [Exploration.not_finds_interrupted]
  | clash => simp [Exploration.finds_failure_iff]
  | unified extended => simp

/-- What was done to the first goal by an exploration that finds its proofs. -/
inductive FindsFirst (prover : Prover) (effort : Nat) (term : Term) (depth : Nat)
    (rest : List Goal) (bindings : Bindings) (fresh : Nat) (proofs : List Bindings)
    (last : Nat) : Prop where
  | both {left right : Term} (form : (bindings.walk term).goalForm = .both left right)
      (finds : (prover.explore effort (⟨left, depth⟩ :: ⟨right, depth⟩ :: rest) bindings
        fresh).Finds proofs last)
  | refuted {left right : Term} {extended : Bindings}
      (form : (bindings.walk term).goalForm = .notUnifiable left right)
      (unifies : unify prover.config.occursCheck effort (left.substitute bindings)
        (right.substitute bindings) .empty = .unified extended)
      (finds : (Exploration.failure fresh).Finds proofs last)
  | passed {left right : Term}
      (form : (bindings.walk term).goalForm = .notUnifiable left right)
      (clashes : unify prover.config.occursCheck effort (left.substitute bindings)
        (right.substitute bindings) .empty = .clash)
      (finds : (prover.explore effort rest bindings fresh).Finds proofs last)
  | called {signature : Signature} (form : (bindings.walk term).goalForm = .call signature)
      (finds : (Exploration.followEach (prover.follow effort (prover.explore effort)
        (bindings.walk term) depth rest bindings) (prover.candidates signature) fresh).Finds
          proofs last)

theorem finds_cons_iff :
    (prover.explore (effort + 1) (⟨term, depth⟩ :: rest) bindings fresh).Finds proofs last ↔
      prover.config.exceededAt depth = none ∧
        prover.FindsFirst effort term depth rest bindings fresh proofs last := by
  constructor
  · intro finds
    simp only [explore] at finds
    cases allowed : prover.config.exceededAt depth with
    | some limit =>
        simp only [allowed] at finds
        exact absurd finds (Exploration.not_finds_fault _ _)
    | none =>
        refine ⟨rfl, ?_⟩
        cases form : (bindings.walk term).goalForm with
        | notCallable =>
            simp only [allowed, form] at finds
            exact absurd finds (Exploration.not_finds_fault _ _)
        | both left right =>
            simp only [allowed, form] at finds
            exact .both form finds
        | call signature =>
            simp only [allowed, form] at finds
            exact .called form finds
        | notUnifiable left right =>
            simp only [allowed, form] at finds
            cases attempt : unify prover.config.occursCheck effort (left.substitute bindings)
                (right.substitute bindings) .empty with
            | unfinished =>
                simp only [attempt] at finds
                exact absurd finds Exploration.not_finds_interrupted
            | unified extended =>
                simp only [attempt] at finds
                exact .refuted form attempt finds
            | clash =>
                simp only [attempt] at finds
                exact .passed form attempt finds
  · intro explored
    obtain ⟨allowed, first⟩ := explored
    cases first with
    | both form finds => simpa only [explore, allowed, form] using finds
    | refuted form unifies finds => simpa only [explore, allowed, form, unifies] using finds
    | passed form clashes finds => simpa only [explore, allowed, form, clashes] using finds
    | called form finds => simpa only [explore, allowed, form] using finds

end

/-! ## Answers -/

/-- The call for an item gives what some exploration of the tree tells. -/
theorem gives_iff_tells {reported : List String} {calls fresh next : Nat} {query : Term}
    {answer : Option Item} :
    prover.Gives fresh ⟨reported, .proving [⟨query, 0⟩] .empty, []⟩ calls answer next ↔
      ∃ effort, (prover.exploreQuery effort fresh query).Tells reported calls answer next := by
  constructor
  · intro ⟨effort, after, answered⟩
    rcases Pull.answer?_eq_some_iff.mp answered with ⟨item, rfl, yielded⟩ | ⟨rfl, ended⟩
    · obtain ⟨enough, leaf, met, told⟩ := nthNext_item_iff_leaf.mp ⟨effort, after, yielded⟩
      exact ⟨enough, told ▸ .leaf met⟩
    · obtain ⟨enough, few, known⟩ :=
        nthNext_exhausted_iff_explored.mp ⟨effort, after, ended⟩
      exact ⟨enough, .ended few known⟩
  · intro ⟨effort, tells⟩
    cases tells with
    | @leaf leaf _ met =>
        obtain ⟨enough, after, yielded⟩ :=
          nthNext_item_iff_leaf.mpr ⟨effort, leaf, met, rfl⟩
        exact ⟨enough, after, Pull.answer?_eq_some_iff.mpr (.inl ⟨_, rfl, yielded⟩)⟩
    | ended few known =>
        obtain ⟨enough, after, ended⟩ :=
          nthNext_exhausted_iff_explored.mpr ⟨effort, few, known⟩
        exact ⟨enough, after, Pull.answer?_eq_some_iff.mpr (.inr ⟨rfl, ended⟩)⟩

/-- The search ends without a fault and has these solutions: the calls give them in this
order, and then nothing more. -/
def Finds (prover : Prover) (fresh : Nat) (search : Search) (solutions : List Solution) :
    Prop :=
  ∀ calls, ∃ next, prover.Gives fresh search calls (solutions[calls]?.map .ok) next

theorem exists_proofs {reported : List String} {leaves : List (Leaf × Nat)}
    {solutions : List Solution}
    (told : leaves.map (fun leaf => leaf.1.item reported) = solutions.map .ok) :
    ∃ proofs : List Bindings, leaves.map Prod.fst = proofs.map .success ∧
      solutions = proofs.map (Search.solutionUnder reported) := by
  induction leaves generalizing solutions with
  | nil => exact ⟨[], rfl, by simpa [eq_comm] using told⟩
  | cons leaf leaves induction =>
      obtain ⟨leaf, number⟩ := leaf
      cases solutions with
      | nil => cases told
      | cons solution solutions =>
          obtain ⟨first, others⟩ := List.cons.inj told
          obtain ⟨proofs, same, rfl⟩ := induction others
          cases leaf with
          | fault cause => cases first
          | success bindings =>
              cases first
              refine ⟨bindings :: proofs, ?_, rfl⟩
              rw [List.map_cons, same]
              rfl

theorem finds_of_tells {reported : List String} {exploration : Exploration}
    {solutions : List Solution} {last : Nat}
    (few : exploration.leaves.length ≤ solutions.length)
    (known : exploration.ending.fresh? = some last) (meets : exploration.MeetsFault)
    (tells : ∀ calls solution, solutions[calls]? = some solution →
      ∃ next, exploration.Tells reported calls (some (.ok solution)) next) :
    ∃ proofs, exploration.Finds proofs last ∧
      solutions = proofs.map (Search.solutionUnder reported) := by
  have told : exploration.leaves.map (fun leaf => leaf.1.item reported) =
      solutions.map .ok := by
    apply List.ext_getElem?
    intro calls
    rw [List.getElem?_map, List.getElem?_map]
    cases found : solutions[calls]? with
    | some solution =>
        obtain ⟨next, told⟩ := tells calls solution found
        generalize answered : some (Except.ok solution) = answer at told
        cases told with
        | leaf met => simpa [met] using answered.symm
        | ended few known => cases answered
    | none =>
        have beyond := few.trans (List.getElem?_eq_none_iff.mp found)
        simp [List.getElem?_eq_none_iff.mpr beyond]
  obtain ⟨proofs, leaves, same⟩ := exists_proofs told
  refine ⟨proofs, ⟨leaves, ?_⟩, same⟩
  cases ending : exploration.ending with
  | interrupted => simp [ending, Ending.fresh?] at known
  | complete number => simpa [ending, Ending.fresh?] using known
  | faulted number =>
      obtain ⟨cause, number, member⟩ := meets number ending
      have inLeaves := List.mem_map_of_mem (f := Prod.fst) member
      rw [leaves] at inLeaves
      simp at inLeaves

/-- A search finds the solutions of the proofs in its tree. -/
theorem finds_iff_explored {reported : List String} {fresh : Nat} {query : Term}
    {solutions : List Solution} :
    prover.Finds fresh ⟨reported, .proving [⟨query, 0⟩] .empty, []⟩ solutions ↔
      ∃ effort proofs last, (prover.exploreQuery effort fresh query).Finds proofs last ∧
        solutions = proofs.map (Search.solutionUnder reported) := by
  constructor
  · intro finds
    obtain ⟨last, given⟩ := finds solutions.length
    rw [List.getElem?_eq_none (Nat.le_refl _)] at given
    obtain ⟨effort, tells⟩ := gives_iff_tells.mp given
    cases tells with
    | ended few known =>
        refine ⟨effort, ?_⟩
        have told : ∀ calls solution, solutions[calls]? = some solution → ∃ next,
            (prover.exploreQuery effort fresh query).Tells reported calls
              (some (.ok solution)) next := by
          -- Another exploration tells this solution; with the larger of the two efforts it
          -- is the same as the one that has ended.
          intro calls solution found
          obtain ⟨next, given⟩ := finds calls
          rw [found] at given
          obtain ⟨other, tells⟩ := gives_iff_tells.mp given
          have whole : prover.exploreQuery effort fresh query =
              prover.exploreQuery (max effort other) fresh query :=
            (explore_begins (Nat.le_max_left effort other) _ _ _).eq_of_ended known
          refine ⟨next, whole ▸ ?_⟩
          exact (explore_begins (Nat.le_max_right effort other) _ _ _).tells tells
        obtain ⟨proofs, found, same⟩ := finds_of_tells few known
          (explore_meetsFault effort _ _ _) told
        exact ⟨proofs, last, found, same⟩
  · intro ⟨effort, proofs, last, explored, same⟩
    subst same
    intro calls
    rw [List.getElem?_map, Option.map_map]
    have leaf : ((prover.exploreQuery effort fresh query).leaves.map Prod.fst)[calls]? =
        proofs[calls]?.map .success := by
      rw [explored.leaves, List.getElem?_map]
    cases found : proofs[calls]? with
    | some bindings =>
        rw [found, List.getElem?_map, Option.map_some, Option.map_eq_some_iff] at leaf
        obtain ⟨⟨leaf, next⟩, met, rfl⟩ := leaf
        exact ⟨next, gives_iff_tells.mpr ⟨effort, .leaf met⟩⟩
    | none =>
        have few : (prover.exploreQuery effort fresh query).leaves.length ≤ calls := by
          have lengths := congrArg List.length explored.leaves
          rw [List.length_map, List.length_map] at lengths
          rw [lengths]
          exact List.getElem?_eq_none_iff.mp found
        refine ⟨last, gives_iff_tells.mpr ⟨effort, .ended few ?_⟩⟩
        rw [explored.ending]
        rfl

end Prover

end HornLogic
