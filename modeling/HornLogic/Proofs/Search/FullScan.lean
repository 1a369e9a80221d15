import HornLogic.Proofs.KnowledgeBase
import HornLogic.Proofs.Search.Renumbering

/-!
# Finding clauses through the index or trying all of them

A head of another predicate never unifies with a goal.  A search that tries every clause
against every goal therefore makes the steps of the search that only tries the clauses
of the predicate, and in between it tries other clauses in vain and comes back to choices
that the other search does not have.  A trial in vain takes a number, so the two searches
rename clauses with different numbers.
-/

namespace HornLogic

theorem Bindings.walk_of_signature {bindings : Bindings} {term : Term} {signature : Signature}
    (named : term.signature? = some signature) : bindings.walk term = term := by
  cases term with
  | var name => cases named
  | atom name => exact bindings.walk_atom name
  | app functor args => exact bindings.walk_app functor args

/-- Terms of different predicates do not unify, under any bindings. -/
theorem unify_clash_of_signature (occursCheck : Bool) (effort : Nat) {left right : Term}
    {signature other : Signature} (named : left.signature? = some signature)
    (otherNamed : right.signature? = some other) (differ : other ≠ signature)
    (bindings : Bindings) :
    unify occursCheck (effort + 1) left right bindings = .clash := by
  have step := unify_step occursCheck effort left right bindings
  generalize unify occursCheck (effort + 1) left right bindings = answer at step ⊢
  have leftEnd := @Bindings.walk_of_signature bindings _ _ named
  have rightEnd := @Bindings.walk_of_signature bindings _ _ otherNamed
  cases step with
  | same equal =>
      rw [leftEnd, rightEnd] at equal
      rw [equal, otherNamed] at named
      exact absurd (Option.some.inj named) differ
  | bind name term different ends =>
      rw [leftEnd, rightEnd] at ends
      rcases ends with ⟨rfl, _⟩ | ⟨_, rfl⟩
      · cases named
      · cases otherNamed
  | args functor lefts rights leftApp rightApp sameLength =>
      obtain rfl := leftEnd.symm.trans leftApp
      obtain rfl := rightEnd.symm.trans rightApp
      cases named
      cases otherNamed
      exact absurd (by rw [sameLength]) differ
  | apart clash => rfl

/-- Searches that try every clause against every goal. -/
def Prover.tryingAll (clauses : List Clause) (config : Config := {}) : Prover where
  candidates _ := clauses
  config

theorem Prover.counts_tryingAll (clauses : List Clause) (config : Config) :
    (tryingAll clauses config).Counts :=
  fun _ => rfl

/-- The second stack is the first one without the candidates of other predicates than that
of the goal, and perhaps without choices that have no other candidates. -/
inductive Sifted : List Choice → List Choice → Prop where
  | nil : Sifted [] []
  | keep {goal : Term} {depth : Nat} {rest : List Goal} {bindings : Bindings}
      {candidates : List Clause} {stack sifted : List Choice}
      (callable : goal.signature?.isSome) (below : Sifted stack sifted) :
      Sifted (⟨goal, depth, rest, bindings, candidates⟩ :: stack)
        (⟨goal, depth, rest, bindings,
          candidates.filter fun clause => clause.signature? = goal.signature?⟩ :: sifted)
  | leave {goal : Term} {depth : Nat} {rest : List Goal} {bindings : Bindings}
      {candidates : List Clause} {stack sifted : List Choice}
      (callable : goal.signature?.isSome)
      (others : ∀ clause ∈ candidates, clause.signature? ≠ goal.signature?)
      (below : Sifted stack sifted) :
      Sifted (⟨goal, depth, rest, bindings, candidates⟩ :: stack) sifted

/-- The searches differ in candidates of other predicates only. -/
inductive Search.Sifts : Search → Search → Prop where
  | intro {reported : List String} {phase : Phase} {stack sifted : List Choice}
      (below : Sifted stack sifted) : Sifts ⟨reported, phase, stack⟩ ⟨reported, phase, sifted⟩

/-- The searches are about to do the same: there is no other candidate to be tried and
no other choice to be dropped before. -/
inductive Search.Abreast : Search → Search → Prop where
  | busy {reported : List String} {phase : Phase} {stack sifted : List Choice}
      (active : phase ≠ .retrying) (below : Sifted stack sifted) :
      Abreast ⟨reported, phase, stack⟩ ⟨reported, phase, sifted⟩
  | ended {reported : List String} :
      Abreast ⟨reported, .retrying, []⟩ ⟨reported, .retrying, []⟩
  | spent {reported : List String} {goal : Term} {depth : Nat} {rest : List Goal}
      {bindings : Bindings} {stack sifted : List Choice} (below : Sifted stack sifted) :
      Abreast ⟨reported, .retrying, ⟨goal, depth, rest, bindings, []⟩ :: stack⟩
        ⟨reported, .retrying, ⟨goal, depth, rest, bindings, []⟩ :: sifted⟩
  | trying {reported : List String} {goal : Term} {depth : Nat} {rest : List Goal}
      {bindings : Bindings} {candidate : Clause} {candidates : List Clause}
      {stack sifted : List Choice} (callable : goal.signature?.isSome)
      (called : candidate.signature? = goal.signature?) (below : Sifted stack sifted) :
      Abreast
        ⟨reported, .retrying,
          ⟨goal, depth, rest, bindings, candidate :: candidates⟩ :: stack⟩
        ⟨reported, .retrying,
          ⟨goal, depth, rest, bindings, candidate ::
            candidates.filter fun clause => clause.signature? = goal.signature?⟩ :: sifted⟩

/-- A search is about to try a clause of the predicate that the goal calls. -/
inductive Search.TryingCalled : Search → Prop where
  | intro {reported : List String} {stack : List Choice} {goal : Term} {depth : Nat}
      {rest : List Goal} {bindings : Bindings} {candidate : Clause}
      {candidates : List Clause} (called : candidate.signature? = goal.signature?) :
      TryingCalled ⟨reported, .retrying,
        ⟨goal, depth, rest, bindings, candidate :: candidates⟩ :: stack⟩

theorem Search.TryingCalled.trying {search : Search} (called : search.TryingCalled) :
    search.Trying := by
  cases called
  exact .intro

/-- What is left of the choices of a search. -/
def Search.left (search : Search) : Nat :=
  (search.stack.map fun choice => choice.candidates.length + 1).sum

structure Turn.Sifts (turn sifted : Turn) : Prop where
  search : turn.search.Sifts sifted.search
  fresh : turn.fresh = sifted.fresh
  item : turn.item = sifted.item

namespace Prover

variable {clauses : List Clause} {config : Config}

theorem call_sifts {reported : List String} {phase : Phase} {stack sifted : List Choice}
    (below : Sifted stack sifted) (fresh : Nat) {goal : Goal} {signature : Signature}
    (form : goal.term.goalForm = .call signature) (rest : List Goal) (bindings : Bindings) :
    Turn.Sifts
      ((tryingAll clauses config).call fresh ⟨reported, phase, stack⟩ goal rest bindings
        signature)
      ((scanning clauses config).call fresh ⟨reported, phase, sifted⟩ goal rest bindings
        signature) := by
  have named := Term.signature?_of_goalForm form
  have callable : goal.term.signature?.isSome := by simp [named]
  cases all : clauses with
  | nil =>
      simp only [call, tryingAll, scanning, List.filter_nil]
      exact ⟨.intro below, rfl, rfl⟩
  | cons clause others =>
      simp only [call, tryingAll, scanning]
      cases found : (clause :: others).filter fun clause =>
          clause.signature? = some signature with
      | nil =>
          refine ⟨.intro (.leave callable ?_ below), rfl, rfl⟩
          intro other member
          simpa [named] using List.filter_eq_nil_iff.mp found other member
      | cons first more =>
          have kept := @Sifted.keep goal.term goal.depth rest bindings (clause :: others) _ _
            callable below
          rw [named, found] at kept
          exact ⟨.intro kept, rfl, rfl⟩

theorem select_sifts {reported : List String} {phase : Phase} {stack sifted : List Choice}
    (below : Sifted stack sifted) (effort fresh : Nat) (goal : Goal) (rest : List Goal)
    (bindings : Bindings) :
    Option.Rel Turn.Sifts
      ((tryingAll clauses config).select effort fresh ⟨reported, phase, stack⟩ goal rest
        bindings)
      ((scanning clauses config).select effort fresh ⟨reported, phase, sifted⟩ goal rest
        bindings) := by
  simp only [select]
  cases form : goal.term.goalForm with
  | both left right => exact .some ⟨.intro below, rfl, rfl⟩
  | notCallable => exact .some ⟨.intro .nil, rfl, rfl⟩
  | call signature => exact .some (call_sifts below fresh form rest bindings)
  | notUnifiable left right =>
      simp only [tryingAll, scanning]
      cases unify config.occursCheck effort (left.substitute bindings)
          (right.substitute bindings) .empty with
      | unified extended => exact .some ⟨.intro below, rfl, rfl⟩
      | clash => exact .some ⟨.intro below, rfl, rfl⟩
      | unfinished => exact .none

theorem step_of_abreast {search sifted : Search} (abreast : search.Abreast sifted)
    (effort fresh : Nat) :
    Option.Rel Turn.Sifts ((tryingAll clauses config).step effort fresh search)
      ((scanning clauses config).step effort fresh sifted) := by
  cases abreast with
  | @busy reported phase stack sifted active below =>
      cases phase with
      | retrying => exact absurd rfl active
      | finished => exact .some ⟨.intro below, rfl, rfl⟩
      | proving goals bindings =>
          cases goals with
          | nil => exact .some ⟨.intro below, rfl, rfl⟩
          | cons goal rest =>
              simp only [step, tryingAll, scanning]
              cases config.exceededAt goal.depth with
              | some limit => exact .some ⟨.intro .nil, rfl, rfl⟩
              | none =>
                  exact select_sifts below effort fresh
                    { goal with term := bindings.walk goal.term } rest bindings
  | ended => exact .some ⟨.intro .nil, rfl, rfl⟩
  | spent below => exact .some ⟨.intro below, rfl, rfl⟩
  | @trying reported goal depth rest bindings candidate candidates stack sifted callable
      called below =>
      simp only [step, retry, tryingAll, scanning]
      cases unify config.occursCheck effort goal (candidate.freshen fresh).head bindings with
      | unfinished => exact .none
      | clash => exact .some ⟨.intro (.keep callable below), rfl, rfl⟩
      | unified extended => exact .some ⟨.intro (.keep callable below), rfl, rfl⟩

/-- A clause of another predicate is tried in vain. -/
theorem searchStep_of_other {reported : List String} {goal : Term} {depth : Nat}
    {rest : List Goal} {bindings : Bindings} {candidate : Clause} {candidates : List Clause}
    {stack : List Choice} (callable : goal.signature?.isSome)
    (named : candidate.signature?.isSome) (other : candidate.signature? ≠ goal.signature?)
    (fresh : Nat) {prover : Prover} :
    SearchStep prover 1 fresh
      ⟨reported, .retrying, ⟨goal, depth, rest, bindings, candidate :: candidates⟩ :: stack⟩
      (prover.nextNumber fresh)
      ⟨reported, .retrying, ⟨goal, depth, rest, bindings, candidates⟩ :: stack⟩ none := by
  obtain ⟨signature, goalNamed⟩ := Option.isSome_iff_exists.mp callable
  obtain ⟨otherSignature, headNamed⟩ := Option.isSome_iff_exists.mp named
  refine .skipped (unify_clash_of_signature _ 0 goalNamed
    (Term.signature?_subst headNamed _) ?_ _)
  rintro rfl
  exact other (headNamed.trans goalNamed.symm)

/-- The search that tries all clauses is about to do the same as the other one, or it takes
a step by itself and has less left then. -/
theorem abreast_or_step (heads : ∀ clause ∈ clauses, clause.signature?.isSome)
    {search sifted : Search} (sifts : search.Sifts sifted)
    (stocks : (tryingAll clauses config).Stocks search) (fresh : Nat) :
    search.Abreast sifted ∨
      ¬ search.TryingCalled ∧ ∃ later after,
        SearchStep (tryingAll clauses config) 1 fresh search later after none ∧
          after.Sifts sifted ∧ after.left < search.left := by
  have named : ∀ choice ∈ search.stack, ∀ candidate ∈ choice.candidates,
      candidate.signature?.isSome := by
    intro choice member candidate stored
    obtain ⟨_, inAll⟩ := stocks choice member candidate stored
    exact heads candidate inAll
  obtain ⟨reported, phase, stack⟩ := search
  cases sifts with | intro below => ?_
  by_cases active : phase = .retrying
  · subst active
    cases below with
    | nil => exact .inl .ended
    | @keep goal depth rest bindings candidates stack sifted callable below =>
        cases candidates with
        | nil => exact .inl (.spent below)
        | cons candidate candidates =>
            by_cases called : candidate.signature? = goal.signature?
            · have kept := List.filter_cons_of_pos
                (p := fun clause : Clause => decide (clause.signature? = goal.signature?))
                (l := candidates) (decide_eq_true called)
              rw [kept]
              exact .inl (.trying callable called below)
            · have skipped := List.filter_cons_of_neg
                (p := fun clause : Clause => decide (clause.signature? = goal.signature?))
                (l := candidates) (by simpa using called)
              rw [skipped]
              refine .inr ⟨fun trying => ?_, _, _, searchStep_of_other callable
                (named _ List.mem_cons_self _ List.mem_cons_self) called fresh,
                .intro (.keep callable below), ?_⟩
              · cases trying with
                | intro same => exact called same
              · simp [Search.left]
    | @leave goal depth rest bindings candidates stack sifted callable others below =>
        cases candidates with
        | nil =>
            refine .inr ⟨nofun, _, _, .dropped, .intro below, ?_⟩
            simp [Search.left]
        | cons candidate candidates =>
            obtain ⟨other, later⟩ := List.forall_mem_cons.mp others
            refine .inr ⟨fun trying => ?_, _, _, searchStep_of_other callable
              (named _ List.mem_cons_self _ List.mem_cons_self) other fresh,
              .intro (.leave callable later below), ?_⟩
            · cases trying with
              | intro same => exact other same
            · simp [Search.left]
  · exact .inl (.busy active below)

end Prover

namespace Search.Abreast

variable {search sifted : Search}

theorem tryingCalled (abreast : search.Abreast sifted) (trying : search.Trying) :
    search.TryingCalled := by
  cases trying
  cases abreast with
  | busy active below => exact absurd rfl active
  | trying callable called below => exact .intro called

theorem trying_iff (abreast : search.Abreast sifted) : search.Trying ↔ sifted.Trying := by
  cases abreast with
  | busy active below =>
      constructor
      · intro trying
        cases trying
        exact absurd rfl active
      · intro trying
        cases trying
        exact absurd rfl active
  | ended => exact Iff.rfl
  | spent below => exact ⟨nofun, nofun⟩
  | trying callable called below => exact ⟨fun _ => .intro, fun _ => .intro⟩

end Search.Abreast

/-! ## Numbers that are not taken in vain -/

namespace Prover

/-- The numbers before the first one, and those with which a clause of the predicate that
the goal calls is tried. -/
def Kept (prover : Prover) (first : Nat) (start : Search) (number : Nat) : Prop :=
  number < first ∨ ∃ search, prover.Reaches first start number search ∧ search.TryingCalled

open Classical in
/-- How many numbers before this one are not taken in vain. -/
noncomputable def keptBefore (prover : Prover) (first : Nat) (start : Search)
    (number : Nat) : Nat :=
  Nat.count (prover.Kept first start) number

theorem keptBefore_succ {prover : Prover} {first : Nat} {start : Search} {number : Nat}
    (kept : prover.Kept first start number) :
    prover.keptBefore first start (number + 1) = prover.keptBefore first start number + 1 := by
  rw [keptBefore, Nat.count_succ, if_pos kept, keptBefore]

theorem keptBefore_succ_of_not {prover : Prover} {first : Nat} {start : Search}
    {number : Nat} (vain : ¬ prover.Kept first start number) :
    prover.keptBefore first start (number + 1) = prover.keptBefore first start number := by
  rw [keptBefore, Nat.count_succ, if_neg vain, keptBefore, Nat.add_zero]

theorem keptBefore_first (prover : Prover) (first : Nat) (start : Search) :
    prover.keptBefore first start first = first := by
  classical
  exact Nat.count_of_forall fun _ before => .inl before

/-- Where a number is taken in vain it is taken for nothing else. -/
theorem not_kept {prover : Prover} (counts : prover.Counts) {first fresh : Nat}
    {start search : Search} (reached : prover.Reaches first start fresh search)
    (trying : search.Trying) (other : ¬ search.TryingCalled) : ¬ prover.Kept first start fresh := by
  rintro (before | ⟨again, againReached, called⟩)
  · exact absurd (reached.fresh_le counts) (Nat.not_le.mpr before)
  · obtain rfl := reached.unique_of_trying counts againReached trying called.trying
    exact other called

end Prover

/-- A search for the clauses of a predicate is as far as the search that tries all clauses,
apart from the numbers that this one took in vain. -/
structure Follows (clauses : List Clause) (config : Config) (numbering : Nat ↪ Nat)
    (first : Nat) (start : Search) (fresh : Nat) (search : Search) (number : Nat)
    (follower : Search) : Prop where
  reached : (Prover.tryingAll clauses config).Reaches first start fresh search
  counted : number = (Prover.tryingAll clauses config).keptBefore first start fresh
  sifts : search.Sifts (follower.rename (renumberBy numbering))
  stocked : (Prover.tryingAll clauses config).Stocks search
  stocks : (Prover.scanning clauses config).Stocks follower

namespace Follows

variable {clauses : List Clause} {config : Config} {numbering : Nat ↪ Nat} {first : Nat}
  {start : Search} {fresh : Nat} {search : Search} {number : Nat} {follower : Search}

theorem keep (follows : Follows clauses config numbering first start fresh search number follower)
    (other : ¬ search.TryingCalled) {effort later : Nat} {after : Search}
    (stepped : SearchStep (Prover.tryingAll clauses config) effort fresh search later after none)
    (sifts : after.Sifts (follower.rename (renumberBy numbering))) :
    Follows clauses config numbering first start later after number follower where
  reached := follows.reached.trans ⟨_, .single effort stepped⟩
  counted := by
    rw [follows.counted]
    by_cases trying : search.Trying
    · have counts := Prover.counts_tryingAll clauses config
      rw [stepped.later_of_trying trying, counts fresh,
        Prover.keptBefore_succ_of_not (Prover.not_kept counts follows.reached trying other)]
    · rw [stepped.later_of_not_trying trying]
  sifts := sifts
  stocked := follows.stocked.step stepped
  stocks := follows.stocks

/-- The search that tries all clauses can go on until both are about to do the same. -/
theorem settle (heads : ∀ clause ∈ clauses, clause.signature?.isSome)
    (follows : Follows clauses config numbering first start fresh search number follower) :
    ∃ later after, (Prover.tryingAll clauses config).Runs fresh search [] later after ∧
      Follows clauses config numbering first start later after number follower ∧
      after.Abreast (follower.rename (renumberBy numbering)) := by
  induction left : search.left using Nat.strongRecOn generalizing fresh search with
  | ind room induction =>
      rcases Prover.abreast_or_step heads follows.sifts follows.stocked fresh with
        abreast | ⟨other, later, after, stepped, sifts, less⟩
      · exact ⟨fresh, search, .refl _ _, follows, abreast⟩
      · obtain ⟨last, final, run, onwards, abreast⟩ :=
          induction _ (left ▸ less) (follows.keep other stepped sifts) rfl
        exact ⟨last, final, .silent stepped run, onwards, abreast⟩

/-- The search that tries all clauses counts what it takes in a step that both take. -/
theorem counted_later
    (follows : Follows clauses config numbering first start fresh search number follower)
    (abreast : search.Abreast (follower.rename (renumberBy numbering))) {effort later : Nat}
    {after : Search} {item : Option Item}
    (stepped : SearchStep (Prover.tryingAll clauses config) effort fresh search later after item) :
    number + (later - fresh) = (Prover.tryingAll clauses config).keptBefore first start later := by
  have counted := follows.counted
  by_cases trying : search.Trying
  · have kept : (Prover.tryingAll clauses config).Kept first start fresh :=
      .inr ⟨search, follows.reached, abreast.tryingCalled trying⟩
    have next : later = fresh + 1 :=
      (stepped.later_of_trying trying).trans (Prover.counts_tryingAll clauses config fresh)
    rw [next, Prover.keptBefore_succ kept]
    omega
  · have next : later = fresh := stepped.later_of_not_trying trying
    rw [next]
    omega

section

variable (parsed : ∀ clause ∈ clauses, clause.Parsed)
  (numbers : ∀ number, (Prover.tryingAll clauses config).Kept first start number →
    numbering ((Prover.tryingAll clauses config).keptBefore first start number) = number)

include parsed numbers

/-- A clause that both try is renamed with numbers that belong together. -/
theorem renumbers
    (follows : Follows clauses config numbering first start fresh search number follower)
    (abreast : search.Abreast (follower.rename (renumberBy numbering)))
    (trying : follower.Trying) :
    (Prover.scanning clauses config).Renumbers (Prover.scanning clauses config).nextNumber
      (renumberBy numbering) (fun other => fresh + (other - number)) number := by
  have called := abreast.tryingCalled (abreast.trying_iff.mpr (trying.rename _))
  have sameNumber : numbering number = fresh := by
    rw [follows.counted]
    exact numbers fresh (.inr ⟨search, follows.reached, called⟩)
  constructor
  · simp only [Prover.scanning]
    omega
  · intro signature clause stored
    rw [(parsed clause (List.mem_filter.mp stored).1).freshen_renumberBy, sameNumber]
    simp

/-- Searches that are about to do the same do it, apart from names and numbers. -/
theorem lockstep
    (follows : Follows clauses config numbering first start fresh search number follower)
    (abreast : search.Abreast (follower.rename (renumberBy numbering))) (effort : Nat) :
    Option.Rel
      (fun turn followed =>
        turn.item = followed.item.map (Item.rename (renumberBy numbering)) ∧
        Follows clauses config numbering first start turn.fresh turn.search followed.fresh
          followed.search)
      ((Prover.tryingAll clauses config).step effort fresh search)
      ((Prover.scanning clauses config).step effort number follower) := by
  have renamed := Prover.step_rename _ _ _ effort follows.stocks
    (follows.renumbers parsed numbers abreast)
  rw [Prover.withCounter_self, Nat.sub_self, Nat.add_zero] at renamed
  have both := @Prover.step_of_abreast clauses config _ _ abreast effort fresh
  rw [renamed] at both
  generalize step : (Prover.tryingAll clauses config).step effort fresh search = turn
    at both ⊢
  generalize followedStep : (Prover.scanning clauses config).step effort number follower =
    followed at both ⊢
  cases followed with
  | none =>
      cases both
      exact .none
  | some followed =>
      cases both with
      | @some turn _ alike =>
          have stepped := Prover.searchStep_of_step step
          have followedStepped := Prover.searchStep_of_step followedStep
          refine .some ⟨alike.item, ?_⟩
          refine
            { reached := follows.reached.trans ⟨_, .single effort stepped⟩
              counted := ?_
              sifts := alike.search
              stocked := follows.stocked.step stepped
              stocks := follows.stocks.step followedStepped }
          have grows : number ≤ followed.fresh :=
            Prover.Reaches.fresh_le (fun _ => rfl) ⟨_, .single effort followedStepped⟩
          have sameFresh : turn.fresh = fresh + (followed.fresh - number) := alike.fresh
          rw [← follows.counted_later abreast stepped]
          omega

theorem step_follower
    (follows : Follows clauses config numbering first start fresh search number follower)
    (abreast : search.Abreast (follower.rename (renumberBy numbering))) {effort later : Nat}
    {after : Search} {item : Option Item}
    (stepped : SearchStep (Prover.tryingAll clauses config) effort fresh search later after
      item) :
    ∃ next final original,
      SearchStep (Prover.scanning clauses config) effort number follower next final original ∧
        item = original.map (Item.rename (renumberBy numbering)) ∧
        Follows clauses config numbering first start later after next final := by
  obtain ⟨note, taken⟩ := Prover.step_of_searchStep stepped
  have both := follows.lockstep parsed numbers abreast effort
  rw [taken] at both
  generalize followedStep : (Prover.scanning clauses config).step effort number follower =
    followed at both
  cases both with
  | some alike =>
      exact ⟨_, _, _, Prover.searchStep_of_step followedStep, alike.1, alike.2⟩

theorem step_leader
    (follows : Follows clauses config numbering first start fresh search number follower)
    (abreast : search.Abreast (follower.rename (renumberBy numbering))) {effort next : Nat}
    {final : Search} {item : Option Item}
    (stepped : SearchStep (Prover.scanning clauses config) effort number follower next final
      item) :
    ∃ later after,
      SearchStep (Prover.tryingAll clauses config) effort fresh search later after
          (item.map (Item.rename (renumberBy numbering))) ∧
        Follows clauses config numbering first start later after next final := by
  obtain ⟨note, taken⟩ := Prover.step_of_searchStep stepped
  have both := follows.lockstep parsed numbers abreast effort
  rw [taken] at both
  generalize leadingStep : (Prover.tryingAll clauses config).step effort fresh search = turn
    at both
  cases both with
  | some alike =>
      exact ⟨_, _, alike.1 ▸ Prover.searchStep_of_step leadingStep, alike.2⟩

end

end Follows

/-! ## Runs -/

def SameItems (change : String ↪ String) (items originals : List (Item × Nat)) : Prop :=
  items.map Prod.fst = originals.map fun original => original.1.rename change

namespace SameItems

variable {change : String ↪ String} {items originals : List (Item × Nat)}

theorem emitted (same : SameItems change items originals) (original : Option Item)
    (later next : Nat) :
    SameItems change
      (Prover.emitted (original.map (Item.rename change)) later ++ items)
      (Prover.emitted original next ++ originals) := by
  cases original with
  | none => exact same
  | some original => exact congrArg (original.rename change :: ·) same

theorem length_eq (same : SameItems change items originals) :
    items.length = originals.length := by
  simpa using congrArg List.length same

theorem getElem? (same : SameItems change items originals) (calls : Nat) :
    items[calls]?.map Prod.fst =
      originals[calls]?.map fun original => original.1.rename change := by
  simpa using congrArg (·[calls]?) same

end SameItems

theorem Search.Sifts.phase_eq {search sifted : Search} (sifts : search.Sifts sifted) :
    search.phase = sifted.phase := by
  cases sifts
  rfl

section

variable {clauses : List Clause} {config : Config} {numbering : Nat ↪ Nat} {first : Nat}
  {start : Search}
  (parsed : ∀ clause ∈ clauses, clause.Parsed)
  (heads : ∀ clause ∈ clauses, clause.signature?.isSome)
  (numbers : ∀ number, (Prover.tryingAll clauses config).Kept first start number →
    numbering ((Prover.tryingAll clauses config).keptBefore first start number) = number)

include parsed heads numbers

/-- Every run that tries all clauses is followed by one that tries those of the predicates
only. -/
theorem Follows.runs_follower {fresh last number : Nat} {search after follower : Search}
    {items : List (Item × Nat)}
    (follows : Follows clauses config numbering first start fresh search number follower)
    (run : (Prover.tryingAll clauses config).Runs fresh search items last after) :
    ∃ originals next final,
      (Prover.scanning clauses config).Runs number follower originals next final ∧
        SameItems (renumberBy numbering) items originals ∧
        Follows clauses config numbering first start last after next final := by
  induction run generalizing number follower with
  | refl => exact ⟨[], number, follower, .refl _ _, rfl, follows⟩
  | step stepped _ induction =>
      rcases Prover.abreast_or_step heads follows.sifts follows.stocked _ with
        abreast | ⟨other, _, _, alone, sifts, _⟩
      · obtain ⟨next, final, original, followerStepped, rfl, onwards⟩ :=
          follows.step_follower parsed numbers abreast stepped
        obtain ⟨originals, last, state, run, same, ended⟩ := induction onwards
        exact ⟨_, last, state, .step followerStepped run, same.emitted original _ _, ended⟩
      · obtain ⟨rfl, rfl, rfl⟩ := alone.unique stepped
        exact induction (follows.keep other stepped sifts)

theorem Follows.runs_leader {fresh last number : Nat} {search final follower : Search}
    {originals : List (Item × Nat)}
    (follows : Follows clauses config numbering first start fresh search number follower)
    (run : (Prover.scanning clauses config).Runs number follower originals last final) :
    ∃ items later after,
      (Prover.tryingAll clauses config).Runs fresh search items later after ∧
        SameItems (renumberBy numbering) items originals ∧
        Follows clauses config numbering first start later after last final := by
  induction run generalizing fresh search with
  | refl => exact ⟨[], fresh, search, .refl _ _, rfl, follows⟩
  | step stepped _ induction =>
      obtain ⟨middle, between, alone, settled, abreast⟩ := follows.settle heads
      obtain ⟨later, after, leaderStepped, onwards⟩ :=
        settled.step_leader parsed numbers abreast stepped
      obtain ⟨items, last, state, run, same, ended⟩ := induction onwards
      exact ⟨_, last, state, alone.trans (.step leaderStepped run), same.emitted _ _ _, ended⟩

/-- The calls of both searches give the same answers, apart from names. -/
theorem Follows.gives_iff {fresh number : Nat} {search follower : Search}
    (follows : Follows clauses config numbering first start fresh search number follower)
    (calls : Nat) (answer : Option Item) :
    (∃ next, (Prover.tryingAll clauses config).Gives fresh search calls answer next) ↔
      ∃ original, answer = original.map (Item.rename (renumberBy numbering)) ∧
        ∃ next, (Prover.scanning clauses config).Gives number follower calls original next := by
  simp only [Prover.gives_iff]
  constructor
  · rintro ⟨next, ⟨item, items, last, after, rfl, found, run⟩ |
      ⟨rfl, items, after, few, ended, run⟩⟩
    · obtain ⟨originals, later, final, followed, same, _⟩ :=
        follows.runs_follower parsed heads numbers run
      have place := same.getElem? calls
      rw [found] at place
      obtain ⟨⟨original, later⟩, originalFound, rfl⟩ := Option.map_eq_some_iff.mp place.symm
      exact ⟨some original, rfl, later,
        .inl ⟨original, originals, _, final, rfl, originalFound, followed⟩⟩
    · obtain ⟨originals, later, final, followed, same, onwards⟩ :=
        follows.runs_follower parsed heads numbers run
      have finalEnded : final.phase = .finished :=
        (Prover.phase_rename_eq_finished_iff _).mp (onwards.sifts.phase_eq.symm.trans ended)
      exact ⟨none, rfl, later,
        .inr ⟨rfl, originals, final, same.length_eq ▸ few, finalEnded, followed⟩⟩
  · rintro ⟨_, rfl, next, ⟨original, originals, last, final, rfl, found, run⟩ |
      ⟨rfl, originals, final, few, ended, run⟩⟩
    · obtain ⟨items, later, after, led, same, _⟩ :=
        follows.runs_leader parsed heads numbers run
      have place := same.getElem? calls
      rw [found] at place
      obtain ⟨⟨item, later⟩, itemFound, rfl⟩ := Option.map_eq_some_iff.mp place
      exact ⟨later, .inl ⟨_, items, _, after, rfl, itemFound, led⟩⟩
    · obtain ⟨items, later, after, led, same, onwards⟩ :=
        follows.runs_leader parsed heads numbers run
      have afterEnded : after.phase = .finished :=
        onwards.sifts.phase_eq.trans ((Prover.phase_rename_eq_finished_iff _).mpr ended)
      exact ⟨later, .inr ⟨rfl, items, after, same.length_eq ▸ few, afterEnded, led⟩⟩

end

theorem follows_start {clauses : List Clause} (config : Config) {query : Term}
    (parsed : query.Parsed) {start : Search} (started : Search.start query = .ok start)
    (numbering : Nat ↪ Nat) (first : Nat) :
    Follows clauses config numbering first start first start first start := by
  have same := Search.start_renumberBy parsed started numbering
  obtain rfl := eq_of_start started
  exact
    { reached := ⟨[], .refl _ _⟩
      counted := (Prover.keptBefore_first _ _ _).symm
      sifts := by
        rw [same]
        exact .intro .nil
      stocked := Prover.stocks_of_no_choice
      stocks := Prover.stocks_of_no_choice }

end HornLogic
