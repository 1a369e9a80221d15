import HornLogic.Proofs.Search.LimitedPrefix
import HornLogic.Session.Basic

/-!
# What a session shows of a search

The report of a query shows solutions until the search ends, yields a fault or has one more
item than may be shown, and its last line tells which of these it was.  The item beyond the
limit is only looked for.  Whether it is a solution or a fault makes no difference.
-/

namespace HornLogic

namespace Prover

/-- The first items of a search, up to this number, or all its items if there are fewer. -/
structure Yields (prover : Prover) (fresh : Nat) (search : Search) (count : Nat)
    (items : List Item) : Prop where
  few : items.length ≤ count
  gives : ∀ calls < count, ∃ next, prover.Gives fresh search calls items[calls]? next

variable {prover : Prover} {fresh count : Nat} {search : Search} {items : List Item}

theorem Gives.shift {effort middle calls next : Nat} {between : Search} {item : Item}
    {answer : Option Item}
    (first : prover.next effort fresh search = .item item middle between)
    (gives : prover.Gives fresh search (calls + 1) answer next) :
    prover.Gives middle between calls answer next := by
  obtain ⟨larger, after, answered⟩ := gives
  have returns : prover.next larger fresh search ≠ .interrupted := by
    intro interrupted
    simp [nthNext, interrupted, Pull.answer?] at answered
  have same : prover.next larger fresh search = .item item middle between := by
    rw [← first]
    exact @nthNext_unique prover larger effort 0 _ _ _ _ rfl rfl returns (by simp [first])
  simp only [nthNext, same] at answered
  exact ⟨larger, after, answered⟩

theorem Yields.exhausted (yields : prover.Yields fresh search (count + 1) []) :
    ∃ effort later after, prover.next effort fresh search = .exhausted later after := by
  obtain ⟨later, effort, after, answered⟩ := yields.gives 0 (Nat.succ_pos count)
  rcases Pull.answer?_eq_some_iff.mp answered with ⟨_, given, _⟩ | ⟨_, ended⟩
  · cases given
  · exact ⟨effort, later, after, ended⟩

theorem Yields.first {item : Item}
    (yields : prover.Yields fresh search (count + 1) (item :: items)) :
    ∃ effort middle between, prover.next effort fresh search = .item item middle between ∧
      prover.Yields middle between count items := by
  obtain ⟨middle, effort, between, answered⟩ := yields.gives 0 (Nat.succ_pos count)
  rcases Pull.answer?_eq_some_iff.mp answered with ⟨_, given, first⟩ | ⟨given, _⟩
  · cases given
    refine ⟨effort, middle, between, first, Nat.le_of_succ_le_succ yields.few, ?_⟩
    intro calls before
    obtain ⟨next, gives⟩ := yields.gives (calls + 1) (Nat.succ_lt_succ before)
    exact ⟨next, gives.shift first⟩
  · cases given

/-- No item comes after a fault. -/
theorem Yields.fault_is_last (yields : prover.Yields fresh search count items) {place : Nat}
    {fault : Fault} (found : items[place]? = some (.error fault)) :
    items.length = place + 1 := by
  have inside : place < items.length := (List.getElem?_eq_some_iff.mp found).1
  by_contra more
  have later : place + 1 < items.length := by omega
  obtain ⟨_, _, _, answered⟩ := yields.gives place (inside.trans_le yields.few)
  rw [found] at answered
  obtain ⟨_, given, faulted⟩ | ⟨given, _⟩ := Pull.answer?_eq_some_iff.mp answered
  · cases given
    obtain ⟨number, gives⟩ := yields.gives (place + 1) (later.trans_le yields.few)
    obtain ⟨effort, last, ended⟩ := nthNext_after_fault faulted (Nat.lt_succ_self place)
    have nothing := (gives.unique
      ⟨effort, last, Pull.answer?_eq_some_iff.mpr (.inr ⟨rfl, ended⟩)⟩).1
    rw [List.getElem?_eq_getElem later] at nothing
    cases nothing
  · cases given

end Prover

/-! ## The lines of a report -/

namespace Session

def stopLine (limit : Nat) : String :=
  "... (stopped after " ++ limit.repr ++ " solutions)"

def errorLine (fault : Fault) : String :=
  "error: " ++ fault.message

/-- The lines for the items of a search, after `found` solutions. -/
def reportLines (limit : Nat) : (found : Nat) → List Item → List String
  | found, [] => [if 0 < found then "yes" else "no"]
  | found, .error fault :: _ => [if found = limit then stopLine limit else errorLine fault]
  | found, .ok solution :: items =>
      if found = limit then [stopLine limit]
      else solution.text :: reportLines limit (found + 1) items

theorem reportLines_of_full (limit : Nat) (item : Item) (items : List Item) :
    reportLines limit limit (item :: items) = [stopLine limit] := by
  cases item with
  | error fault => rw [reportLines, if_pos rfl]
  | ok solution => rw [reportLines, if_pos rfl]

variable {prover : Prover} {limit found fresh : Nat} {search : Search}

theorem report_eq_of_answered {effort larger : Nat} {answer : List String × Nat}
    (answered : report prover limit effort fresh found search = some answer)
    (enough : effort ≤ larger) :
    report prover limit larger fresh found search = some answer := by
  induction effort generalizing larger fresh found search answer with
  | zero => cases answered
  | succ effort induction =>
      obtain ⟨larger, rfl⟩ : ∃ rest, larger = rest + 1 :=
        Nat.exists_eq_succ_of_ne_zero (by omega)
      have enough : effort ≤ larger := Nat.le_of_succ_le_succ enough
      simp only [report] at answered ⊢
      have same : prover.next effort fresh search ≠ .interrupted →
          prover.next larger fresh search = prover.next effort fresh search :=
        fun returns => Prover.next_eq_of_answered returns enough
      cases outcome : prover.next effort fresh search with
      | interrupted => simp [outcome] at answered
      | exhausted later after =>
          rw [outcome] at answered
          rw [same (by simp [outcome]), outcome]
          exact answered
      | item item middle between =>
          rw [outcome] at answered
          rw [same (by simp [outcome]), outcome]
          by_cases full : found = limit
          · simpa [full] using answered
          · simp only [full, if_false] at answered ⊢
            cases item with
            | error fault => exact answered
            | ok solution =>
                obtain ⟨rest, restAnswered, rfl⟩ := Option.map_eq_some_iff.mp answered
                exact Option.map_eq_some_iff.mpr ⟨rest, induction restAnswered enough, rfl⟩

/-- A search whose first items can be computed is reported. -/
theorem exists_report {items : List Item} {count : Nat} (limited : limit = found + count)
    (yields : prover.Yields fresh search (count + 1) items) :
    ∃ effort later, report prover limit effort fresh found search =
      some (reportLines limit found items, later) := by
  induction items generalizing found count fresh search with
  | nil =>
      obtain ⟨effort, later, after, ended⟩ := yields.exhausted
      exact ⟨effort + 1, later, by simp [report, ended, reportLines]⟩
  | cons item items induction =>
      obtain ⟨effort, middle, between, first, onwards⟩ := yields.first
      by_cases full : found = limit
      · subst full
        refine ⟨effort + 1, middle, ?_⟩
        rw [reportLines_of_full, report, first]
        exact if_pos rfl
      · cases item with
        | error fault =>
            refine ⟨effort + 1, middle, ?_⟩
            simp only [report, first, reportLines, if_neg full, errorLine]
        | ok solution =>
            obtain ⟨rest, rfl⟩ : ∃ rest, count = rest + 1 :=
              Nat.exists_eq_succ_of_ne_zero (by omega)
            obtain ⟨restEffort, later, reported⟩ :=
              @induction (found + 1) middle between rest (by omega) onwards
            refine ⟨max effort restEffort + 1, later, ?_⟩
            have firstAgain : prover.next (max effort restEffort) fresh search =
                .item (.ok solution) middle between := by
              rw [Prover.next_eq_of_answered (by simp [first]) (Nat.le_max_left _ _), first]
            have reportedAgain := report_eq_of_answered reported (Nat.le_max_right effort _)
            simp only [report, firstAgain, if_neg full, reportedAgain, reportLines, Option.map_some]

def solutionLines (items : List Item) : List String :=
  items.filterMap fun item => item.toOption.map Solution.text

def FaultsLast (items : List Item) : Prop :=
  ∀ place fault, items[place]? = some (.error fault) → items.length = place + 1

theorem FaultsLast.later {item : Item} {items : List Item} (ordered : FaultsLast (item :: items)) :
    FaultsLast items := by
  intro place fault found
  simpa using ordered (place + 1) fault found

theorem FaultsLast.eq_nil {fault : Fault} {items : List Item}
    (ordered : FaultsLast (.error fault :: items)) : items = [] := by
  simpa using ordered 0 fault rfl

theorem FaultsLast.unique {items : List Item} (ordered : FaultsLast items) {fault other : Fault}
    (member : .error fault ∈ items) (otherMember : .error other ∈ items) : fault = other := by
  obtain ⟨place, found⟩ := List.mem_iff_getElem?.mp member
  obtain ⟨otherPlace, otherFound⟩ := List.mem_iff_getElem?.mp otherMember
  obtain rfl : place = otherPlace := by
    have length := ordered place fault found
    have otherLength := ordered otherPlace other otherFound
    omega
  rw [found] at otherFound
  cases otherFound
  rfl

/-- How the report of some items ends that come after `found` solutions. -/
inductive Closing (limit found : Nat) (items : List Item) : String → Prop where
  | stopped (more : limit < found + items.length)
      (faultless : ∀ fault, .error fault ∉ items.take (limit - found)) :
      Closing limit found items (stopLine limit)
  | failed {fault : Fault} (faulty : .error fault ∈ items.take (limit - found)) :
      Closing limit found items (errorLine fault)
  | ended (few : found + items.length ≤ limit) (faultless : ∀ fault, .error fault ∉ items) :
      Closing limit found items (if 0 < found + items.length then "yes" else "no")

theorem Closing.after_solution {items : List Item} {last : String} (before : found < limit)
    (closing : Closing limit (found + 1) items last) (solution : Solution) :
    Closing limit found (.ok solution :: items) last := by
  have shown : (.ok solution :: items).take (limit - found) =
      .ok solution :: items.take (limit - (found + 1)) := by
    rw [show limit - found = limit - (found + 1) + 1 by omega, List.take_succ_cons]
  cases closing with
  | stopped more faultless =>
      refine .stopped (by simp only [List.length_cons]; omega) ?_
      rw [shown]
      simpa using faultless
  | failed faulty =>
      refine .failed ?_
      rw [shown]
      exact List.mem_cons_of_mem _ faulty
  | ended few faultless =>
      have length : found + (.ok solution :: items : List Item).length =
          found + 1 + items.length := by
        simp only [List.length_cons]
        omega
      rw [← length]
      exact .ended (length ▸ few) (by simpa using faultless)

/-- A report shows the solutions among the first items and then its last line. -/
theorem reportLines_eq {items : List Item} (ordered : FaultsLast items) (within : found ≤ limit) :
    ∃ last, reportLines limit found items =
        solutionLines (items.take (limit - found)) ++ [last] ∧
      Closing limit found items last := by
  induction items generalizing found with
  | nil => exact ⟨_, by simp [reportLines, solutionLines], .ended within (by simp)⟩
  | cons item items induction =>
      rcases within.eq_or_lt with rfl | before
      · refine ⟨stopLine found, ?_, .stopped (by simp) (by simp)⟩
        simp [reportLines_of_full, solutionLines]
      · have more : limit - found = limit - (found + 1) + 1 := by omega
        cases item with
        | error fault =>
            obtain rfl := ordered.eq_nil
            refine ⟨errorLine fault, ?_, .failed ?_⟩
            · simp [reportLines, before.ne, more, solutionLines, Except.toOption]
            · simp [more]
        | ok solution =>
            obtain ⟨last, lines, closing⟩ := induction ordered.later before
            refine ⟨last, ?_, closing.after_solution before solution⟩
            rw [reportLines, if_neg before.ne, lines, more]
            simp [solutionLines, Except.toOption]

theorem head?_stopLine (limit : Nat) : (stopLine limit).toList.head? = some '.' := by
  unfold stopLine
  simp

theorem head?_errorLine (fault : Fault) : (errorLine fault).toList.head? = some 'e' := by
  simp [errorLine]

theorem errorLine_ne_stopLine (fault : Fault) (limit : Nat) :
    errorLine fault ≠ stopLine limit := by
  intro same
  have begins := head?_errorLine fault
  rw [same, head?_stopLine] at begins
  cases begins

theorem head?_closingWord (found : Nat) :
    (if 0 < found then "yes" else "no").toList.head? ≠ some '.' ∧
      (if 0 < found then "yes" else "no").toList.head? ≠ some 'e' := by
  split
  · exact ⟨by simp, by simp⟩
  · exact ⟨by simp, by simp⟩

namespace Closing

variable {items : List Item} {last : String}

theorem eq_stopLine_iff (closing : Closing limit 0 items last) :
    last = stopLine limit ↔
      limit < items.length ∧ ∀ item ∈ items.take limit, ∃ solution, item = .ok solution := by
  have solutions_iff : (∀ fault, .error fault ∉ items.take limit) ↔
      ∀ item ∈ items.take limit, ∃ solution, item = .ok solution := by
    constructor
    · intro faultless item member
      cases item with
      | error fault => exact absurd member (faultless fault)
      | ok solution => exact ⟨solution, rfl⟩
    · intro solutions fault member
      obtain ⟨solution, same⟩ := solutions _ member
      cases same
  rw [← solutions_iff]
  cases closing with
  | stopped more faultless =>
      rw [Nat.zero_add] at more
      exact ⟨fun _ => ⟨more, faultless⟩, fun _ => rfl⟩
  | failed faulty =>
      exact ⟨fun same => absurd same (errorLine_ne_stopLine _ _),
        fun stopped => absurd faulty (stopped.2 _)⟩
  | ended few faultless =>
      constructor
      · intro same
        have begins := (head?_closingWord (0 + items.length)).1
        rw [same, head?_stopLine] at begins
        exact absurd rfl begins
      · intro stopped
        omega

theorem exists_eq_errorLine_iff (closing : Closing limit 0 items last) :
    (∃ fault, last = errorLine fault) ↔ ∃ fault, .error fault ∈ items.take limit := by
  cases closing with
  | stopped more faultless =>
      exact ⟨fun ⟨fault, same⟩ => absurd same.symm (errorLine_ne_stopLine fault limit),
        fun ⟨fault, member⟩ => absurd member (faultless fault)⟩
  | @failed fault faulty => exact ⟨fun _ => ⟨fault, faulty⟩, fun _ => ⟨fault, rfl⟩⟩
  | ended few faultless =>
      constructor
      · rintro ⟨fault, same⟩
        have begins := (head?_closingWord (0 + items.length)).2
        rw [same, head?_errorLine] at begins
        exact absurd rfl begins
      · rintro ⟨fault, member⟩
        exact absurd (List.mem_of_mem_take member) (faultless fault)

theorem eq_errorLine (closing : Closing limit 0 items last) (ordered : FaultsLast items)
    {fault : Fault} (member : .error fault ∈ items.take limit) : last = errorLine fault := by
  cases closing with
  | stopped more faultless => exact absurd member (faultless fault)
  | failed faulty =>
      rw [ordered.unique (List.mem_of_mem_take member) (List.mem_of_mem_take faulty)]
  | ended few faultless => exact absurd (List.mem_of_mem_take member) (faultless fault)

theorem eq_word (closing : Closing limit 0 items last) (unstopped : last ≠ stopLine limit)
    (faultless : ∀ fault, last ≠ errorLine fault) :
    last = if solutionLines (items.take limit) = [] then "no" else "yes" := by
  cases closing with
  | stopped more _ => exact absurd rfl unstopped
  | failed faulty => exact absurd rfl (faultless _)
  | ended few solutions =>
      rw [Nat.zero_add] at few
      rw [List.take_of_length_le few, Nat.zero_add]
      cases items with
      | nil => rfl
      | cons item items =>
          cases item with
          | error fault => exact absurd List.mem_cons_self (solutions fault)
          | ok solution => simp [solutionLines, Except.toOption]

end Closing

/-! ## Queries -/

/-- The report of a query that can be run shows the solutions among the first items that may
be shown, in their order, and then one last line. -/
theorem query_reports_items (session : Session) {text : String} {goal : Term} {search : Search}
    {items : List Item} (parsed : Term.parseQuery text = .ok goal)
    (started : Search.start goal = .ok search)
    (yields : (session.kb.prover session.config wrappingNext).Yields session.fresh search
      (session.limit + 1) items) :
    ∃ effort fresh last,
      (∀ larger, effort ≤ larger → session.query larger text =
        some
          { session := { session with fresh }
            lines := solutionLines (items.take session.limit) ++ [last] }) ∧
      (last = stopLine session.limit ↔
        session.limit < items.length ∧
          ∀ item ∈ items.take session.limit, ∃ solution, item = .ok solution) ∧
      ((∃ fault, last = errorLine fault) ↔
        ∃ fault, .error fault ∈ items.take session.limit) ∧
      (∀ fault, .error fault ∈ items.take session.limit → last = errorLine fault) ∧
      (last ≠ stopLine session.limit → (∀ fault, last ≠ errorLine fault) →
        last = if solutionLines (items.take session.limit) = [] then "no" else "yes") := by
  have ordered : FaultsLast items := fun _ _ found => yields.fault_is_last found
  obtain ⟨effort, fresh, reported⟩ := exists_report (Nat.zero_add session.limit).symm yields
  obtain ⟨last, lines, closing⟩ := reportLines_eq ordered (Nat.zero_le session.limit)
  rw [Nat.sub_zero] at lines
  refine ⟨effort, fresh, last, ?_, ?_⟩
  · intro larger enough
    simp only [query, parsed, started, report_eq_of_answered reported enough, lines,
      Option.map_some]
  · exact ⟨closing.eq_stopLine_iff, closing.exists_eq_errorLine_iff,
      fun _ member => closing.eq_errorLine ordered member, closing.eq_word⟩

/-- The second solution of `p(X)` lies beyond the depth limit, and one solution is shown. -/
def shallowSession : Session where
  kb := .linked
  config := { maxDepth := some 0 }
  limit := 1

/-- The fault beyond the limit stops the report like a solution. -/
theorem report_stops_before_fault :
    ∃ effort fresh, shallowSession.query effort "?- p(X)." =
      some
        { session := { shallowSession with fresh }
          lines := ["X = a", "... (stopped after 1 solutions)"] } := by
  have parsed : Term.parseQuery "?- p(X)." = .ok (.app "p" [.var "X"]) := by decide +kernel
  have yields : (shallowSession.kb.prover shallowSession.config wrappingNext).Yields
      shallowSession.fresh ⟨["X"], .proving [⟨.app "p" [.var "X"], 0⟩] .empty, []⟩
      (shallowSession.limit + 1)
      [.ok ⟨true, .ofList [("X", .atom "a")]⟩, .error (.depthLimit 0)] := by
    refine ⟨by decide, fun calls before => ?_⟩
    match calls, before with
    | 0, _ => exact ⟨1, 20, _, rfl⟩
    | 1, _ => exact ⟨2, 20, _, rfl⟩
  obtain ⟨effort, fresh, last, reported, stopped, _⟩ :=
    query_reports_items shallowSession parsed rfl yields
  refine ⟨effort, fresh, ?_⟩
  obtain rfl : last = stopLine shallowSession.limit := by
    refine stopped.mpr ⟨by decide, fun item member => ?_⟩
    obtain rfl := List.mem_singleton.mp member
    exact ⟨_, rfl⟩
  exact reported effort (Nat.le_refl effort)

end Session

end HornLogic
