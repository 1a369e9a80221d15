import HornLogic.Proofs.Unification.Measure

/-!
# Unification comes to an end

With the occurs check, unification under acyclic bindings calls itself only
finitely often in a row, so it can be written without a bound on its depth.  The
unbounded function gives the answer together with the fact that bounded
unification ends with it: this is how it knows that the bindings it goes on with
are acyclic.
-/

namespace HornLogic

/-- Two terms that are to be unified under bindings. -/
structure UnifyTask where
  left : Term
  right : Term
  bindings : Bindings

/-- A task is called by another one if its terms stand at the same place among
the arguments at the ends of the walks, and its bindings are those that the
arguments before them lead to. -/
inductive UnifyTask.CalledBy : (part whole : UnifyTask) → Prop where
  | args {left right first second : Term} {functor : String}
      {before after othersBefore othersAfter : List Term} {bindings current : Bindings}
      (different : bindings.walk left ≠ bindings.walk right)
      (leftEnd : bindings.walk left = .app functor (before ++ first :: after))
      (rightEnd : bindings.walk right =
        .app functor (othersBefore ++ second :: othersAfter))
      (samePlace : before.length = othersBefore.length)
      (sameLength : after.length = othersAfter.length)
      (reached : EndsWith
        (fun effort => unifyPairs (unify true effort) before othersBefore bindings)
        (.unified current)) :
      CalledBy ⟨first, second, current⟩ ⟨left, right, bindings⟩

namespace UnifyTask

theorem CalledBy.comesTo {part whole : UnifyTask} (called : part.CalledBy whole)
    (acyclic : whole.bindings.Acyclic) :
    part.bindings.Acyclic ∧
      ComesTo [part.left] [part.right] part.bindings
        [whole.left] [whole.right] whole.bindings ∧
      resolvedSize [part.left] whole.bindings < resolvedSize [whole.left] whole.bindings := by
  cases called with
  | @args left right first second functor before after othersBefore othersAfter bindings
      current different leftEnd rightEnd samePlace sameLength reached =>
      obtain ⟨_, effort, answers⟩ := reached
      have argsInPlay := inPlay_args_subset leftEnd rightEnd
      have firstsListed : ∀ arg ∈ before ++ first :: after, ∀ name ∈ arg.occurrences,
          name ∈ inPlay [left] [right] bindings := fun arg member name occurs =>
        argsInPlay (occurrences_left_inPlay _ bindings member name occurs)
      have secondsListed : ∀ arg ∈ othersBefore ++ second :: othersAfter,
          ∀ name ∈ arg.occurrences, name ∈ inPlay [left] [right] bindings :=
        fun arg member name occurs =>
          argsInPlay (occurrences_right_inPlay _ bindings member name occurs)
      obtain ⟨currentAcyclic, grown⟩ := unifyPairs_grows_acyclic acyclic
        (within_inPlay [left] [right] bindings)
        (fun arg member => firstsListed arg (List.mem_append_left _ member))
        (fun arg member => secondsListed arg (List.mem_append_left _ member))
        (answers effort (Nat.le_refl effort))
      refine ⟨currentAcyclic, ⟨grown.extension, inPlay_subset ?_ ?_ ?_⟩, ?_⟩
      · exact List.forall_mem_singleton.mpr (firstsListed first (by simp))
      · exact List.forall_mem_singleton.mpr (secondsListed second (by simp))
      · exact grown.within.variables_subset
      · have isArg : first ∈ before ++ first :: after := by simp
        exact Nat.lt_of_le_of_lt (resolvedSize_le_of_mem isArg bindings)
          (resolvedSize_args_lt acyclic leftEnd)

/-- No chain of calls that begins with acyclic bindings is endless. -/
theorem acc_calledBy (task : UnifyTask) (acyclic : task.bindings.Acyclic) :
    Acc CalledBy task :=
  .intro task fun part called =>
    have ⟨partAcyclic, comes, smaller⟩ := called.comesTo acyclic
    have := comes.falls (.left 0 0 smaller)
    acc_calledBy part partAcyclic
termination_by (countUnbound [task.left] [task.right] task.bindings,
  resolvedSize [task.left] task.bindings, 0)
decreasing_by exact this

end UnifyTask

/-- The answer that these bindings are, or a clash if there are none. -/
def Attempt.ofOption : Option Bindings → Attempt
  | some bindings => .unified bindings
  | none => .clash

theorem Attempt.ofOption_ne_unfinished (answer : Option Bindings) :
    Attempt.ofOption answer ≠ .unfinished := by
  cases answer <;> simp [Attempt.ofOption]

theorem Attempt.ofOption_eq_unified_iff {answer : Option Bindings} {bindings : Bindings} :
    Attempt.ofOption answer = .unified bindings ↔ answer = some bindings := by
  cases answer <;> simp [Attempt.ofOption]

theorem EndsWith.of_always {attempts : Nat → Attempt} {answer : Option Bindings}
    (always : ∀ effort, attempts effort = .ofOption answer) :
    EndsWith attempts (.ofOption answer) :=
  ⟨Attempt.ofOption_ne_unfinished answer, 0, fun effort _ => always effort⟩

/-- Binds a variable unless it occurs in what the term stands for. -/
def Bindings.Acyclic.bindUnlessOccurs {bindings : Bindings} (acyclic : bindings.Acyclic)
    (name : String) (term : Term) : Option Bindings :=
  if acyclic.occurs name term then none else some (bindings.bind name term)

theorem Bindings.Acyclic.bindChecked_eq_bindUnlessOccurs {bindings : Bindings}
    (acyclic : bindings.Acyclic) (name : String) (term : Term) :
    bindings.bindChecked true name term =
      .ofOption (acyclic.bindUnlessOccurs name term) := by
  rw [bindChecked, acyclic.occursIn_eq_occurs, bindUnlessOccurs]
  cases acyclic.occurs name term <;> rfl

/-- What the ends of two walks call for: an answer at once, or unification of
arguments. -/
inductive FirstMove where
  | done (answer : Option Bindings)
  | args (lefts rights : List Term)

/-- The first move of unification with the occurs check. -/
def firstMove (left right : Term) {bindings : Bindings} (acyclic : bindings.Acyclic) :
    FirstMove :=
  if bindings.walk left = bindings.walk right then .done (some bindings)
  else
    match bindings.walk left, bindings.walk right with
    | .var name, other => .done (acyclic.bindUnlessOccurs name other)
    | other, .var name => .done (acyclic.bindUnlessOccurs name other)
    | .app leftName lefts, .app rightName rights =>
        if leftName = rightName ∧ lefts.length = rights.length then .args lefts rights
        else .done none
    | _, _ => .done none

/-- What bounded unification makes of a first move with the effort that is
left. -/
def FirstMove.attempt (effort : Nat) (bindings : Bindings) : FirstMove → Attempt
  | .done answer => .ofOption answer
  | .args lefts rights => unifyPairs (unify true effort) lefts rights bindings

theorem unify_eq_firstMove (effort : Nat) (left right : Term) {bindings : Bindings}
    (acyclic : bindings.Acyclic) :
    unify true (effort + 1) left right bindings =
      (firstMove left right acyclic).attempt effort bindings := by
  rw [unify, firstMove]
  by_cases equal : bindings.walk left = bindings.walk right
  · rw [if_pos equal, if_pos equal]
    rfl
  · rw [if_neg equal, if_neg equal]
    have bound := acyclic.bindChecked_eq_bindUnlessOccurs
    cases bindings.walk left with
    | var name => exact bound name _
    | atom leftName =>
        cases bindings.walk right with
        | var name => exact bound name _
        | atom rightName => rfl
        | app rightName rights => rfl
    | app leftName lefts =>
        cases bindings.walk right with
        | var name => exact bound name _
        | atom rightName => rfl
        | app rightName rights =>
            by_cases agree : leftName = rightName ∧ lefts.length = rights.length
            · simp only [if_pos agree]
              rfl
            · simp only [if_neg agree]
              rfl

theorem walks_of_firstMove {left right : Term} {bindings : Bindings}
    {acyclic : bindings.Acyclic} {lefts rights : List Term}
    (move : firstMove left right acyclic = .args lefts rights) :
    ∃ functor, bindings.walk left = .app functor lefts ∧
      bindings.walk right = .app functor rights := by
  unfold firstMove at move
  split at move
  · cases move
  · split at move
    · cases move
    · cases move
    next leftName _ rightName _ leftEnd rightEnd =>
      split at move
      next agree =>
        cases move
        exact ⟨leftName, leftEnd, agree.1 ▸ rightEnd⟩
      next => cases move
    · cases move

theorem UnifyEnds.of_firstMove {left right : Term} {bindings : Bindings}
    {acyclic : bindings.Acyclic} {move : FirstMove} {answer : Attempt}
    (begins : firstMove left right acyclic = move)
    (ends : EndsWith (fun effort => move.attempt effort bindings) answer) :
    UnifyEnds true left right bindings answer := by
  obtain ⟨finished, enough, answers⟩ := ends
  refine ⟨finished, enough + 1, fun effort more => ?_⟩
  obtain ⟨less, rfl⟩ : ∃ less, effort = less + 1 := ⟨effort - 1, by omega⟩
  calc
    unify true (less + 1) left right bindings = move.attempt less bindings := by
      rw [unify_eq_firstMove less left right acyclic, begins]
    _ = answer := answers less (by omega)

theorem comesTo_args {left right : Term} {bindings : Bindings} (acyclic : bindings.Acyclic)
    {lefts rights : List Term} (move : firstMove left right acyclic = .args lefts rights) :
    ComesTo lefts rights bindings [left] [right] bindings ∧
      resolvedSize lefts bindings < resolvedSize [left] bindings := by
  obtain ⟨functor, leftEnd, rightEnd⟩ := walks_of_firstMove move
  exact ⟨⟨.refl bindings, inPlay_args_subset leftEnd rightEnd⟩,
    resolvedSize_args_lt acyclic leftEnd⟩

theorem comesTo_first (left right : Term) (lefts rights : List Term) (bindings : Bindings) :
    ComesTo [left] [right] bindings (left :: lefts) (right :: rights) bindings ∧
      resolvedSize [left] bindings ≤ resolvedSize (left :: lefts) bindings := by
  refine ⟨⟨.refl bindings, inPlay_subset ?_ ?_ (variables_inPlay _ _ bindings)⟩,
    resolvedSize_le_of_mem (by simp) bindings⟩
  · exact List.forall_mem_singleton.mpr
      (occurrences_left_inPlay _ bindings List.mem_cons_self)
  · exact List.forall_mem_singleton.mpr
      (occurrences_right_inPlay _ bindings List.mem_cons_self)

theorem comesTo_rest {left right : Term} (lefts rights : List Term)
    {bindings extended : Bindings} (acyclic : bindings.Acyclic)
    (ends : UnifyEnds true left right bindings (.unified extended)) :
    extended.Acyclic ∧
      ComesTo lefts rights extended (left :: lefts) (right :: rights) bindings ∧
      resolvedSize lefts bindings < resolvedSize (left :: lefts) bindings := by
  obtain ⟨_, effort, answers⟩ := ends
  have start : bindings.GrewFrom bindings
      (inPlay (left :: lefts) (right :: rights) bindings) :=
    ⟨.refl bindings, acyclic.chainsEnd, within_inPlay _ _ bindings⟩
  obtain ⟨extendedAcyclic, grown⟩ := unify_grows_acyclic acyclic start
    (occurrences_left_inPlay _ bindings List.mem_cons_self)
    (occurrences_right_inPlay _ bindings List.mem_cons_self)
    (answers effort (Nat.le_refl effort))
  refine ⟨extendedAcyclic, ⟨grown.extension, inPlay_subset ?_ ?_ ?_⟩, ?_⟩
  · intro other member
    exact occurrences_left_inPlay _ bindings (List.mem_cons_of_mem left member)
  · intro other member
    exact occurrences_right_inPlay _ bindings (List.mem_cons_of_mem right member)
  · exact grown.within.variables_subset
  · have positive := (left.substitute bindings).size_pos
    simp only [resolvedSize, List.map_cons, Term.sizeArgs]
    omega

mutual

/-- Unification with the occurs check under acyclic bindings, without a bound on
its depth. -/
def unifyUnbounded (left right : Term) (bindings : Bindings) (acyclic : bindings.Acyclic) :
    { answer : Option Bindings //
      UnifyEnds true left right bindings (.ofOption answer) } :=
  match move : firstMove left right acyclic with
  | .done answer => ⟨answer, .of_firstMove move (.of_always fun _ => rfl)⟩
  | .args lefts rights =>
      have := (comesTo_args acyclic move).1.falls (.left 1 0 (comesTo_args acyclic move).2)
      let ⟨answer, ends⟩ := unifyPairsUnbounded lefts rights bindings acyclic
      ⟨answer, .of_firstMove move ends⟩
termination_by (countUnbound [left] [right] bindings, resolvedSize [left] bindings, 0)
decreasing_by exact this

def unifyPairsUnbounded (lefts rights : List Term) (bindings : Bindings)
    (acyclic : bindings.Acyclic) :
    { answer : Option Bindings // EndsWith
      (fun effort => unifyPairs (unify true effort) lefts rights bindings)
      (.ofOption answer) } :=
  match lefts, rights with
  | left :: lefts, right :: rights =>
      match unifyUnbounded left right bindings acyclic with
      | ⟨none, clash⟩ => ⟨none, clash.clash_pairs lefts rights⟩
      | ⟨some extended, first⟩ =>
          have ⟨extendedAcyclic, comes, smaller⟩ := comesTo_rest lefts rights acyclic first
          have := comes.falls (.left 1 1 smaller)
          let ⟨answer, rest⟩ := unifyPairsUnbounded lefts rights extended extendedAcyclic
          ⟨answer, first.unified_pairs rest⟩
  | [], _ => ⟨some bindings, .of_always fun _ => rfl⟩
  | _ :: _, [] => ⟨some bindings, .of_always fun _ => rfl⟩
termination_by (countUnbound lefts rights bindings, resolvedSize lefts bindings, 1)
decreasing_by
  · have ⟨comes, notLarger⟩ := comesTo_first left right lefts rights bindings
    exact comes.falls (.right' _ notLarger Nat.zero_lt_one)
  · exact this

end

/-- With the occurs check, unification under acyclic bindings finishes. -/
theorem unify_finishes (left right : Term) {bindings : Bindings}
    (acyclic : bindings.Acyclic) :
    ∃ effort, unify true effort left right bindings ≠ .unfinished := by
  obtain ⟨finished, effort, answers⟩ := (unifyUnbounded left right bindings acyclic).2
  have answered := answers effort (Nat.le_refl effort)
  exact ⟨effort, fun unfinished => finished (answered.symm.trans unfinished)⟩

/-- With the occurs check, unification under acyclic bindings ends with bindings or with
a clash. -/
theorem exists_unifyEnds (left right : Term) {bindings : Bindings}
    (acyclic : bindings.Acyclic) :
    ∃ answer, UnifyEnds true left right bindings (.ofOption answer) :=
  ⟨_, (unifyUnbounded left right bindings acyclic).2⟩

/-- With the occurs check, unification under acyclic bindings terminates: neither
it nor the check calls itself endlessly often in a row, and both give what they
give when they are written without a bound on their depth. -/
theorem unification_wellFounded (left right : Term) {bindings : Bindings}
    (acyclic : bindings.Acyclic) :
    Acc UnifyTask.CalledBy ⟨left, right, bindings⟩ ∧
      WellFounded bindings.Opens ∧
      (∀ name term, bindings.occursIn name term = some (acyclic.occurs name term)) ∧
      UnifyEnds true left right bindings
        (.ofOption (unifyUnbounded left right bindings acyclic).1) :=
  ⟨UnifyTask.acc_calledBy ⟨left, right, bindings⟩ acyclic, acyclic.wellFounded_opens,
    acyclic.occursIn_eq_occurs, (unifyUnbounded left right bindings acyclic).2⟩

/-- Under bindings that double the size of a term twice, unification without a
bound binds a variable deep below `X`. -/
theorem unifyUnbounded_under_doubling :
    ∃ acyclic : (Bindings.ofList [("X", .app "f" [.var "Y", .var "Y"]),
        ("Y", .app "f" [.var "Z", .var "W"])]).Acyclic,
      Acc UnifyTask.CalledBy ⟨.var "X", .app "f" [.var "V", .app "f" [.atom "a", .var "Z"]],
        Bindings.ofList [("X", .app "f" [.var "Y", .var "Y"]),
          ("Y", .app "f" [.var "Z", .var "W"])]⟩ ∧
      (unifyUnbounded (.var "X") (.app "f" [.var "V", .app "f" [.atom "a", .var "Z"]])
        (Bindings.ofList [("X", .app "f" [.var "Y", .var "Y"]),
          ("Y", .app "f" [.var "Z", .var "W"])]) acyclic).1 =
        some (Bindings.ofList [("X", .app "f" [.var "Y", .var "Y"]),
          ("Y", .app "f" [.var "Z", .var "W"]), ("V", .app "f" [.var "Z", .var "W"]),
          ("Z", .atom "a"), ("W", .atom "a")]) := by
  have built : unify true 2 (.app "p" [.var "X", .var "Y"])
      (.app "p" [.app "f" [.var "Y", .var "Y"], .app "f" [.var "Z", .var "W"]]) .empty =
        .unified (Bindings.ofList [("X", .app "f" [.var "Y", .var "Y"]),
          ("Y", .app "f" [.var "Z", .var "W"])]) := by
    decide
  have acyclic := (unified_solutions Bindings.acyclic_empty built).1
  have bounded : UnifyEnds true (.var "X")
      (.app "f" [.var "V", .app "f" [.atom "a", .var "Z"]])
      (Bindings.ofList [("X", .app "f" [.var "Y", .var "Y"]),
        ("Y", .app "f" [.var "Z", .var "W"])])
      (.unified (Bindings.ofList [("X", .app "f" [.var "Y", .var "Y"]),
        ("Y", .app "f" [.var "Z", .var "W"]), ("V", .app "f" [.var "Z", .var "W"]),
        ("Z", .atom "a"), ("W", .atom "a")])) :=
    unifyEnds_iff.mpr ⟨by simp, 4, by decide⟩
  obtain ⟨accessible, _, _, unbounded⟩ := unification_wellFounded (.var "X")
    (.app "f" [.var "V", .app "f" [.atom "a", .var "Z"]]) acyclic
  refine ⟨acyclic, accessible, ?_⟩
  exact Attempt.ofOption_eq_unified_iff.mp (unbounded.unique bounded)

end HornLogic
