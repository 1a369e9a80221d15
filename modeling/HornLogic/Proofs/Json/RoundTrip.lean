import HornLogic.Json.Codec
import HornLogic.Proofs.Bindings.Acyclicity
import HornLogic.Proofs.Json.WrittenValues

/-!
# Round trips through JSON

Terms, clauses, signatures, bindings, solutions and settings are read back from
the text that they are written as.  A decoder uses up one level for every array
and object that it enters, so it needs as many levels as what it decodes nests
deep, and nesting beyond the limit is the only thing that can keep a term from
being read back.
-/

namespace HornLogic

namespace Json

namespace Value

mutual

/-- How deep the arrays and objects of a value nest. -/
def nesting : Value → Nat
  | .array items => nestingItems items + 1
  | .object members => nestingMembers members + 1
  | _ => 0

def nestingItems : List Value → Nat
  | [] => 0
  | item :: items => max item.nesting (nestingItems items)

def nestingMembers : List (String × Value) → Nat
  | [] => 0
  | (_, value) :: members => max value.nesting (nestingMembers members)

end

theorem nestingItems_le_iff {items : List Value} {levels : Nat} :
    nestingItems items ≤ levels ↔ ∀ item ∈ items, item.nesting ≤ levels := by
  induction items with
  | nil => simp [nestingItems]
  | cons item items induction => simp [nestingItems, induction]

theorem nestingMembers_le_iff {members : List (String × Value)} {levels : Nat} :
    nestingMembers members ≤ levels ↔ ∀ member ∈ members, member.2.nesting ≤ levels := by
  induction members with
  | nil => simp [nestingMembers]
  | cons member members induction =>
      obtain ⟨name, value⟩ := member
      simp only [nestingMembers, max_le_iff, induction, List.forall_mem_cons]

theorem nesting_pair (first second : String) (left right : Value) :
    (object [(first, left), (second, right)]).nesting =
      max left.nesting right.nesting + 1 := by
  simp [nesting, nestingMembers]

theorem fields?_pair {first second : String} (differ : first ≠ second) (left right : Value) :
    (object [(first, left), (second, right)]).fields? [first, second] =
      some [some left, some right] := by
  have missed : (second == first) = false := by simpa using differ.symm
  simp [fields?, List.lookup_cons, differ, missed]

theorem Plain.pair {first second : String} {left right : Value} (leftPlain : left.Plain)
    (rightPlain : right.Plain) : (Value.object [(first, left), (second, right)]).Plain := by
  refine .object fun member belongs => ?_
  simp only [List.mem_cons, List.not_mem_nil, or_false] at belongs
  rcases belongs with rfl | rfl
  · exact leftPlain
  · exact rightPlain

end Value

theorem ite_bind {α β : Type} {fits : Prop} [Decidable fits] (value : α)
    (next : α → Option β) :
    (if fits then some value else none).bind next = if fits then next value else none := by
  split <;> rfl

/-- A list is decoded item by item, if all its items are. -/
theorem mapM_map_eq_ite {α β : Type} {encode : α → β} {decode : β → Option α}
    {fits : α → Prop} [DecidablePred fits] {items : List α}
    (decoded : ∀ item ∈ items,
      decode (encode item) = if fits item then some item else none) :
    (items.map encode).mapM decode =
      if ∀ item ∈ items, fits item then some items else none := by
  induction items with
  | nil => rfl
  | cons item items induction =>
      obtain ⟨first, others⟩ := List.forall_mem_cons.1 decoded
      rw [List.map_cons, List.mapM_cons, first, induction others]
      by_cases firstFits : fits item
      · by_cases othersFit : ∀ item ∈ items, fits item
        · rw [if_pos firstFits, if_pos othersFit,
            if_pos (List.forall_mem_cons.2 ⟨firstFits, othersFit⟩)]
          rfl
        · rw [if_pos firstFits, if_neg othersFit,
            if_neg fun every => othersFit (List.forall_mem_cons.1 every).2]
          rfl
      · rw [if_neg firstFits, if_neg fun every => firstFits (List.forall_mem_cons.1 every).1]
        rfl

/-- A JSON value stands for something if it has a written form, and a decoder
makes that of it if it may enter as many levels as there are. -/
structure StandsFor {α : Type} (ofJson? : (levels : Nat) → Value → Option α) (json : Value)
    (meant : α) : Prop where
  plain : json.Plain
  decoded : ∀ levels,
    ofJson? levels json = if json.nesting ≤ levels then some meant else none

theorem StandsFor.decode?_text_eq {α : Type} {ofJson? : (levels : Nat) → Value → Option α}
    {json : Value} {meant : α} (stands : StandsFor ofJson? json meant) :
    decode? ofJson? json.text =
      if json.nesting ≤ nestingLimit then some meant else none := by
  rw [decode?, parse?_text stands.plain]
  exact stands.decoded nestingLimit

end Json

open Json

namespace Term

theorem toJsonArgs_eq_map (terms : List Term) : toJsonArgs terms = terms.map toJson := by
  induction terms with
  | nil => rfl
  | cons term terms induction => rw [toJsonArgs, induction, List.map_cons]

theorem toJson_app (functor : String) (args : List Term) :
    (app functor args).toJson = .object [("Compound", .object
      [("functor", .string functor), ("args", .array (args.map toJson))])] := by
  rw [toJson, toJsonArgs_eq_map]

theorem nesting_toJson_app (functor : String) (args : List Term) :
    (app functor args).toJson.nesting = Value.nestingItems (args.map toJson) + 3 := by
  simp [toJson_app, Value.nesting, Value.nestingMembers]

theorem plain_toJson (term : Term) : term.toJson.Plain := by
  induction term with
  | atom name => exact .object (List.forall_mem_singleton.2 (.string name))
  | var name => exact .object (List.forall_mem_singleton.2 (.string name))
  | app functor args induction =>
      rw [toJson_app]
      exact .object (List.forall_mem_singleton.2
        (.pair (.string functor) (.array (List.forall_mem_map.2 induction))))

theorem mapM_ofJson?_eq_ite {terms : List Term} {levels : Nat}
    (decoded : ∀ term ∈ terms, ofJson? levels term.toJson =
      if term.toJson.nesting ≤ levels then some term else none) :
    (terms.map toJson).mapM (ofJson? levels) =
      if Value.nestingItems (terms.map toJson) ≤ levels then some terms else none := by
  rw [mapM_map_eq_ite decoded]
  simp only [Value.nestingItems_le_iff, List.forall_mem_map]

theorem ofJson?_toJson (term : Term) (levels : Nat) :
    ofJson? levels term.toJson = if term.toJson.nesting ≤ levels then some term else none := by
  induction term generalizing levels with
  | atom name => cases levels <;> rfl
  | var name => cases levels <;> rfl
  | app functor args induction =>
      rw [nesting_toJson_app, toJson_app]
      rcases levels with _ | _ | _ | levels
      · rfl
      · rfl
      · rfl
      · have argsDecoded := mapM_ofJson?_eq_ite fun arg member => induction arg member levels
        simp [ofJson?, Value.fields?_pair, Value.string?, Value.items?, argsDecoded, ite_bind]

theorem standsFor (term : Term) : StandsFor ofJson? term.toJson term :=
  ⟨term.plain_toJson, term.ofJson?_toJson⟩

end Term

theorem Clause.standsFor (clause : Clause) : StandsFor ofJson? clause.toJson clause := by
  obtain ⟨head, body⟩ := clause
  refine ⟨.pair head.plain_toJson (.array ?_), fun levels => ?_⟩
  · exact List.forall_mem_map.2 fun term _ => Term.plain_toJson term
  · rw [toJson, Value.nesting_pair, Value.nesting]
    rcases levels with _ | _ | levels
    · rfl
    · simp [ofJson?]
    · have bodyDecoded := Term.mapM_ofJson?_eq_ite fun term (_ : term ∈ body) =>
        term.ofJson?_toJson levels
      simp [ofJson?, Value.fields?_pair, Value.items?, head.ofJson?_toJson, bodyDecoded,
        ite_bind, ite_and]

theorem Signature.plain_toJson (signature : Signature) : signature.toJson.Plain :=
  .pair (.string signature.name) (.natural signature.arity)

theorem Signature.ofJson?_toJson (signature : Signature) (levels : Nat) :
    ofJson? (levels + 1) signature.toJson =
      if signature.arity < Text.countBound then some signature else none := by
  simp [ofJson?, toJson, Value.fields?_pair, Value.string?, Value.count?, Text.asCount?,
    ite_bind]

theorem Bindings.standsFor (bindings : Bindings) :
    StandsFor ofJson? bindings.toJson bindings := by
  refine ⟨.object (List.forall_mem_map.2 fun entry _ => entry.2.plain_toJson),
    fun levels => ?_⟩
  rw [toJson, Value.nesting]
  cases levels with
  | zero => rfl
  | succ levels =>
      have decoded : (bindings.toList.map fun entry => (entry.1, entry.2.toJson)).mapM
          (fun member => (Term.ofJson? levels member.2).map fun term => (member.1, term)) =
            if ∀ entry ∈ bindings.toList, entry.2.toJson.nesting ≤ levels then
              some bindings.toList else none := by
        apply mapM_map_eq_ite
        intro entry _
        rw [entry.2.ofJson?_toJson levels]
        split <;> rfl
      simp only [ofJson?, decoded, Option.bind_eq_bind, ite_bind, Option.pure_def, ofList_toList,
        Nat.add_le_add_iff_right, Value.nestingMembers_le_iff, List.forall_mem_map]

theorem Solution.standsFor (solution : Solution) :
    StandsFor ofJson? solution.toJson solution := by
  obtain ⟨success, bindings⟩ := solution
  refine ⟨.pair (.bool success) bindings.standsFor.plain, fun levels => ?_⟩
  rw [toJson, Value.nesting_pair]
  cases levels with
  | zero => rfl
  | succ levels =>
      simp [ofJson?, Value.fields?_pair, Value.bool?, bindings.standsFor.decoded, ite_bind,
        Value.nesting]

theorem Config.plain_toJson (config : Config) : config.toJson.Plain := by
  obtain ⟨occursCheck, maxDepth⟩ := config
  cases maxDepth with
  | none => exact .pair (.bool occursCheck) .null
  | some limit => exact .pair (.bool occursCheck) (.natural limit)

theorem Config.ofJson?_toJson (config : Config) (levels : Nat) :
    ofJson? (levels + 1) config.toJson =
      if ∀ limit ∈ config.maxDepth, limit < Text.countBound then some config else none := by
  obtain ⟨occursCheck, maxDepth⟩ := config
  cases maxDepth with
  | none =>
      simp [ofJson?, toJson, Value.fields?_pair, occursCheckOfJson?, maxDepthOfJson?,
        Value.bool?]
  | some limit =>
      simp [ofJson?, toJson, Value.fields?_pair, occursCheckOfJson?, maxDepthOfJson?,
        Value.bool?, Value.count?, Text.asCount?, ite_bind]

/-- What is written as JSON is read back as the same value, bindings in the same
order.  Only terms that nest too deep and numbers that cannot count anything are
refused. -/
theorem decode?_toJson_text :
    (∀ term : Term, decode? Term.ofJson? term.toJson.text =
      if term.toJson.nesting ≤ nestingLimit then some term else none) ∧
    (∀ clause : Clause, decode? Clause.ofJson? clause.toJson.text =
      if clause.toJson.nesting ≤ nestingLimit then some clause else none) ∧
    (∀ signature : Signature, decode? Signature.ofJson? signature.toJson.text =
      if signature.arity < Text.countBound then some signature else none) ∧
    (∀ bindings : Bindings, decode? Bindings.ofJson? bindings.toJson.text =
      if bindings.toJson.nesting ≤ nestingLimit then some bindings else none) ∧
    (∀ solution : Solution, decode? Solution.ofJson? solution.toJson.text =
      if solution.toJson.nesting ≤ nestingLimit then some solution else none) ∧
    (∀ config : Config, decode? Config.ofJson? config.toJson.text =
      if ∀ limit ∈ config.maxDepth, limit < Text.countBound then some config else none) := by
  refine ⟨fun term => term.standsFor.decode?_text_eq,
    fun clause => clause.standsFor.decode?_text_eq, fun signature => ?_,
    fun bindings => bindings.standsFor.decode?_text_eq,
    fun solution => solution.standsFor.decode?_text_eq, fun config => ?_⟩
  · rw [decode?, parse?_text signature.plain_toJson]
    exact signature.ofJson?_toJson (nestingLimit - 1)
  · rw [decode?, parse?_text config.plain_toJson]
    exact config.ofJson?_toJson (nestingLimit - 1)

/-- A quote, a backslash, a control character and the order of bindings come back. -/
example :
    let bindings : Bindings := .ofList [("Z", .app "" [.var "A"]), ("A", .atom "\"\\\x01")]
    decode? Bindings.ofJson? bindings.toJson.text = some bindings := by
  decide +kernel

end HornLogic
