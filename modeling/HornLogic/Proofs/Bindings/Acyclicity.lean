import HornLogic.Bindings.Basic
import HornLogic.Proofs.Term.Substitution
import Mathlib.Data.Finset.Card
import Mathlib.Logic.Relation

/-!
# Acyclic bindings

A variable mentions the variables of its value.  Bindings are acyclic if no
variable reaches itself by mentions.  Since only bound variables mention
anything, acyclic bindings rank the variables by a number that is no larger
than the number of bindings: this is what ends every resolution and every
occurs check within the room that they are given.
-/

namespace HornLogic

/-- A rank of names that falls along every link, is positive on the names
listed, and never exceeds their number. -/
structure Ranks (links : String → String → Prop) (names : List String)
    (rank : String → Nat) : Prop where
  falls : ∀ {name other}, links name other → rank other < rank name
  positive : ∀ {name}, name ∈ names → 0 < rank name
  bounded : ∀ name, rank name ≤ names.length

open Classical in
/-- Links that start at finitely many names and never lead back can be ranked:
a name gets the number of listed names that it reaches. -/
theorem exists_ranks {links : String → String → Prop} {names : List String}
    (starts : ∀ {name other}, links name other → name ∈ names)
    (noReturn : ∀ name, ¬ Relation.TransGen links name name) :
    ∃ rank, Ranks links names rank := by
  let reached (name : String) : Finset String :=
    names.toFinset.filter (Relation.ReflTransGen links name)
  have memReached : ∀ {name other}, other ∈ reached name ↔
      other ∈ names ∧ Relation.ReflTransGen links name other := by
    simp [reached]
  refine ⟨fun name => (reached name).card, ?_, ?_, ?_⟩
  · intro name other link
    refine Finset.card_lt_card (Finset.ssubset_iff_of_subset ?_ |>.mpr ?_)
    · intro later member
      obtain ⟨listed, path⟩ := memReached.mp member
      exact memReached.mpr ⟨listed, .head link path⟩
    · refine ⟨name, memReached.mpr ⟨starts link, .refl⟩, fun member => ?_⟩
      exact noReturn name (.head' link (memReached.mp member).2)
  · intro name listed
    exact Finset.card_pos.mpr ⟨name, memReached.mpr ⟨listed, .refl⟩⟩
  · intro name
    exact (Finset.card_filter_le _ _).trans (List.toFinset_card_le names)

namespace Bindings

def names (bindings : Bindings) : List String :=
  bindings.entries.map Prod.fst

@[simp] theorem length_names (bindings : Bindings) :
    bindings.names.length = bindings.size := by
  simp [names, size]

theorem get?_eq_some_iff {bindings : Bindings} {name : String} {value : Term} :
    bindings.get? name = some value ↔ (name, value) ∈ bindings.entries := by
  obtain ⟨entries, nodup⟩ := bindings
  unfold get?
  induction entries with
  | nil => simp
  | cons entry entries induction =>
      obtain ⟨first, firstValue⟩ := entry
      simp only [List.map_cons, List.nodup_cons] at nodup
      by_cases same : name = first
      · subst same
        have absent : (name, value) ∉ entries := fun member =>
          nodup.1 (List.mem_map.mpr ⟨_, member, rfl⟩)
        simp [absent, eq_comm]
      · have differ : (name == first) = false := by simpa using same
        simp [List.lookup_cons, differ, same, induction nodup.2]

theorem get?_eq_none_iff {bindings : Bindings} {name : String} :
    bindings.get? name = none ↔ name ∉ bindings.names := by
  rw [Option.eq_none_iff_forall_ne_some]
  simp [get?_eq_some_iff, names]

theorem mem_names_of_get? {bindings : Bindings} {name : String} {value : Term}
    (bound : bindings.get? name = some value) : name ∈ bindings.names := by
  exact List.mem_map.mpr ⟨_, get?_eq_some_iff.mp bound, rfl⟩

@[simp] theorem get?_empty (name : String) : empty.get? name = none :=
  rfl

theorem entries_bind_of_unbound {bindings : Bindings} {name : String}
    (unbound : bindings.get? name = none) (value : Term) :
    (bindings.bind name value).entries = (name, value) :: bindings.entries := by
  have absent : name ∉ bindings.entries.map Prod.fst :=
    get?_eq_none_iff.mp unbound
  simp [bind, absent]

theorem eq_of_entries_eq {first second : Bindings} (same : first.entries = second.entries) :
    first = second := by
  cases first
  cases second
  simpa using same

theorem entries_ofList {pairs : List (String × Term)} (nodup : (pairs.map Prod.fst).Nodup) :
    (ofList pairs).entries = pairs.reverse := by
  induction pairs using List.reverseRecOn with
  | nil => rfl
  | append_singleton pairs pair induction =>
      rw [List.map_append, List.map_singleton, List.nodup_append] at nodup
      have made := induction nodup.1
      have unbound : (ofList pairs).get? pair.1 = none := by
        rw [get?_eq_none_iff, names, made, List.map_reverse, List.mem_reverse]
        exact fun member => nodup.2.2 _ member _ (List.mem_singleton_self _) rfl
      have last : ofList (pairs ++ [pair]) = (ofList pairs).bind pair.1 pair.2 := by
        rw [ofList, List.foldl_concat, ofList]
      rw [last, entries_bind_of_unbound unbound, made, List.reverse_concat]

theorem ofList_toList (bindings : Bindings) : ofList bindings.toList = bindings := by
  have names : (bindings.toList.map Prod.fst).Nodup := by
    rw [toList, List.map_reverse, List.nodup_reverse]
    exact bindings.nodup
  apply eq_of_entries_eq
  rw [entries_ofList names, toList, List.reverse_reverse]

theorem lookup_map_setEntry (entries : List (String × Term)) (name : String)
    (value : Term) (other : String) :
    (entries.map (setEntry name value)).lookup other =
      if other = name then (entries.lookup other).map fun _ => value
      else entries.lookup other := by
  induction entries with
  | nil => simp
  | cons entry entries induction =>
      obtain ⟨first, old⟩ := entry
      by_cases atEntry : other = first
      · subst atEntry
        by_cases same : other = name
        · simp [setEntry, same]
        · simp [setEntry, same]
      · have differ : (other == first) = false := by simpa using atEntry
        by_cases set : first = name
        · subst set
          simp [setEntry, List.lookup_cons, differ, induction]
        · simp [setEntry, List.lookup_cons, set, differ, induction]

theorem get?_bind (bindings : Bindings) (name : String) (value : Term)
    (other : String) :
    (bindings.bind name value).get? other =
      if other = name then some value else bindings.get? other := by
  cases known : bindings.get? name with
  | none =>
      unfold get?
      rw [entries_bind_of_unbound known]
      by_cases same : other = name
      · simp [same]
      · have differ : (other == name) = false := by simpa using same
        simp [List.lookup_cons, differ, same]
  | some old =>
      have bound : name ∈ bindings.entries.map Prod.fst := mem_names_of_get? known
      rw [bind, dif_pos bound]
      apply (lookup_map_setEntry _ _ _ _).trans
      by_cases same : other = name
      · subst same
        have found : bindings.entries.lookup other = some old := known
        simp [found]
      · simp [same, get?]

/-- Later bindings extend earlier ones if these are the oldest entries of
theirs, unchanged and in the same order. -/
def Extends (later earlier : Bindings) : Prop :=
  earlier.entries <:+ later.entries

/-- Later bindings include earlier ones if they give to every variable the value
that it had. -/
def Includes (later earlier : Bindings) : Prop :=
  ∀ name value, earlier.get? name = some value → later.get? name = some value

namespace Extends

theorem refl (bindings : Bindings) : bindings.Extends bindings :=
  List.suffix_refl _

theorem trans {latest later earlier : Bindings}
    (second : latest.Extends later) (first : later.Extends earlier) :
    latest.Extends earlier :=
  List.IsSuffix.trans first second

theorem bind {bindings : Bindings} {name : String}
    (unbound : bindings.get? name = none) (value : Term) :
    (bindings.bind name value).Extends bindings := by
  rw [Extends, entries_bind_of_unbound unbound]
  exact List.suffix_cons _ _

theorem get?_eq_some {later earlier : Bindings} (extension : later.Extends earlier)
    {name : String} {value : Term} (bound : earlier.get? name = some value) :
    later.get? name = some value := by
  rw [get?_eq_some_iff] at bound ⊢
  exact extension.subset bound

theorem includes {later earlier : Bindings} (extension : later.Extends earlier) :
    later.Includes earlier :=
  fun _ _ bound => extension.get?_eq_some bound

theorem eq_of_size_le {later earlier : Bindings} (extension : later.Extends earlier)
    (sameSize : later.size ≤ earlier.size) : later = earlier := by
  have sameEntries : earlier.entries = later.entries :=
    extension.eq_of_length_le sameSize
  exact eq_of_entries_eq sameEntries.symm

end Extends

/-- A variable mentions the variables of its value. -/
def Mentions (bindings : Bindings) (name other : String) : Prop :=
  ∃ value, bindings.get? name = some value ∧ other ∈ value.occurrences

/-- No variable reaches itself through its bindings. -/
def Acyclic (bindings : Bindings) : Prop :=
  ∀ name, ¬ Relation.TransGen bindings.Mentions name name

theorem acyclic_empty : empty.Acyclic := by
  intro name cycle
  cases cycle with
  | single mention =>
      obtain ⟨value, bound, _⟩ := mention
      simp at bound
  | tail _ mention =>
      obtain ⟨value, bound, _⟩ := mention
      simp at bound

theorem Acyclic.exists_ranks {bindings : Bindings} (acyclic : bindings.Acyclic) :
    ∃ rank, Ranks bindings.Mentions bindings.names rank := by
  refine HornLogic.exists_ranks ?_ acyclic
  rintro name other ⟨value, bound, _⟩
  exact mem_names_of_get? bound

theorem mentions_bind_iff {bindings : Bindings} {name : String}
    (unbound : bindings.get? name = none) {value : Term} {first second : String} :
    (bindings.bind name value).Mentions first second ↔
      bindings.Mentions first second ∨ first = name ∧ second ∈ value.occurrences := by
  unfold Mentions
  simp only [get?_bind]
  by_cases same : first = name
  · subst same
    simp [unbound]
  · simp [same]

/-- After a variable got a value, a path by mentions is one from before, or it
comes to that variable and goes on from a variable of the value. -/
theorem transGen_mentions_bind {bindings : Bindings} {name : String}
    (unbound : bindings.get? name = none) {value : Term} {first last : String}
    (path : Relation.TransGen (bindings.bind name value).Mentions first last) :
    Relation.TransGen bindings.Mentions first last ∨
      Relation.ReflTransGen bindings.Mentions first name ∧
        ∃ inner ∈ value.occurrences,
          Relation.ReflTransGen bindings.Mentions inner last := by
  induction path with
  | single mention =>
      rcases (mentions_bind_iff unbound).mp mention with old | ⟨rfl, member⟩
      · exact .inl (.single old)
      · exact .inr ⟨.refl, _, member, .refl⟩
  | tail _ mention induction =>
      rcases (mentions_bind_iff unbound).mp mention with old | ⟨rfl, member⟩
      · rcases induction with before | ⟨toName, inner, innerMember, onwards⟩
        · exact .inl (.tail before old)
        · exact .inr ⟨toName, inner, innerMember, .tail onwards old⟩
      · rcases induction with before | ⟨toName, _⟩
        · exact .inr ⟨before.to_reflTransGen, _, member, .refl⟩
        · exact .inr ⟨toName, _, member, .refl⟩

/-- Bindings stay acyclic when a variable gets a value from which it cannot be
reached. -/
theorem Acyclic.bind {bindings : Bindings} (acyclic : bindings.Acyclic)
    {name : String} (unbound : bindings.get? name = none) {value : Term}
    (unreached : ∀ inner ∈ value.occurrences,
      ¬ Relation.ReflTransGen bindings.Mentions inner name) :
    (bindings.bind name value).Acyclic := by
  intro first cycle
  rcases transGen_mentions_bind unbound cycle with old | ⟨toName, inner, member, back⟩
  · exact acyclic first old
  · exact unreached inner member (back.trans toName)

theorem Acyclic.of_includes {later earlier : Bindings} (acyclic : later.Acyclic)
    (inclusion : later.Includes earlier) : earlier.Acyclic := by
  intro name cycle
  refine acyclic name (Relation.TransGen.mono ?_ _ _ cycle)
  rintro first second ⟨value, bound, member⟩
  exact ⟨value, inclusion first value bound, member⟩

theorem Acyclic.of_extends {later earlier : Bindings} (acyclic : later.Acyclic)
    (extension : later.Extends earlier) : earlier.Acyclic :=
  acyclic.of_includes extension.includes

end Bindings

end HornLogic
