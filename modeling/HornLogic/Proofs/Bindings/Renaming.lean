import HornLogic.Bindings.Substitution
import HornLogic.Proofs.Bindings.Chains
import HornLogic.Proofs.Term.Renaming

/-!
# Renamed bindings

Bindings are renamed by an injective renaming of their variables and of those of
their values.  Looking up, walking and resolving see variables only through
whether they are the same, so each of them commutes with the renaming.
-/

namespace HornLogic

namespace Bindings

def rename (change : String ↪ String) (bindings : Bindings) : Bindings where
  entries := bindings.entries.map fun entry => (change entry.1, entry.2.rename change)
  nodup := by
    rw [List.map_map]
    have changed := bindings.nodup.map change.injective
    rwa [List.map_map] at changed

section

variable (change : String ↪ String) (bindings : Bindings)

@[simp] theorem rename_empty : empty.rename change = empty :=
  rfl

@[simp] theorem size_rename : (bindings.rename change).size = bindings.size :=
  List.length_map _

theorem toList_rename :
    (bindings.rename change).toList =
      bindings.toList.map fun entry => (change entry.1, entry.2.rename change) := by
  simp [toList, rename]

theorem get?_rename (name : String) :
    (bindings.rename change).get? (change name) =
      (bindings.get? name).map (Term.rename change) := by
  obtain ⟨entries, nodup⟩ := bindings
  simp only [get?, rename]
  clear nodup
  induction entries with
  | nil => rfl
  | cons entry entries induction =>
      obtain ⟨first, value⟩ := entry
      by_cases same : name = first
      · simp [same]
      · have differ : (name == first) = false := by simpa using same
        have differAfter : (change name == change first) = false := by simpa using same
        simp [List.lookup_cons, differ, differAfter, induction]

theorem follow_rename (steps : Nat) (term : Term) :
    (bindings.rename change).follow steps (term.rename change) =
      (bindings.follow steps term).rename change := by
  induction steps generalizing term with
  | zero => rfl
  | succ steps induction =>
      cases term with
      | atom name => rfl
      | app functor args => simp
      | var name =>
          simp only [Term.rename_var, follow, get?_rename]
          cases bindings.get? name with
          | none => rfl
          | some value => exact induction value

theorem walk_rename (term : Term) :
    (bindings.rename change).walk (term.rename change) =
      (bindings.walk term).rename change := by
  rw [walk, walk, size_rename, follow_rename]

theorem resolveWithin_rename (room : Nat) (expanding : List String) (name : String) :
    (bindings.rename change).resolveWithin room (expanding.map change) (change name) =
      (bindings.resolveWithin room expanding name).rename change := by
  induction room generalizing expanding name with
  | zero => rfl
  | succ room induction =>
      by_cases inside : name ∈ expanding
      · simp [resolveWithin, inside]
      · have outside : change name ∉ expanding.map change := by simpa using inside
        simp only [resolveWithin, inside, outside, if_false, get?_rename]
        cases bindings.get? name with
        | none => rfl
        | some value =>
            exact Term.rename_subst fun other _ => induction (name :: expanding) other

theorem substitute_rename (term : Term) :
    (term.rename change).substitute (bindings.rename change) =
      (term.substitute bindings).rename change := by
  apply Term.rename_subst
  intro name _
  rw [resolve, resolve, size_rename]
  exact bindings.resolveWithin_rename change bindings.size [] name

theorem bind_rename (name : String) (value : Term) :
    (bindings.bind name value).rename change =
      (bindings.rename change).bind (change name) (value.rename change) := by
  have names : (bindings.rename change).entries.map Prod.fst =
      (bindings.entries.map Prod.fst).map change := by
    simp [rename]
  by_cases bound : name ∈ bindings.entries.map Prod.fst
  · have boundAfter : change name ∈ (bindings.rename change).entries.map Prod.fst := by
      rw [names]
      exact List.mem_map_of_mem bound
    rw [bind, dif_pos bound, bind, dif_pos boundAfter]
    simp only [rename, mk.injEq, List.map_map]
    refine List.map_congr_left fun entry _ => ?_
    by_cases same : entry.1 = name
    · simp [setEntry, same]
    · simp [setEntry, same]
  · have freeAfter : change name ∉ (bindings.rename change).entries.map Prod.fst := by
      rw [names]
      simpa using bound
    rw [bind, dif_neg bound, bind, dif_neg freeAfter]
    simp [rename]

theorem ofList_rename (pairs : List (String × Term)) :
    (ofList pairs).rename change =
      ofList (pairs.map fun pair => (change pair.1, pair.2.rename change)) := by
  have folded : ∀ start : Bindings,
      (pairs.foldl (fun bindings pair => bindings.bind pair.1 pair.2) start).rename change =
        (pairs.map fun pair => (change pair.1, pair.2.rename change)).foldl
          (fun bindings pair => bindings.bind pair.1 pair.2) (start.rename change) := by
    induction pairs with
    | nil => exact fun _ => rfl
    | cons pair pairs induction =>
        intro start
        rw [List.foldl_cons, List.map_cons, List.foldl_cons, induction, bind_rename]
  exact folded empty

end

end Bindings

end HornLogic
