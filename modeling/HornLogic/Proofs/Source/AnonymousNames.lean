import HornLogic.Proofs.Source.Relayout
import HornLogic.Proofs.Source.Reprinting
import HornLogic.Proofs.Term.Renaming

/-!
# Names of anonymous variables

One counter goes through a query, or through the head of a clause and then its body, and
into all arguments on the way.  So the anonymous variables get their numbers in the order
in which they are written, and nothing but their names changes.
-/

namespace HornLogic

/-- The names with a number for each lone underscore, onwards from the last number used. -/
def numberNames (used : Nat) : List String → List String
  | [] => []
  | name :: names =>
      if name = "_" then freshName (used + 1) name :: numberNames (used + 1) names
      else name :: numberNames used names

theorem numberNames_append (used : Nat) (names others : List String) :
    numberNames used (names ++ others) =
      numberNames used names ++ numberNames (used + names.count "_") others := by
  induction names generalizing used with
  | nil => rfl
  | cons name names induction =>
      rw [List.cons_append, numberNames, numberNames]
      split
      · next anonymous =>
          rw [anonymous, List.count_cons_self, induction, List.cons_append,
            Nat.add_right_comm, Nat.add_assoc]
      · next written =>
          rw [List.count_cons_of_ne written, induction, List.cons_append]

/-- The number of an anonymous variable is the number of them up to it. -/
theorem getElem?_numberNames {used place : Nat} {names : List String} {name : String}
    (found : names[place]? = some name) :
    (numberNames used names)[place]? =
      some (if name = "_" then freshName (used + (names.take (place + 1)).count "_") "_"
        else name) := by
  induction names generalizing used place with
  | nil => simp at found
  | cons first names induction =>
      cases place with
      | zero =>
          obtain rfl : first = name := by simpa using found
          by_cases anonymous : first = "_"
          · simp [numberNames, anonymous]
          · simp [numberNames, anonymous]
      | succ place =>
          have onwards : names[place]? = some name := by simpa using found
          by_cases anonymous : first = "_"
          · have counted : ((first :: names).take (place + 1 + 1)).count "_" =
                (names.take (place + 1)).count "_" + 1 := by
              rw [List.take_succ_cons, anonymous, List.count_cons_self]
            rw [numberNames, if_pos anonymous, List.getElem?_cons_succ, induction onwards, counted,
              Nat.add_right_comm, Nat.add_assoc]
          · have counted : ((first :: names).take (place + 1 + 1)).count "_" =
                (names.take (place + 1)).count "_" := by
              rw [List.take_succ_cons, List.count_cons_of_ne anonymous]
            rw [numberNames, if_neg anonymous, List.getElem?_cons_succ, induction onwards, counted]

/-- Of two names that are underscores, more stand up to the later one. -/
theorem count_take_lt {names : List String} {place later : Nat} {name : String}
    (before : place < later) (found : names[later]? = some name) :
    (names.take (place + 1)).count name < (names.take (later + 1)).count name := by
  have fewer : (names.take (place + 1)).count name ≤ (names.take later).count name :=
    (List.take_sublist_take_left (Nat.succ_le_of_lt before)).count_le name
  have onwards : names.take (later + 1) = names.take later ++ [name] := by
    rw [List.take_add_one, found]
    rfl
  rw [onwards, List.count_append, List.count_singleton_self]
  exact Nat.lt_succ_of_le fewer

theorem Source.IsIdentifier.not_mark {name : String} (identifier : IsIdentifier name) :
    '#' ∉ name.toList := by
  obtain ⟨c, rest, written, begins, inWord⟩ := identifier
  rw [written, List.mem_cons]
  rintro (rfl | member)
  · cases begins
  · cases List.all_eq_true.mp inWord '#' member

namespace Term

/-- A term with all its variables made alike. -/
def outline (term : Term) : Term :=
  term.rename fun _ => "_"

@[simp] theorem outline_app (functor : String) (args : List Term) :
    (app functor args).outline = app functor (args.map outline) :=
  rename_app _ functor args

/-- What numbering makes of terms, from the last number used before to the last one used
after it. -/
structure Numbered (used : Nat) (raw named : List Term) (last : Nat) : Prop where
  names : named.flatMap occurrences = numberNames used (raw.flatMap occurrences)
  counted : last = used + (raw.flatMap occurrences).count "_"
  outlines : named.map outline = raw.map outline

theorem Numbered.nil (used : Nat) : Numbered used [] [] used :=
  ⟨rfl, rfl, rfl⟩

theorem Numbered.append {used middle last : Nat} {raw named otherRaw otherNamed : List Term}
    (numbered : Numbered used raw named middle)
    (otherNumbered : Numbered middle otherRaw otherNamed last) :
    Numbered used (raw ++ otherRaw) (named ++ otherNamed) last where
  names := by
    rw [List.flatMap_append, List.flatMap_append, numberNames_append, numbered.names,
      otherNumbered.names, numbered.counted]
  counted := by
    rw [otherNumbered.counted, numbered.counted, List.flatMap_append, List.count_append,
      Nat.add_assoc]
  outlines := by rw [List.map_append, numbered.outlines, otherNumbered.outlines, List.map_append]

mutual

theorem numbered (used : Nat) : (term : Term) →
    Numbered used [term] [(term.numberAnonymous used).1] (term.numberAnonymous used).2
  | .atom name => ⟨rfl, rfl, rfl⟩
  | .var name => by
      by_cases anonymous : name = "_"
      · subst anonymous
        exact ⟨rfl, rfl, rfl⟩
      · refine ⟨?_, ?_, ?_⟩
        · simp [numberAnonymous, numberNames, anonymous]
        · simp [numberAnonymous, anonymous]
        · simp [numberAnonymous, anonymous]
  | .app functor args => by
      have inArgs := numberedArgs used args
      refine ⟨?_, ?_, ?_⟩
      · simpa [numberAnonymous] using inArgs.names
      · simpa [numberAnonymous] using inArgs.counted
      · simpa [numberAnonymous] using inArgs.outlines

theorem numberedArgs (used : Nat) : (args : List Term) →
    Numbered used args (numberAnonymousArgs used args).1 (numberAnonymousArgs used args).2
  | [] => Numbered.nil used
  | term :: terms => (numbered used term).append (numberedArgs _ terms)

end

/-- Each lone underscore gets the number that it has among them, and nothing else changes.
The numbered names differ from each other and from the names that are written. -/
structure NumbersAnonymous (written : List String) (raw named : List Term) : Prop where
  unchanged : named.map outline = raw.map outline
  replaced : ∀ (place : Nat) name, (raw.flatMap occurrences)[place]? = some name →
    (named.flatMap occurrences)[place]? =
      some (if name = "_" then
        freshName (((raw.flatMap occurrences).take (place + 1)).count "_") "_" else name)
  distinct : ∀ place other : Nat, place ≠ other →
    (raw.flatMap occurrences)[place]? = some "_" →
    (raw.flatMap occurrences)[other]? = some "_" →
    (named.flatMap occurrences)[place]? ≠ (named.flatMap occurrences)[other]?
  unwritten : ∀ (place : Nat) name, (raw.flatMap occurrences)[place]? = some "_" →
    (named.flatMap occurrences)[place]? = some name → name ∉ written

open Source in
theorem Numbered.numbersAnonymous {raw named : List Term} {last : Nat} {written : List String}
    (numbered : Numbered 0 raw named last) (identifiers : ∀ name ∈ written, IsIdentifier name) :
    NumbersAnonymous written raw named := by
  have replaced : ∀ (place : Nat) name, (raw.flatMap occurrences)[place]? = some name →
      (named.flatMap occurrences)[place]? =
        some (if name = "_" then
          freshName (((raw.flatMap occurrences).take (place + 1)).count "_") "_" else name) := by
    intro place name found
    rw [numbered.names, getElem?_numberNames found, Nat.zero_add]
  refine ⟨numbered.outlines, replaced, ?_, ?_⟩
  · intro place other differ found otherFound same
    rw [replaced place _ found, replaced other _ otherFound, if_pos rfl, if_pos rfl,
      Option.some_inj, freshName_inj] at same
    rcases Nat.lt_or_gt_of_ne differ with before | after
    · have less := count_take_lt before otherFound
      omega
    · have more := count_take_lt after found
      omega
  · intro place name found numberedName member
    rw [replaced place _ found, if_pos rfl, Option.some_inj] at numberedName
    subst numberedName
    exact (identifiers _ member).not_mark (mark_mem_freshName _ _)

end Term

namespace Source

theorem QueryTree.Fits.identifiers {tree : QueryTree} {rest : List Char}
    (fits : tree.Fits rest) : ∀ name ∈ tree.value.occurrences, IsIdentifier name := by
  rw [QueryTree.value, Term.occurrences_joinGoals]
  exact fits.2.1.identifiers

namespace ClauseTree

def terms (tree : ClauseTree) : List Term :=
  tree.value.head :: tree.value.body

def occurrences (tree : ClauseTree) : List String :=
  tree.terms.flatMap Term.occurrences

theorem Fits.occurrences_identifiers {tree : ClauseTree} {rest : List Char}
    (fits : tree.Fits rest) : ∀ name ∈ tree.occurrences, IsIdentifier name := by
  intro name occurs
  obtain ⟨term, member, inTerm⟩ := List.mem_flatMap.mp occurs
  exact fits.identifiers term member name inTerm

theorem numbersAnonymous {written : List String} (tree : ClauseTree)
    (identifiers : ∀ name ∈ written, IsIdentifier name) :
    Term.NumbersAnonymous written tree.terms
      (tree.value.nameAnonymous.head :: tree.value.nameAnonymous.body) :=
  ((Term.numbered 0 tree.value.head).append (Term.numberedArgs _ tree.value.body)).numbersAnonymous
    identifiers

end ClauseTree

theorem Grammar.ProgramFits.identifiers {trees : List ClauseTree} {rest : List Char}
    (fits : ProgramFits trees rest) :
    ∀ name ∈ trees.flatMap ClauseTree.occurrences, IsIdentifier name := by
  induction trees with
  | nil => exact fun name occurs => absurd occurs List.not_mem_nil
  | cons first others induction =>
      rw [List.flatMap_cons]
      exact List.forall_mem_append.mpr ⟨fits.1.occurrences_identifiers, induction fits.2⟩

end Source

open Source

/-- The anonymous variables of a clause, of a query and of every clause of a program are
numbered in the order in which they are written. -/
theorem anonymous_variables_numbered (text : String) :
    (∀ clause, Clause.parse text = .ok clause →
      ∃ tree : ClauseTree, ∃ after, Grammar.clause.Derives text.toList tree after ∧
        Term.NumbersAnonymous tree.occurrences tree.terms (clause.head :: clause.body)) ∧
    (∀ query, Term.parseQuery text = .ok query →
      ∃ tree : QueryTree, ∃ after, Grammar.query.Derives text.toList tree after ∧
        Term.NumbersAnonymous tree.value.occurrences [tree.value] [query]) ∧
    ∀ clauses, Clause.parseProgram text = .ok clauses →
      ∃ trees : List ClauseTree, ∃ after, Grammar.program.Derives text.toList trees after ∧
        List.Forall₂ (fun tree clause =>
          Term.NumbersAnonymous (trees.flatMap ClauseTree.occurrences) tree.terms
            (clause.head :: clause.body)) trees clauses := by
  refine ⟨?_, ?_, ?_⟩
  · intro clause parsed
    obtain ⟨tree, after, derives, rfl⟩ :=
      ((Grammar.clause_describes.decides Clause.nameAnonymous text).accepts clause).mp parsed
    exact ⟨tree, after, derives, tree.numbersAnonymous derives.fits.occurrences_identifiers⟩
  · intro query parsed
    obtain ⟨tree, after, derives, rfl⟩ :=
      ((Grammar.query_describes.decides Term.nameAnonymous text).accepts query).mp parsed
    exact ⟨tree, after, derives,
      (Term.numbered 0 tree.value).numbersAnonymous derives.fits.identifiers⟩
  · intro clauses parsed
    obtain ⟨trees, after, derives, rfl⟩ := Grammar.parseProgram_eq_ok_iff.mp parsed
    refine ⟨trees, after, derives, ?_⟩
    rw [List.map_map, List.forall₂_map_right_iff, List.forall₂_same]
    exact fun tree _ => tree.numbersAnonymous derives.fits.identifiers

example : Clause.parse "p(_, X) :- q(f(_), _X), 'r'(_)." =
    .ok ⟨.app "p" [.var "_#1", .var "X"],
      [.app "q" [.app "f" [.var "_#2"], .var "_X"], .app "r" [.var "_#3"]]⟩ := by
  decide +kernel

end HornLogic
