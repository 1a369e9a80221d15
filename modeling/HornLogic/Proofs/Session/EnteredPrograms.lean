import HornLogic.Proofs.KnowledgeBase.Changes
import HornLogic.Proofs.Session.StatementEnds
import HornLogic.Session.Transcript

/-!
# Programs that are entered line by line

A session cuts what is entered into statements, at lines that end one.  If all lines of a
program are entered, these statements are programs themselves, and together they have the
clauses of the whole program.
-/

namespace HornLogic

namespace Session

open Source (LineProgram Place Along LineEndAllowed)
open Text (OnlyComment withEnds)

def additionLine (clause : Clause) : String :=
  if clause.head.isVar then "error: " ++ (Fault.notCallable clause.head).message else "ok"

theorem addClause_of_variable {clause : Clause} (variableHead : clause.head.isVar = true)
    (session : Session) : session.addClause clause = (session, additionLine clause) := by
  simp [addClause, KnowledgeBase.add_of_variable variableHead, additionLine, variableHead]

theorem addClause_of_callable {clause : Clause} (callable : clause.head.isVar = false)
    (session : Session) :
    ∃ kb, session.kb.add clause = .ok kb ∧
      session.addClause clause = ({ session with kb }, additionLine clause) := by
  obtain ⟨_, _, added⟩ := KnowledgeBase.add_of_callable callable session.kb
  exact ⟨_, added, by simp [addClause, added, additionLine, callable]⟩

/-- Clauses are added after each other, except for those whose head is a variable, and each
has its line. -/
theorem addClauses_spec (session : Session) (clauses : List Clause) :
    ∃ kb, session.kb.addAll (clauses.filter fun clause => !clause.head.isVar) = (kb, none) ∧
      session.addClauses clauses =
        { session := { session with kb }, lines := clauses.map additionLine } := by
  induction clauses generalizing session with
  | nil => exact ⟨session.kb, rfl, rfl⟩
  | cons clause clauses induction =>
      cases variableHead : clause.head.isVar with
      | true =>
          obtain ⟨kb, added, replied⟩ := induction session
          refine ⟨kb, by simpa [variableHead] using added, ?_⟩
          simp [addClauses, addClause_of_variable variableHead, replied]
      | false =>
          obtain ⟨first, firstAdded, firstReplied⟩ := addClause_of_callable variableHead session
          obtain ⟨kb, added, replied⟩ := induction { session with kb := first }
          refine ⟨kb, by simpa [variableHead, KnowledgeBase.addAll, firstAdded] using added, ?_⟩
          simp [addClauses, firstReplied, replied]

theorem addClauses_append (session : Session) (first second : List Clause) :
    session.addClauses (first ++ second) =
      { (session.addClauses first).session.addClauses second with
        lines := (session.addClauses first).lines ++
          ((session.addClauses first).session.addClauses second).lines } := by
  induction first generalizing session with
  | nil => rfl
  | cons clause first induction => simp [addClauses, induction]

/-- Takes lines, one after the other, as long as the conversation does not end.  There is no
answer if the effort is used up. -/
def handleAll (effort : Nat) (session : Session) : List String → Option Reply
  | [] => some { session }
  | line :: lines =>
      (session.handle effort line).bind fun reply =>
        if reply.ends then some reply
        else
          (handleAll effort reply.session lines).map fun later =>
            { later with lines := reply.lines ++ later.lines }

variable {session : Session} {effort : Nat} {line : List Char}

theorem handle_trim (session : Session) (effort : Nat) (line : List Char) :
    session.handle effort (String.ofList (Text.trim line)) =
      session.handle effort (String.ofList line) := by
  simp only [handle, String.toList_ofList, Text.trim_trim]

theorem handleAll_trim (session : Session) (effort : Nat) (lines : List (List Char)) :
    session.handleAll effort ((lines.map Text.trim).map String.ofList) =
      session.handleAll effort (lines.map String.ofList) := by
  induction lines generalizing session with
  | nil => rfl
  | cons line lines induction =>
      simp only [List.map_cons, handleAll, handle_trim, induction]

/-- Between statements a line with nothing but a comment is left out. -/
theorem handle_skips (idle : session.pending = []) (trimmed : Text.trim line = line)
    (only : OnlyComment line) :
    session.handle effort (String.ofList line) = some { session } := by
  have front : Text.trimStart line = line := by
    rw [← trimmed, Text.trimStart_trim]
  rw [OnlyComment, front] at only
  cases line with
  | nil => simp [handle, idle, trimmed]
  | cons c line =>
      obtain rfl : c = '%' := only c rfl
      simp [handle, idle, trimmed]

/-- Within a statement every line is collected, and between statements every line that is
neither a comment nor a command. -/
theorem handle_collects (trimmed : Text.trim line = line)
    (begins : session.pending = [] → ¬ OnlyComment line ∧ line.head? ≠ some ':') :
    session.handle effort (String.ofList line) = session.collect effort line := by
  simp only [handle, String.toList_ofList, trimmed]
  split
  · next idle => exact absurd nofun (begins idle).1
  · next idle =>
      refine absurd (fun c member => ?_) (begins idle).1
      cases member
      rfl
  · next idle => exact absurd rfl (begins idle).2
  · rfl

theorem toList_intercalate_concat (entered : List (List Char)) (line : List Char) :
    (String.intercalate "\n" (entered.map String.ofList ++ [String.ofList line])).toList =
      withEnds entered ++ line := by
  have lines : (entered.map String.ofList ++ [String.ofList line]).map String.toList =
      entered ++ [line] := by
    simp
  rw [String.toList_intercalate, lines]
  exact Text.joinLines_concat entered line

/-- A program that is submitted is consulted, since it does not begin as a query does. -/
theorem submit_program {text : String} {clauses : List Clause}
    (program : LineProgram text.toList clauses) (session : Session) (effort : Nat) :
    session.submit effort text = some (session.addClauses (clauses.map Clause.nameAnonymous)) := by
  have noQuery : ['?', '-'].isPrefixOf text.toList = false := by
    cases characters : text.toList with
    | nil => rfl
    | cons c rest =>
        have noPrompt : c ≠ '?' := by
          rintro rfl
          exact program.head?_ne (c := '?') (by decide) (by decide) (by rw [characters]; rfl)
        simp [List.isPrefixOf, Ne.symm noPrompt]
  simp [submit, noQuery, consult, program.parseProgram]

theorem after_withEnds {lines : List (List Char)} {rest : List Char}
    (along : Along LineEndAllowed .code (withEnds lines ++ rest)) :
    Place.code.after (withEnds lines) = .code ∧ Along LineEndAllowed .code rest := by
  induction lines with
  | nil => exact ⟨rfl, along⟩
  | cons line lines induction =>
      rw [Text.withEnds_cons, List.append_assoc, List.cons_append] at along
      obtain ⟨_, lineEnd, later⟩ := Along.append_iff.mp along
      have inCode := lineEnd rfl
      rw [inCode] at later
      rw [Text.withEnds_cons, Place.after_append, Place.after, List.foldl_cons, inCode]
      exact induction later

theorem cut_at_line {entered : List (List Char)} {rest : List Char} {clauses : List Clause}
    (program : LineProgram (withEnds entered ++ (line ++ '\n' :: rest)) clauses)
    (oneLine : '\n' ∉ line) (stops : endsStatement line = true) :
    ∃ ended others, LineProgram (withEnds entered ++ line) ended ∧ LineProgram rest others ∧
      clauses = ended ++ others := by
  obtain ⟨inCode, along⟩ := after_withEnds program.along
  obtain ⟨before, behind, rfl, stopInCode, only⟩ :=
    (endsStatement_iff oneLine (along.at_place rfl)).mp stops
  have parts : withEnds entered ++ (before ++ '.' :: behind ++ '\n' :: rest) =
      (withEnds entered ++ before) ++ '.' :: (behind ++ '\n' :: rest) := by
    simp
  rw [parts] at program
  have cut := program.cut (by rw [Place.after_append, inCode, stopInCode]) only
    fun member => oneLine (by simp [member])
  rwa [List.append_assoc] at cut

/-- The last full stop of a program ends a statement. -/
theorem exists_endsStatement {lines : List (List Char)} {before behind : List Char}
    (oneLines : ∀ line ∈ lines, '\n' ∉ line) (along : Along LineEndAllowed .code (withEnds lines))
    (same : withEnds lines = before ++ '.' :: behind) (inCode : Place.code.after before = .code)
    (atEnd : Source.AtEnd behind) : ∃ line ∈ lines, endsStatement line = true := by
  induction lines generalizing before with
  | nil => simp [withEnds] at same
  | cons line lines induction =>
      obtain ⟨oneLine, othersOneLine⟩ := List.forall_mem_cons.mp oneLines
      rw [Text.withEnds_cons] at along same
      obtain ⟨_, lineEnd, along⟩ := Along.append_iff.mp along
      have ends := lineEnd rfl
      rcases List.append_eq_append_iff.mp same with
        ⟨more, rfl, rest⟩ | ⟨more, rfl, rest⟩
      · -- The full stop stands in a later line.
        cases more with
        | nil => cases rest
        | cons c more =>
            obtain ⟨rfl, later⟩ := List.cons.inj rest
            rw [Place.after_append, Place.after, List.foldl_cons, ends] at inCode
            rw [ends] at along
            obtain ⟨last, member, stops⟩ := induction othersOneLine along later inCode
            exact ⟨last, List.mem_cons_of_mem _ member, stops⟩
      · cases more with
        | nil => cases rest
        | cons c more =>
            obtain ⟨rfl, rfl⟩ := List.cons.inj rest
            exact ⟨_, List.mem_cons_self, (endsStatement_iff oneLine ends).mpr
              ⟨before, more, rfl, inCode, Source.onlyComment_of_atEnd atEnd⟩⟩

theorem handleAll_cons {reply : Reply} {line : String}
    (handled : session.handle effort line = some reply) (goesOn : reply.ends = false)
    (lines : List String) :
    session.handleAll effort (line :: lines) =
      (reply.session.handleAll effort lines).map fun later =>
        { later with lines := reply.lines ++ later.lines } := by
  simp [handleAll, handled, goesOn]

/-- The session with other lines that are not complete yet. -/
def withPending (session : Session) (entered : List (List Char)) : Session :=
  { session with pending := entered.map String.ofList }

theorem withPending_nil (idle : session.pending = []) : session.withPending [] = session := by
  obtain ⟨_, _, _, _, _⟩ := session
  cases idle
  rfl

theorem handle_withPending {entered : List (List Char)} (trimmed : Text.trim line = line)
    (begins : entered = [] → ¬ OnlyComment line ∧ line.head? ≠ some ':') :
    (session.withPending entered).handle effort (String.ofList line) =
      (session.withPending entered).collect effort line :=
  handle_collects trimmed fun none => begins (List.map_eq_nil_iff.mp none)

theorem collect_statement {entered : List (List Char)} {clauses : List Clause}
    (stops : endsStatement line = true) (program : LineProgram (withEnds entered ++ line) clauses)
    (idle : session.pending = []) :
    (session.withPending entered).collect effort line =
      some (session.addClauses (clauses.map Clause.nameAnonymous)) := by
  have settled : { session.withPending entered with pending := [] } = session :=
    withPending_nil idle
  rw [← toList_intercalate_concat] at program
  rw [collect, if_pos stops, settled]
  exact submit_program program session effort

theorem collect_kept {entered : List (List Char)} (stays : endsStatement line = false) :
    (session.withPending entered).collect effort line =
      some { session := session.withPending (entered ++ [line]) } := by
  simp [collect, stays, withPending]

/-- Lines that are entered after others which end no statement. -/
theorem handleAll_entered {entered lines : List (List Char)} {clauses : List Clause}
    (program : LineProgram (withEnds (entered ++ lines)) clauses)
    (oneLines : ∀ line ∈ entered ++ lines, '\n' ∉ line)
    (trimmed : ∀ line ∈ lines, Text.trim line = line)
    (stay : ∀ line ∈ entered, endsStatement line = false)
    (begun : ∀ line ∈ entered.head?, ¬ OnlyComment line) (idle : session.pending = []) :
    (session.withPending entered).handleAll effort (lines.map String.ofList) =
      some (session.addClauses (clauses.map Clause.nameAnonymous)) := by
  -- The lines that are kept and those still to come are a program at every step.
  induction lines generalizing session entered clauses with
  | nil =>
      rw [List.append_nil] at program oneLines
      rcases program.exists_last_stop with ⟨atEnd, rfl⟩ | ⟨before, behind, same, inCode, atEnd⟩
      · cases entered with
        | nil => rw [withPending_nil idle]; rfl
        | cons first others =>
            rw [Text.withEnds_cons] at atEnd
            exact absurd (Source.onlyComment_of_atEnd atEnd) (begun first rfl)
      · obtain ⟨last, member, stops⟩ :=
          exists_endsStatement oneLines program.along same inCode atEnd
        rw [stay last member] at stops
        cases stops
  | cons line lines induction =>
      obtain ⟨lineTrimmed, othersTrimmed⟩ := List.forall_mem_cons.mp trimmed
      obtain ⟨oneLine, othersOneLine⟩ :=
        List.forall_mem_cons.mp (List.forall_mem_append.mp oneLines).2
      have wholeProgram := program
      rw [Text.withEnds_append, Text.withEnds_cons] at wholeProgram
      rw [List.map_cons]
      by_cases skips : entered = [] ∧ OnlyComment line
      · obtain ⟨rfl, only⟩ := skips
        have later := @induction session [] _ (wholeProgram.after_line only oneLine)
          othersOneLine othersTrimmed nofun nofun idle
        rw [withPending_nil idle] at later ⊢
        rw [handleAll_cons (handle_skips idle lineTrimmed only) rfl, later]
        rfl
      · have begins : entered = [] → ¬ OnlyComment line ∧ line.head? ≠ some ':' := by
          rintro rfl
          refine ⟨fun only => skips ⟨rfl, only⟩, fun command => ?_⟩
          refine wholeProgram.head?_ne (c := ':') (by decide) (by decide) ?_
          simp [withEnds, command]
        have handled := @handle_withPending session effort line entered lineTrimmed begins
        cases stops : endsStatement line with
        | true =>
            obtain ⟨ended, others, endedProgram, othersProgram, rfl⟩ :=
              cut_at_line wholeProgram oneLine stops
            obtain ⟨kb, _, replied⟩ := session.addClauses_spec (ended.map Clause.nameAnonymous)
            rw [collect_statement stops endedProgram idle, replied] at handled
            have later := @induction { session with kb } [] others othersProgram othersOneLine
              othersTrimmed nofun nofun idle
            rw [@withPending_nil { session with kb } idle] at later
            rw [handleAll_cons handled rfl, later, List.map_append, addClauses_append, replied]
            rfl
        | false =>
            rw [collect_kept stops] at handled
            have later := @induction session (entered ++ [line]) clauses
              (by rwa [List.append_assoc]) (by rwa [List.append_assoc]) othersTrimmed
              (List.forall_mem_append.mpr ⟨stay, by simpa using stops⟩) ?_ idle
            · rw [handleAll_cons handled rfl, later]
              rfl
            · cases entered with
              | nil => simpa using (begins rfl).1
              | cons first others => simpa using begun

/-- The lines of a program are entered with or without blanks at their ends. -/
theorem handleAll_lines {lines : List (List Char)} {clauses : List Clause}
    (program : LineProgram (Text.joinLines lines) clauses) (nonempty : lines ≠ [])
    (oneLines : ∀ line ∈ lines, '\n' ∉ line) (idle : session.pending = []) :
    session.handleAll effort (lines.map String.ofList) =
      some (session.addClauses (clauses.map Clause.nameAnonymous)) := by
  have withLastEnd := (program.trimmed nonempty oneLines).append_end
  rw [Text.joinLines_append_end (by simpa using nonempty)] at withLastEnd
  have trimmedOneLines : ∀ line ∈ lines.map Text.trim, '\n' ∉ line := by
    intro line member
    obtain ⟨whole, wholeMember, rfl⟩ := List.mem_map.mp member
    exact mt Text.mem_of_mem_trim (oneLines whole wholeMember)
  have trimmed : ∀ line ∈ lines.map Text.trim, Text.trim line = line := by
    intro line member
    obtain ⟨whole, _, rfl⟩ := List.mem_map.mp member
    exact Text.trim_trim whole
  have entered := @handleAll_entered session effort [] _ _ withLastEnd trimmedOneLines trimmed
    nofun nofun idle
  rwa [withPending_nil idle, handleAll_trim] at entered

/-- A program may be entered line by line: the session then has all its clauses, except for
those whose head is a variable, in their order, and shows a line for each clause. -/
theorem entered_program_is_added (session : Session) (idle : session.pending = [])
    (effort : Nat) (text : String) (clauses : List Clause)
    (parsed : Clause.parseProgram text = .ok clauses) (noReturn : '\r' ∉ text.toList)
    (unbroken : ∀ trees after, Source.Grammar.program.Derives text.toList trees after →
      ∀ name ∈ trees.flatMap Source.ClauseTree.names, '\n' ∉ name.text) :
    ∃ kb,
      session.kb.addAll (clauses.filter fun clause => !clause.head.isVar) = (kb, none) ∧
      kb.clauses.toList =
        session.kb.clauses.toList ++ clauses.filter (fun clause => !clause.head.isVar) ∧
      session.handleAll effort ((text.toList.splitOn '\n').map String.ofList) =
        some { session := { session with kb }, lines := clauses.map additionLine } := by
  obtain ⟨written, program, rfl⟩ := LineProgram.of_parseProgram parsed noReturn unbroken
  obtain ⟨kb, added, replied⟩ := session.addClauses_spec (written.map Clause.nameAnonymous)
  refine ⟨kb, added, ?_, ?_⟩
  · have stored := (session.kb.addAll_spec
      ((written.map Clause.nameAnonymous).filter fun clause => !clause.head.isVar)).1
    rw [added] at stored
    rw [stored, List.takeWhile_eq_self_iff.mpr fun clause member => (List.mem_filter.mp member).2]
  · have joined : Text.joinLines (text.toList.splitOn '\n') = text.toList :=
      List.intercalate_splitOn '\n'
    have oneLines : ∀ line ∈ text.toList.splitOn '\n', '\n' ∉ line :=
      fun line member => Text.not_mem_of_mem_splitOn member
    rw [← joined] at program
    rw [← replied]
    exact handleAll_lines program (List.splitOn_ne_nil '\n' _) oneLines idle

open Source in
/-- A clause over two lines, with a comment mark and a full stop in a quoted name, and a
clause whose head is a variable. -/
theorem clause_over_two_lines_is_added :
    ∃ kb, KnowledgeBase.empty.addAll [⟨.app "p" [.atom "%.", .var "X"], []⟩] = (kb, none) ∧
      kb.clauses.toList = [⟨.app "p" [.atom "%.", .var "X"], []⟩] ∧
      handleAll 0 {} ["p('%.',", " X).", "X. % all", ""] =
        some
          { session := { kb }
            lines := ["ok", "error: " ++ (Fault.notCallable (.var "X")).message] } := by
  have derives : Grammar.program.Derives "p('%.',\n X).\nX. % all\n".toList
      [⟨.named .none (.plain 'p' [])
          (.someArguments
            (.more (.single (.named .none (.quoted [.bare '%', .bare '.']) .noArguments)) .none
              (.last (.single (.identifier (.blank '\n' (.blank ' ' .none)) 'X' []))))
            .none), none, .none⟩,
        ⟨.identifier (.blank '\n' .none) 'X' [], none, .none⟩]
      (.blank ' ' (.comment [' ', 'a', 'l', 'l'] (.blank '\n' .none))) := by
    refine Grammar.program_derives_iff.mpr ⟨rfl, ?_, ?_⟩
    · simp [Grammar.ProgramFits, ClauseTree.Fits, Tree.Fits, Layout.Fits, NameTree.Fits,
        QuotedPart.meaning?, ClauseTree.bodyText, ClauseTree.BodyFits, LongestRun, Layout.text,
        NameTree.text, QuotedPart.text, ClauseTree.text, IsBlank, IsSmallLetter, BeginsVariable,
        IsCapitalLetter, ContinuesIdentifier, IsDecimalDigit]
    · simp [Layout.Fits, Layout.text, LongestRun, IsBlank, EndsLine]
  have decided := Grammar.program_describes.decides (List.map Clause.nameAnonymous)
    "p('%.',\n X).\nX. % all\n"
  have parsed : Clause.parseProgram "p('%.',\n X).\nX. % all\n" =
      .ok [⟨.app "p" [.atom "%.", .var "X"], []⟩, ⟨.var "X", []⟩] :=
    (decided.accepts _).mpr ⟨_, _, derives, rfl⟩
  refine entered_program_is_added {} rfl 0 _ _ parsed (by decide) ?_
  intro trees after otherDerives
  obtain ⟨rfl, _⟩ := decided.isUnique _ _ _ _ derives otherDerives
  decide

end Session

end HornLogic
