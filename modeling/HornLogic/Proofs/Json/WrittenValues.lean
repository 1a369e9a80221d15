import HornLogic.Json.Parser
import HornLogic.Json.Printer
import HornLogic.Proofs.Source.WrittenNames

/-!
# Written JSON is read back

Whatever a value is made of, its written form is read back as the same value, if
nothing follows that could belong to a number.  What closes or separates values
does not.  A character of a string is written in one of three ways, and each is
read as a part that stands for this character.
-/

namespace HornLogic.Json

/-- A value is read back from its written form, whatever text follows that may
follow it. -/
def Reader.Reads {α : Type} (read : Reader α) (written : List Char) (value : α)
    (follows : List Char → Prop) : Prop :=
  ∀ rest, follows rest → read (written ++ rest) = some (value, rest)

/-! ## Strings -/

theorem hexValue?_hexDigit {digit : Nat} (small : digit < 16) :
    hexValue? (hexDigit digit) = some digit := by
  have every : ∀ digit : Fin 16, hexValue? (hexDigit digit) = some digit.val := by
    decide
  exact every ⟨digit, small⟩

theorem writeChar_cases (c : Char) :
    (∃ escape, escape ≠ 'u' ∧ unescape? escape = some c ∧ writeChar c = ['\\', escape]) ∨
      c.toNat < 0x20 ∧ writeChar c =
        ['\\', 'u', '0', '0', hexDigit (c.toNat / 16), hexDigit (c.toNat % 16)] ∨
      c ≠ '"' ∧ c ≠ '\\' ∧ 0x20 ≤ c.toNat ∧ writeChar c = [c] := by
  unfold writeChar
  split
  next special =>
    refine .inl ⟨c, ?_, ?_, rfl⟩
    · rintro rfl
      simp at special
    · rcases special with rfl | rfl <;> rfl
  next ordinary =>
    split
    next same => exact .inl ⟨'n', by decide, by rw [same]; rfl, rfl⟩
    split
    next same => exact .inl ⟨'t', by decide, by rw [same]; rfl, rfl⟩
    split
    next same => exact .inl ⟨'r', by decide, by rw [same]; rfl, rfl⟩
    split
    next same => exact .inl ⟨'b', by decide, by rw [same]; rfl, rfl⟩
    split
    next same => exact .inl ⟨'f', by decide, by rw [same]; rfl, rfl⟩
    split
    next small => exact .inr (.inl ⟨small, rfl⟩)
    next large =>
      rw [not_or] at ordinary
      exact .inr (.inr ⟨ordinary.1, ordinary.2, by omega, rfl⟩)

theorem readString_escape {escape c : Char} (notNumber : escape ≠ 'u')
    (meant : unescape? escape = some c) (rest : List Char) :
    readString ('\\' :: escape :: rest) =
      (readString rest).map fun read => (.character c :: read.1, read.2) := by
  rw [readString]
  · rw [meant]
    cases readString rest <;> rfl
  · intro _ _ _ _ _ same
    exact absurd same notNumber

theorem readString_number {number : Nat} (small : number < 256) (rest : List Char) :
    readString ('\\' :: 'u' :: '0' :: '0' :: hexDigit (number / 16) ::
        hexDigit (number % 16) :: rest) =
      (readString rest).map fun read => (.unit number :: read.1, read.2) := by
  have value : hexNumber? '0' '0' (hexDigit (number / 16)) (hexDigit (number % 16)) =
      some number := by
    have high : hexValue? (hexDigit (number / 16)) = some (number / 16) :=
      hexValue?_hexDigit (by omega)
    have low : hexValue? (hexDigit (number % 16)) = some (number % 16) :=
      hexValue?_hexDigit (by omega)
    have zero : hexValue? '0' = some 0 := by decide
    simp only [hexNumber?, high, low, zero, Option.some_inj]
    omega
  rw [readString, value]
  cases readString rest <;> rfl

theorem readString_bare {c : Char} (noQuote : c ≠ '"') (noBackslash : c ≠ '\\')
    (large : 0x20 ≤ c.toNat) (rest : List Char) :
    readString (c :: rest) =
      (readString rest).map fun read => (.character c :: read.1, read.2) := by
  rw [readString]
  · rw [if_neg (by omega)]
  · exact noQuote
  · exact fun _ _ _ _ _ same => absurd same noBackslash
  · exact fun same => absurd same noBackslash
  · exact fun _ _ same => absurd same noBackslash

/-- The written form of a character is read as one part of a string, and this
part stands for the character. -/
theorem exists_part (c : Char) : ∃ part,
    (∀ parts, textOf? none (part :: parts) = (textOf? none parts).map (c :: ·)) ∧
      ∀ rest, readString (writeChar c ++ rest) =
        (readString rest).map fun read => (part :: read.1, read.2) := by
  rcases writeChar_cases c with ⟨escape, notNumber, meant, written⟩ | ⟨small, written⟩ |
    ⟨noQuote, noBackslash, large, written⟩
  · rw [written]
    exact ⟨.character c, fun _ => rfl, readString_escape notNumber meant⟩
  · rw [written]
    refine ⟨.unit c.toNat, fun parts => ?_, readString_number (by omega)⟩
    have notHigh : isHighSurrogate c.toNat = false := by
      simp [isHighSurrogate]
      omega
    have notLow : isLowSurrogate c.toNat = false := by
      simp [isLowSurrogate]
      omega
    simp [textOf?, notHigh, notLow]
  · rw [written]
    exact ⟨.character c, fun _ => rfl, readString_bare noQuote noBackslash large⟩

theorem exists_parts (text rest : List Char) : ∃ parts,
    textOf? none parts = some text ∧
      readString (text.flatMap writeChar ++ '"' :: rest) = some (parts, rest) := by
  induction text with
  | nil => exact ⟨[], rfl, by simp [readString]⟩
  | cons c text induction =>
      obtain ⟨parts, meant, read⟩ := induction
      obtain ⟨part, partMeant, partRead⟩ := exists_part c
      refine ⟨part :: parts, ?_, ?_⟩
      · rw [partMeant, meant]
        rfl
      · rw [List.flatMap_cons, List.append_assoc, partRead, read]
        rfl

theorem writeString_append (text : String) (rest : List Char) :
    writeString text ++ rest = '"' :: (text.toList.flatMap writeChar ++ '"' :: rest) := by
  simp [writeString]

theorem readString_written (text : String) (rest : List Char) : ∃ parts,
    stringOf? parts = some text ∧
      readString (text.toList.flatMap writeChar ++ '"' :: rest) = some (parts, rest) := by
  obtain ⟨parts, meant, read⟩ := exists_parts text.toList rest
  exact ⟨parts, by simp [stringOf?, meant], read⟩

/-! ## Numbers -/

/-- Nothing at the front of a text could belong to a number before it. -/
def EndsNumber (rest : List Char) : Prop :=
  ∀ c ∈ rest.head?, c.isDigit = false ∧ c ≠ '.' ∧ c ≠ 'e' ∧ c ≠ 'E'

theorem endsNumber_nil : EndsNumber [] := by
  simp [EndsNumber]

theorem exists_toDigits_eq_cons (number : Nat) : ∃ c digits,
    Nat.toDigits 10 number = c :: digits ∧ c.isDigit = true ∧ (number ≠ 0 → c ≠ '0') := by
  induction number using Nat.strong_induction_on with
  | _ number induction =>
      rw [Nat.toDigits_eq_if (by decide)]
      split
      next small =>
        have every : ∀ digit : Fin 10, (Nat.digitChar digit).isDigit = true ∧
            (digit.val ≠ 0 → Nat.digitChar digit ≠ '0') := by
          decide
        exact ⟨_, [], rfl, every ⟨number, small⟩⟩
      next large =>
        obtain ⟨c, digits, written, digit, noZero⟩ := induction (number / 10) (by omega)
        rw [written]
        exact ⟨c, _, rfl, digit, fun _ => noZero (by omega)⟩

theorem readDigits_toDigits (number : Nat) {rest : List Char} (ends : EndsNumber rest) :
    readDigits (Nat.toDigits 10 number ++ rest) = some (Nat.toDigits 10 number, rest) := by
  have digits : (Nat.toDigits 10 number).all Char.isDigit = true := by
    rw [List.all_eq_true]
    exact fun c member => Nat.isDigit_of_mem_toDigits (by decide) (by decide) member
  obtain ⟨taken, left⟩ := Source.span_run digits fun c first => (ends c first).1
  simp [readDigits, taken, left, Nat.toDigits_ne_nil]

theorem readWhole_toDigits (number : Nat) {rest : List Char} (ends : EndsNumber rest) :
    readWhole (Nat.toDigits 10 number ++ rest) = some (number, rest) := by
  by_cases zero : number = 0
  · subst zero
    rfl
  · obtain ⟨c, digits, written, _, noZero⟩ := exists_toDigits_eq_cons number
    rw [readWhole]
    · rw [readDigits_toDigits number ends]
      simp [Nat.ofDigitChars_ten_toDigits]
    · intro others same
      rw [written, List.cons_append, List.cons.injEq] at same
      exact noZero zero same.1

theorem readFraction_of_endsNumber {rest : List Char} (ends : EndsNumber rest) :
    readFraction rest = some (false, rest) := by
  unfold readFraction
  split
  next others =>
    have noPoint : '.' ≠ '.' := (ends '.' rfl).2.1
    exact absurd rfl noPoint
  next => rfl

theorem readExponent_of_endsNumber {rest : List Char} (ends : EndsNumber rest) :
    readExponent rest = some (false, rest) := by
  unfold readExponent
  split
  next c others =>
    obtain ⟨_, _, noLower, noUpper⟩ := ends c rfl
    rw [if_neg (by simp [noLower, noUpper])]
  next => rfl

theorem readNumber_reads (number : Nat) :
    Reader.Reads readNumber (Nat.toDigits 10 number) (.natural number) EndsNumber := by
  intro rest ends
  have noSign : ((Nat.toDigits 10 number ++ rest).head? == some '-') = false := by
    obtain ⟨c, digits, written, digit, _⟩ := exists_toDigits_eq_cons number
    have different : c ≠ '-' := by
      rintro rfl
      cases digit
    simp [written, different]
  simp only [readNumber, noSign, Bool.false_eq_true, if_false, readWhole_toDigits number ends,
    readFraction_of_endsNumber ends, readExponent_of_endsNumber ends, Option.bind_eq_bind,
    Option.bind_some, Bool.false_or]

/-! ## Values -/

/-- Every part of a value has a written form of its own. -/
inductive Value.Plain : Value → Prop where
  | null : Plain .null
  | bool (value : Bool) : Plain (.bool value)
  | natural (value : Nat) : Plain (.natural value)
  | string (text : String) : Plain (.string text)
  | array {items : List Value} (plain : ∀ item ∈ items, Plain item) : Plain (.array items)
  | object {members : List (String × Value)} (plain : ∀ member ∈ members, Plain member.2) :
      Plain (.object members)

theorem skipBlanks_cons {c : Char} (noBlank : isBlank c = false) (rest : List Char) :
    skipBlanks (c :: rest) = c :: rest := by
  simp [skipBlanks, noBlank]

theorem endsNumber_comma (rest : List Char) : EndsNumber (',' :: rest) := by
  rintro c ⟨⟩
  decide

theorem endsNumber_bracket (rest : List Char) : EndsNumber (']' :: rest) := by
  rintro c ⟨⟩
  decide

theorem endsNumber_brace (rest : List Char) : EndsNumber ('}' :: rest) := by
  rintro c ⟨⟩
  decide

/-- No blank begins a written value, and no bracket that could close an array. -/
theorem Value.Plain.exists_write_eq_cons {value : Value} (plain : value.Plain) : ∃ c rest,
    value.write = c :: rest ∧ isBlank c = false ∧ c ≠ ']' := by
  cases plain with
  | null => exact ⟨_, _, rfl, by decide, by decide⟩
  | bool value => cases value <;> exact ⟨_, _, rfl, by decide, by decide⟩
  | natural value =>
      obtain ⟨c, digits, written, digit, _⟩ := exists_toDigits_eq_cons value
      refine ⟨c, digits, written, ?_, ?_⟩
      · cases blank : isBlank c with
        | false => rfl
        | true =>
            simp only [isBlank, Bool.or_eq_true, beq_iff_eq] at blank
            rcases blank with ((rfl | rfl) | rfl) | rfl <;> cases digit
      · rintro rfl
        cases digit
  | string text => exact ⟨_, _, rfl, by decide, by decide⟩
  | array _ => exact ⟨_, _, rfl, by decide, by decide⟩
  | object _ => exact ⟨_, _, rfl, by decide, by decide⟩

theorem Value.length_write_le {item : Value} {items : List Value} (member : item ∈ items) :
    item.write.length ≤ (writeItems items).length := by
  induction items with
  | nil => cases member
  | cons first items induction =>
      cases items with
      | nil =>
          rw [List.mem_singleton] at member
          rw [member, writeItems]
      | cons second items =>
          simp only [writeItems, List.length_append, List.length_cons]
          rcases List.mem_cons.1 member with rfl | later
          · omega
          · have shorter := induction later
            omega

theorem Value.length_le_writeItems {items : List Value} (plain : ∀ item ∈ items, item.Plain) :
    items.length ≤ (writeItems items).length := by
  induction items with
  | nil => simp
  | cons first items induction =>
      obtain ⟨c, others, written, _⟩ := (plain first List.mem_cons_self).exists_write_eq_cons
      have later := induction fun item member => plain item (List.mem_cons_of_mem _ member)
      cases items with
      | nil => simp [writeItems, written]
      | cons second items =>
          simp only [writeItems, List.length_append, List.length_cons] at later ⊢
          omega

theorem Value.exists_writeItems_eq_append (item : Value) (items : List Value) :
    ∃ others, writeItems (item :: items) = item.write ++ others := by
  cases items with
  | nil => exact ⟨[], by simp [writeItems]⟩
  | cons next items => exact ⟨',' :: writeItems (next :: items), rfl⟩

theorem readItems_written {read : Reader Value} {items : List Value} (nonempty : items ≠ [])
    (reads : ∀ item ∈ items, Reader.Reads read item.write item EndsNumber) {count : Nat}
    (enough : items.length ≤ count) (rest : List Char) :
    readItems read count (Value.writeItems items ++ ']' :: rest) = some (items, rest) := by
  induction items generalizing count with
  | nil => exact absurd rfl nonempty
  | cons item items induction =>
      cases count with
      | zero => simp at enough
      | succ count =>
          have first := reads item List.mem_cons_self
          cases items with
          | nil =>
              rw [Value.writeItems, readItems, first _ (endsNumber_bracket rest)]
              rfl
          | cons next items =>
              have later := induction (List.cons_ne_nil _ _)
                (fun item member => reads item (List.mem_cons_of_mem _ member))
                (Nat.le_of_succ_le_succ enough)
              simp only [Value.writeItems, List.append_assoc, List.cons_append]
              rw [readItems, first _ (endsNumber_comma _)]
              simp only [skipBlanks_cons (c := ',') rfl, later, Option.map_some]

theorem Value.length_write_lt {member : String × Value} {members : List (String × Value)}
    (belongs : member ∈ members) : member.2.write.length < (writeMembers members).length := by
  induction members with
  | nil => cases belongs
  | cons first members induction =>
      cases members with
      | nil =>
          rw [List.mem_singleton] at belongs
          simp only [belongs, writeMembers, List.length_append, List.length_cons]
          omega
      | cons second members =>
          simp only [writeMembers, List.length_append, List.length_cons]
          rcases List.mem_cons.1 belongs with rfl | later
          · omega
          · have shorter := induction later
            omega

theorem Value.length_le_writeMembers (members : List (String × Value)) :
    members.length ≤ (writeMembers members).length := by
  induction members with
  | nil => simp
  | cons first members induction =>
      cases members with
      | nil => simp [writeMembers, writeString]
      | cons second members =>
          simp only [writeMembers, List.length_append, List.length_cons] at induction ⊢
          omega

theorem Value.exists_writeMembers_eq_cons (member : String × Value)
    (members : List (String × Value)) :
    ∃ others, writeMembers (member :: members) = '"' :: others := by
  cases members with
  | nil => exact ⟨_, rfl⟩
  | cons next members => exact ⟨_, rfl⟩

theorem readMember_written {read : Reader Value} {value : Value} (name : String)
    (reads : Reader.Reads read value.write value EndsNumber) {rest : List Char}
    (ends : EndsNumber rest) :
    readMember read (writeString name ++ ':' :: (value.write ++ rest)) =
      some ((some name, value), rest) := by
  obtain ⟨parts, meant, readName⟩ := readString_written name (':' :: (value.write ++ rest))
  rw [writeString_append, readMember, skipBlanks_cons (by decide)]
  simp only [readName, skipBlanks_cons (c := ':') rfl, reads rest ends, meant, Option.map_some]

theorem readMembers_written {read : Reader Value} {members : List (String × Value)}
    (nonempty : members ≠ [])
    (reads : ∀ member ∈ members, Reader.Reads read member.2.write member.2 EndsNumber)
    {count : Nat} (enough : members.length ≤ count) (rest : List Char) :
    readMembers read count (Value.writeMembers members ++ '}' :: rest) =
      some (members.map fun member => (some member.1, member.2), rest) := by
  induction members generalizing count with
  | nil => exact absurd rfl nonempty
  | cons member members induction =>
      obtain ⟨name, value⟩ := member
      cases count with
      | zero => simp at enough
      | succ count =>
          have first := reads (name, value) List.mem_cons_self
          cases members with
          | nil =>
              rw [Value.writeMembers, List.append_assoc, List.cons_append, readMembers,
                readMember_written name first (endsNumber_brace rest)]
              rfl
          | cons next members =>
              have later := induction (List.cons_ne_nil _ _)
                (fun member belongs => reads member (List.mem_cons_of_mem _ belongs))
                (Nat.le_of_succ_le_succ enough)
              simp only [Value.writeMembers, List.append_assoc, List.cons_append]
              rw [readMembers, readMember_written name first (endsNumber_comma _)]
              simp only [skipBlanks_cons (c := ',') rfl, later, Option.map_some, List.map_cons]

theorem objectOf_named (members : List (String × Value)) :
    objectOf (members.map fun member => (some member.1, member.2)) = .object members := by
  have every : named (members.map fun member => (some member.1, member.2)) = some members := by
    induction members with
    | nil => rfl
    | cons member members induction =>
        rw [List.map_cons, named, induction]
        rfl
  rw [objectOf, every]

theorem readValueHere_digit {read : Reader Value} {bound : Nat} {c : Char}
    (digit : c.isDigit = true) (rest : List Char) :
    readValueHere read bound (c :: rest) = readNumber (c :: rest) := by
  rw [readValueHere] <;> (rintro _ ⟨⟩; cases digit)

theorem readValueHere_string {read : Reader Value} {bound : Nat} (text : String)
    (rest : List Char) :
    readValueHere read bound (writeString text ++ rest) = some (.string text, rest) := by
  obtain ⟨parts, meant, readText⟩ := readString_written text rest
  rw [writeString_append, readValueHere, readText]
  simp only [Option.map_some, meant, Option.getD_some]

theorem readValueHere_array {read : Reader Value} {items : List Value}
    (plain : ∀ item ∈ items, item.Plain)
    (reads : ∀ item ∈ items, Reader.Reads read item.write item EndsNumber) {bound : Nat}
    (enough : items.length ≤ bound) (rest : List Char) :
    readValueHere read bound ('[' :: (Value.writeItems items ++ ']' :: rest)) =
      some (.array items, rest) := by
  cases items with
  | nil => rfl
  | cons item items =>
      have allRead := readItems_written (List.cons_ne_nil item items) reads enough rest
      obtain ⟨others, starts⟩ := Value.exists_writeItems_eq_append item items
      obtain ⟨c, more, written, noBlank, noBracket⟩ :=
        (plain item List.mem_cons_self).exists_write_eq_cons
      rw [starts, written] at allRead ⊢
      simp only [List.cons_append] at allRead ⊢
      rw [readValueHere, skipBlanks_cons noBlank]
      split
      next same => exact absurd (List.cons.inj same).1 noBracket
      next => rw [allRead, Option.map_some]

theorem readValueHere_object {read : Reader Value} {members : List (String × Value)}
    (reads : ∀ member ∈ members, Reader.Reads read member.2.write member.2 EndsNumber)
    {bound : Nat} (enough : members.length ≤ bound) (rest : List Char) :
    readValueHere read bound ('{' :: (Value.writeMembers members ++ '}' :: rest)) =
      some (.object members, rest) := by
  cases members with
  | nil => rfl
  | cons member members =>
      have allRead := readMembers_written (List.cons_ne_nil member members) reads enough rest
      obtain ⟨others, starts⟩ := Value.exists_writeMembers_eq_cons member members
      rw [starts, List.cons_append] at allRead ⊢
      rw [readValueHere, skipBlanks_cons (by decide)]
      split
      next same => exact absurd (List.cons.inj same).1 (by decide)
      next => simp only [allRead, Option.map_some, objectOf_named]

/-- A value is read back from its written form, if the bound exceeds its length. -/
theorem readValue_reads {value : Value} (plain : value.Plain) {bound : Nat}
    (short : value.write.length < bound) :
    Reader.Reads (readValue bound) value.write value EndsNumber := by
  intro rest ends
  -- On the way into an array or an object the bound drops by one, the length by two or more.
  induction bound generalizing value rest with
  | zero => omega
  | succ bound induction =>
      obtain ⟨c, others, written, noBlank, _⟩ := plain.exists_write_eq_cons
      have front : skipBlanks (value.write ++ rest) = value.write ++ rest := by
        rw [written]
        exact skipBlanks_cons noBlank _
      rw [readValue, front]
      cases plain with
      | null => rfl
      | bool value => cases value <;> rfl
      | natural value =>
          obtain ⟨c, digits, written, digit, _⟩ := exists_toDigits_eq_cons value
          have whole := readNumber_reads value rest ends
          rw [written, List.cons_append] at whole
          rw [Value.write, written, List.cons_append, readValueHere_digit digit, whole]
      | string text => exact readValueHere_string text rest
      | @array items plain =>
          have length : (Value.write (.array items)).length =
              (Value.writeItems items).length + 2 := by
            simp [Value.write]
          have reads : ∀ item ∈ items,
              Reader.Reads (readValue bound) item.write item EndsNumber := by
            intro item member rest ends
            have shorter := Value.length_write_le member
            exact induction (plain item member) (by omega) rest ends
          have enough : items.length ≤ bound := by
            have shorter := Value.length_le_writeItems plain
            omega
          have read := readValueHere_array plain reads enough rest
          simpa [Value.write] using read
      | @object members plain =>
          have length : (Value.write (.object members)).length =
              (Value.writeMembers members).length + 2 := by
            simp [Value.write]
          have reads : ∀ member ∈ members,
              Reader.Reads (readValue bound) member.2.write member.2 EndsNumber := by
            intro member belongs rest ends
            have shorter := Value.length_write_lt belongs
            exact induction (plain member belongs) (by omega) rest ends
          have enough : members.length ≤ bound := by
            have shorter := Value.length_le_writeMembers members
            omega
          have read := readValueHere_object reads enough rest
          simpa [Value.write] using read

/-- JSON that is written is read back as the same value. -/
theorem parse?_text {value : Value} (plain : value.Plain) : parse? value.text = some value := by
  have read := readValue_reads plain (Nat.lt_succ_self _) [] endsNumber_nil
  rw [List.append_nil] at read
  simp [parse?, Value.text, read, skipBlanks]

end HornLogic.Json
