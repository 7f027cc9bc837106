import Sabot.Language.Soundness

/-! Which texts the parser reads no further than their terminator. A line that lacks an operand
sends the pointer over the terminator, so these are the texts whose lines are complete.
-/

namespace Sabot.Language

/-- Every line has all its fields, up to a word that is no mnemonic or to the end of the text. -/
inductive Complete (lineDelimiter : Byte) : List Byte → Prop where
  | nil : Complete lineDelimiter []
  | word {text} (unknown : ∀ idef ∈ chpext.instructionDefs, idef.mnemonic ≠ firstWord text)
      : Complete lineDelimiter text
  | last {idef count text c field} (known : idef ∈ chpext.instructionDefs)
      (operands : idef.operandCount = count + 1)
      (fields : Fields lineDelimiter count (ascii ' ') text c field)
      (isField : IsField lineDelimiter field)
      : Complete lineDelimiter (idef.mnemonic ++ ascii ' ' :: text)
  | line {idef text c rest} (known : idef ∈ chpext.instructionDefs)
      (fields : Fields lineDelimiter idef.operandCount (ascii ' ') text c rest)
      (later : Complete lineDelimiter rest)
      : Complete lineDelimiter (idef.mnemonic ++ ascii ' ' :: text)

-----------------------------------------------------------------------------------------
-- The operands of the last line
-----------------------------------------------------------------------------------------

/-- The last field of a text is ended by the terminator, where the pointer stays. -/
theorem readOperands_last {lineDelimiter : Byte} {count : Nat} {b c : Byte}
    {text field : List Byte} (fields : Fields lineDelimiter count b text c field)
    (isField : IsField lineDelimiter field)
    : ∃ values, ∀ after, readOperands chpext lineDelimiter (count + 1) (b :: (text ++ 0 :: after))
        = .ok (values, 0 :: after) := by
  induction fields with
  | @none b field =>
      have stops : operandEnd chpext lineDelimiter 0 = true := by simp [operandEnd]
      obtain ⟨value, valueEq⟩ := stuif_field field 0
      refine ⟨value ::ᵥ .nil, fun after => ?_⟩
      have scanned := scan_append after isField stops
      simp only [readOperands, bind, Except.bind, scanned, valueEq]
      rfl
  | @field count b first t more c rest isFirst ends others ih =>
      obtain ⟨values, ran⟩ := ih isField
      have stops : operandEnd chpext lineDelimiter t = true := by
        rcases ends with rfl | rfl <;> simp [operandEnd, chpext]
      obtain ⟨value, valueEq⟩ := stuif_field first t
      refine ⟨value ::ᵥ values, fun after => ?_⟩
      have scanned := scan_append (more ++ 0 :: after) isFirst stops
      rw [readOperands]
      simp only [List.append_assoc, List.cons_append, bind, Except.bind, scanned, valueEq, ran]
      rfl

/-- A text holds enough fields, or ends with the last one, or is read past its terminator. -/
theorem readOperands_cases (lineDelimiter : Byte) (count : Nat) (b : Byte) {text : List Byte}
    (terminated : (0 : Byte) ∉ text)
    : (∃ c rest, Fields lineDelimiter count b text c rest)
      ∨ (∃ fewer c field, count = fewer + 1 ∧ Fields lineDelimiter fewer b text c field
        ∧ IsField lineDelimiter field)
      ∨ readOperands chpext lineDelimiter count (b :: (text ++ [0])) = .error .undefined := by
  induction count generalizing b text with
  | zero => exact Or.inl ⟨b, text, .none⟩
  | succ count ih =>
      rcases isField_or_split lineDelimiter text with whole | ⟨field, t, more, rfl, isField, stops⟩
      · cases count with
        | zero => exact Or.inr (Or.inl ⟨0, b, text, rfl, .none, whole⟩)
        | succ count =>
            -- The next operand starts behind the terminator.
            refine Or.inr (Or.inr ?_)
            have scanned := scan_append [] whole
              (show operandEnd chpext lineDelimiter 0 = true by simp [operandEnd])
            obtain ⟨value, valueEq⟩ := stuif_field text 0
            rw [readOperands]
            simp only [bind, Except.bind, scanned, valueEq]
            rfl
      · have inner : (0 : Byte) ∉ more := fun member => terminated (by simp [member])
        have notNul : t ≠ 0 := fun zero => terminated (by simp [zero])
        have ends : t = ascii ',' ∨ t = lineDelimiter := by
          simpa [operandEnd, chpext, notNul] using stops
        rcases ih t inner with
          ⟨c, rest, fields⟩ | ⟨fewer, c, last, rfl, fields, isLast⟩ | beyond
        · exact Or.inl ⟨c, rest, .field isField ends fields⟩
        · exact Or.inr (Or.inl ⟨fewer + 1, c, last, rfl, .field isField ends fields, isLast⟩)
        · refine Or.inr (Or.inr ?_)
          have scanned := scan_append (more ++ [0]) isField stops
          obtain ⟨value, valueEq⟩ := stuif_field field t
          rw [readOperands]
          simp only [List.append_assoc, List.cons_append, bind, Except.bind, scanned, valueEq,
            beyond]

-----------------------------------------------------------------------------------------
-- One round of the loop
-----------------------------------------------------------------------------------------

/-- What a round does after the word at its start has been read. -/
theorem parseInstructions_word {text : List Byte} (nonempty : text ≠ [])
    (terminated : (0 : Byte) ∉ text) (lineDelimiter : Byte) (after : List Byte) (fuel : Nat)
    : parseInstructions chpext lineDelimiter (fuel + 1) (text ++ 0 :: after)
      = (do
          let idef ← chpext.findIdef (firstWord text)
          let (operands, pos) ← readOperands chpext lineDelimiter idef.operandCount
            (text.dropWhile (fun c => c != ascii ' ') ++ 0 :: after)
          let pos ← skipDelimiter pos
          let instructions ← parseInstructions chpext lineDelimiter fuel pos
          return ⟨idef.bytecode, operands⟩ :: instructions) := by
  obtain ⟨pos, scanned, split⟩ := scan_opcode terminated after
  have parts : firstWord text ++ text.dropWhile (fun c => c != ascii ' ') = text :=
    List.takeWhile_append_dropWhile
  have posEq : pos = text.dropWhile (fun c => c != ascii ' ') ++ 0 :: after := by
    rcases split with ⟨whole, rfl⟩ | ⟨more, whole, rfl⟩
    · have none : text.dropWhile (fun c => c != ascii ' ') = [] :=
        List.append_right_eq_self.mp (parts.trans whole)
      rw [none, List.nil_append]
    · have rest : text.dropWhile (fun c => c != ascii ' ') = ascii ' ' :: more :=
        List.append_cancel_left (parts.trans whole)
      rw [rest, List.cons_append]
  obtain ⟨c, rest, rfl⟩ := List.exists_cons_of_ne_nil nonempty
  have first : c ≠ 0 := fun zero => terminated (by simp [zero])
  rw [List.cons_append] at scanned ⊢
  simp only [parseInstructions, beq_eq_false_iff_ne.mpr first, Bool.false_eq_true, if_false,
    scanned, posEq]
  rfl

/-- What a round does on a line, once its operands have been read. -/
theorem parseInstructions_operands {lineDelimiter : Byte} {idef : InstructionDefinition}
    (known : idef ∈ chpext.instructionDefs) {text : List Byte}
    (terminated : (0 : Byte) ∉ idef.mnemonic ++ ascii ' ' :: text) (after : List Byte)
    (fuel : Nat)
    : parseInstructions chpext lineDelimiter (fuel + 1)
        (idef.mnemonic ++ ascii ' ' :: text ++ 0 :: after)
      = (do
          let (operands, pos) ← readOperands chpext lineDelimiter idef.operandCount
            (ascii ' ' :: (text ++ 0 :: after))
          let pos ← skipDelimiter pos
          let instructions ← parseInstructions chpext lineDelimiter fuel pos
          return ⟨idef.bytecode, operands⟩ :: instructions) := by
  have rest : (idef.mnemonic ++ ascii ' ' :: text).dropWhile (fun c => c != ascii ' ')
      = ascii ' ' :: text := by
    have parts := List.takeWhile_append_dropWhile (p := fun c => c != ascii ' ')
      (l := idef.mnemonic ++ ascii ' ' :: text)
    have word := firstWord_line known text
    rw [firstWord] at word
    rw [word] at parts
    exact List.append_cancel_left parts
  rw [parseInstructions_word (by simp) terminated, rest, firstWord_line known,
    findIdef_known known]
  rfl

/-- The byte that ends the last field of a line is no terminator. -/
theorem Fields.skipped {lineDelimiter : Byte} {count : Nat} {b c : Byte} {text rest : List Byte}
    (fields : Fields lineDelimiter count b text c rest) (positive : 0 < count)
    (terminated : (0 : Byte) ∉ text) (after : List Byte)
    : skipDelimiter (c :: (rest ++ 0 :: after)) = .ok (rest ++ 0 :: after) := by
  have member : c ∈ text := by
    clear terminated
    induction fields with
    | none => exact absurd positive (lt_irrefl 0)
    | @field count b field t more c rest isField ends others ih =>
        cases others with
        | none => simp
        | field _ _ _ => exact List.mem_append_right _ (List.mem_cons_of_mem _ (ih (Nat.succ_pos _)))
  have nonzero : c ≠ 0 := fun zero => terminated (zero ▸ member)
  simp [skipDelimiter, nonzero]

-----------------------------------------------------------------------------------------
-- Complete texts
-----------------------------------------------------------------------------------------

/-- A complete text is parsed to the same result whatever follows its terminator, also when
nothing does.
-/
theorem Complete.parses {lineDelimiter : Byte} {text : List Byte}
    (complete : Complete lineDelimiter text) (terminated : (0 : Byte) ∉ text)
    : ∃ result, result ≠ .error .undefined
      ∧ ∀ after fuel, text.length < fuel
        → parseInstructions chpext lineDelimiter fuel (text ++ 0 :: after) = result := by
  have positive {fuel length : Nat} (enough : length < fuel) : ∃ less, fuel = less + 1 :=
    Nat.exists_eq_add_of_le' (Nat.one_le_of_lt enough)
  induction complete with
  | nil =>
      refine ⟨.ok [], by simp, fun after fuel enough => ?_⟩
      obtain ⟨fuel, rfl⟩ := positive enough
      simp [parseInstructions]
  | @word text unknown =>
      cases empty : text with
      | nil =>
          refine ⟨.ok [], by simp, fun after fuel enough => ?_⟩
          obtain ⟨fuel, rfl⟩ := positive enough
          simp [parseInstructions]
      | cons c rest =>
          refine ⟨.error (.thrown .exception), by simp, fun after fuel enough => ?_⟩
          obtain ⟨fuel, rfl⟩ := positive enough
          rw [empty] at unknown terminated
          rw [parseInstructions_word (by simp) terminated, findIdef_unknown unknown]
          rfl
  | @last idef count text c field known operands fields isField =>
      have last := readOperands_last fields isField
      rw [← operands] at last
      obtain ⟨values, reads⟩ := last
      refine ⟨.ok [⟨idef.bytecode, values⟩], by simp, fun after fuel enough => ?_⟩
      obtain ⟨fuel, rfl⟩ := positive enough
      obtain ⟨fuel, rfl⟩ : ∃ less, fuel = less + 1 :=
        positive (show 0 < fuel by simp at enough; omega)
      rw [parseInstructions_operands known terminated, reads]
      simp [bind, Except.bind, skipDelimiter, parseInstructions, pure, Except.pure]
  | @line idef text c rest known fields later ih =>
      have inner : (0 : Byte) ∉ text := fun member => terminated (by simp [member])
      obtain ⟨result, decided, parses⟩ := ih (fun member => inner (fields.suffix.mem member))
      obtain ⟨values, reads⟩ := readOperands_fields fields
      refine ⟨do return ⟨idef.bytecode, values⟩ :: (← result), ?_, fun after fuel enough => ?_⟩
      · cases result with
        | ok instructions => simp [bind, Except.bind, pure, Except.pure]
        | error e => exact fun stops => decided (by cases stops; rfl)
      · obtain ⟨fuel, rfl⟩ := positive enough
        have shorter : rest.length < fuel := by
          have := fields.suffix.length_le
          simp at enough
          omega
        rw [parseInstructions_operands known terminated, reads]
        simp only [bind, Except.bind, fields.skipped (operandCount_pos idef) inner,
          parses after fuel shorter]

/-- A text that is not complete is read past its terminator. -/
theorem parseInstructions_beyond {lineDelimiter : Byte} {text : List Byte}
    (incomplete : ¬Complete lineDelimiter text) (terminated : (0 : Byte) ∉ text) {fuel : Nat}
    (enough : text.length < fuel)
    : parseInstructions chpext lineDelimiter fuel (text ++ [0]) = .error .undefined := by
  induction length : text.length using Nat.strong_induction_on generalizing text fuel with
  | _ size ih =>
      obtain ⟨fuel, rfl⟩ := Nat.exists_eq_add_of_le' (Nat.one_le_of_lt enough)
      have nonempty : text ≠ [] := fun empty => incomplete (empty ▸ .nil)
      obtain ⟨idef, known, mnemonicEq⟩ : ∃ idef ∈ chpext.instructionDefs,
          idef.mnemonic = firstWord text := by
        by_contra unknown
        push Not at unknown
        exact incomplete (.word unknown)
      have parts : firstWord text ++ text.dropWhile (fun c => c != ascii ' ') = text :=
        List.takeWhile_append_dropWhile
      rw [parseInstructions_word nonempty terminated, ← mnemonicEq, findIdef_known known]
      cases rest : text.dropWhile (fun c => c != ascii ' ') with
      | nil =>
          -- The text ends with the mnemonic, and the first operand starts behind it.
          obtain ⟨count, operands⟩ := Nat.exists_eq_add_of_le' (operandCount_pos idef)
          have beyond : readOperands chpext lineDelimiter idef.operandCount [0]
              = .error .undefined := by
            rw [operands]
            rfl
          simp only [List.nil_append, bind, Except.bind, beyond]
      | cons space more =>
          obtain rfl : space = ascii ' ' := by
            have stop := List.head_dropWhile_not (l := text) (fun c => c != ascii ' ') (by simp [rest])
            simpa [rest] using stop
          rw [rest, ← mnemonicEq] at parts
          have inner : (0 : Byte) ∉ more := fun member => terminated (by
            rw [← parts]
            simp [member])
          rcases readOperands_cases lineDelimiter idef.operandCount (ascii ' ') inner with
            ⟨c, later, fields⟩ | ⟨fewer, c, field, operands, fields, isField⟩ | beyond
          · have again : ¬Complete lineDelimiter later := fun complete => incomplete (by
              rw [← parts]
              exact .line known fields complete)
            have shorter : later.length < text.length := by
              have := fields.suffix.length_le
              rw [← parts]
              simp
              omega
            have fuelLeft : later.length < fuel := by omega
            have recurse := ih later.length (length ▸ shorter) again
              (fun member => inner (fields.suffix.mem member)) fuelLeft rfl
            obtain ⟨values, reads⟩ := readOperands_fields fields
            simp only [List.cons_append, bind, Except.bind, reads,
              fields.skipped (operandCount_pos idef) inner, recurse]
          · exact absurd (by rw [← parts]; exact .last known operands fields isField) incomplete
          · simp only [List.cons_append, bind, Except.bind, beyond]

-----------------------------------------------------------------------------------------
-- Containment
-----------------------------------------------------------------------------------------

/-- Whatever follows the terminator, the parser returns or throws the same. Where the memory ends
with the terminator this means that nothing behind it is read.
-/
def StaysInside (lineDelimiter : Byte) (text : List Byte) : Prop :=
  ∃ result : Except Stop Program,
    ((∃ program, result = .ok program) ∨ ∃ e, result = .error (.thrown e))
    ∧ ∀ after, parseProgram chpext (cString text after) lineDelimiter = result

/-- A complete text is parsed or rejected without touching memory that is not its own. -/
theorem Complete.defined {lineDelimiter : Byte} {text : List Byte}
    (complete : Complete lineDelimiter (text.dropWhile isBlank)) (terminated : (0 : Byte) ∉ text)
    (after : List Byte)
    : parseProgram chpext (cString text after) lineDelimiter ≠ .error .undefined := by
  have inner : (0 : Byte) ∉ text.dropWhile isBlank := fun member =>
    terminated (List.dropWhile_suffix _ |>.mem member)
  have fuel : (text.dropWhile isBlank).length < (text.dropWhile isBlank ++ 0 :: after).length := by
    rw [List.length_append, List.length_cons]
    omega
  obtain ⟨result, decided, parses⟩ := complete.parses inner
  rw [parseProgram, removeLeadingWhitespace_eq]
  simp only [bind, Except.bind, parses after _ fuel]
  cases result with
  | ok instructions =>
      obtain ⟨program, stored, _⟩ := Program.ofArray_holds instructions
      simp [stored]
  | error e =>
      intro stops
      cases stops
      exact decided rfl

/-- The parser stays inside a text exactly when the lines of the text are complete. -/
theorem staysInside_iff {lineDelimiter : Byte} {text : List Byte}
    (terminated : (0 : Byte) ∉ text)
    : StaysInside lineDelimiter text ↔ Complete lineDelimiter (text.dropWhile isBlank) := by
  have inner : (0 : Byte) ∉ text.dropWhile isBlank := fun member =>
    terminated (List.dropWhile_suffix _ |>.mem member)
  have fuel (after : List Byte) : (text.dropWhile isBlank).length
      < (text.dropWhile isBlank ++ 0 :: after).length := by
    rw [List.length_append, List.length_cons]
    omega
  constructor
  · rintro ⟨result, decided, same⟩
    by_contra incomplete
    have beyond := parseInstructions_beyond incomplete inner (fuel [])
    have stops := same []
    rw [parseProgram, removeLeadingWhitespace_eq] at stops
    simp only [bind, Except.bind, beyond] at stops
    rcases decided with ⟨program, rfl⟩ | ⟨e, rfl⟩
    · cases stops
    · cases stops
  · intro complete
    obtain ⟨result, decided, parses⟩ := complete.parses inner
    cases result with
    | ok instructions =>
        obtain ⟨program, stored, _⟩ := Program.ofArray_holds instructions
        refine ⟨.ok program, Or.inl ⟨program, rfl⟩, fun after => ?_⟩
        rw [parseProgram, removeLeadingWhitespace_eq]
        simp only [bind, Except.bind, parses after _ (fuel after), stored]
    | error e =>
        have whole (after : List Byte)
            : parseProgram chpext (cString text after) lineDelimiter = .error e := by
          rw [parseProgram, removeLeadingWhitespace_eq]
          simp only [bind, Except.bind, parses after _ (fuel after)]
        have known := parseProgram_throws chpext (cString text []) lineDelimiter e (whole [])
        rcases known with rfl | rfl
        · exact ⟨_, Or.inr ⟨_, rfl⟩, whole⟩
        · exact absurd rfl decided

/-- On `h 0`, which is complete. -/
theorem staysInside_iff_h
    : StaysInside (ascii '\n') [ascii 'h', ascii ' ', ascii '0']
      ↔ Complete (ascii '\n') ([ascii 'h', ascii ' ', ascii '0'].dropWhile isBlank) :=
  staysInside_iff (by simp [ascii])

/-- `h` alone sends the pointer over the terminator. -/
theorem staysInside_fails_h
    : ¬∀ (lineDelimiter : Byte) (text : List Byte), 0 ∉ text → StaysInside lineDelimiter text := by
  intro claimed
  obtain ⟨result, decided, same⟩ := claimed (ascii '\n') [ascii 'h'] (by simp [ascii])
  have beyond : parseProgram chpext (cString [ascii 'h'] []) (ascii '\n') = .error .undefined :=
    rfl
  rw [← same [], beyond] at decided
  rcases decided with ⟨program, stops⟩ | ⟨e, stops⟩
  · cases stops
  · cases stops

end Sabot.Language
