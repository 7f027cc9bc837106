import Sabot.Language.Assembly

/-! Which texts the parser rejects. `stuif` checks nothing, so a text is turned down only when
the scan arrives at a word that is no mnemonic before the text ends.
-/

namespace Sabot.Language

/-- A field of a line: a block of bytes without operand delimiter, line delimiter or zero. -/
def IsField (lineDelimiter : Byte) (field : List Byte) : Prop :=
  ∀ c ∈ field, operandEnd chpext lineDelimiter c = false

/-- `Fields lineDelimiter count b text c rest`: after the byte `b` come `count` fields, each ended
by a comma or a line delimiter; `c` is the last of these and `rest` what follows it.
-/
inductive Fields (lineDelimiter : Byte) : Nat → Byte → List Byte → Byte → List Byte → Prop where
  | none {b rest} : Fields lineDelimiter 0 b rest b rest
  | field {count b field t more c rest} (isField : IsField lineDelimiter field)
      (ends : t = ascii ',' ∨ t = lineDelimiter) (others : Fields lineDelimiter count t more c rest)
      : Fields lineDelimiter (count + 1) b (field ++ t :: more) c rest

/-- The text up to the first space. -/
def firstWord (text : List Byte) : List Byte := text.takeWhile (fun c => c != ascii ' ')

/-- After some lines, whose fields may hold anything, comes a word that is no mnemonic. -/
inductive Rejects (lineDelimiter : Byte) : List Byte → Prop where
  | word {text} (nonempty : text ≠ [])
      (unknown : ∀ idef ∈ chpext.instructionDefs, idef.mnemonic ≠ firstWord text)
      : Rejects lineDelimiter text
  | line {idef text c rest} (known : idef ∈ chpext.instructionDefs)
      (fields : Fields lineDelimiter idef.operandCount (ascii ' ') text c rest)
      (later : Rejects lineDelimiter rest)
      : Rejects lineDelimiter (idef.mnemonic ++ ascii ' ' :: text)

-----------------------------------------------------------------------------------------
-- Rejected texts
-----------------------------------------------------------------------------------------

/-- The definition of a word that no mnemonic equals is not found. -/
theorem findIdef_unknown {word : List Byte}
    (unknown : ∀ idef ∈ chpext.instructionDefs, idef.mnemonic ≠ word)
    : chpext.findIdef word = .error (.thrown .exception) := by
  have none : chpext.instructionDefs.find? (fun idef => idef.mnemonic == word) = none := by
    rw [List.find?_eq_none]
    intro idef member
    simpa using unknown idef member
  rw [Dialect.findIdef, none]

/-- The opcode scan takes the first word of a text. -/
theorem scan_opcode {text : List Byte} (terminated : (0 : Byte) ∉ text) (after : List Byte)
    : ∃ pos, scan (fun c => c == chpext.opcodeDelimiter || c == 0) (text ++ 0 :: after)
          = .ok (firstWord text, pos)
        ∧ (text = firstWord text ∧ pos = 0 :: after
          ∨ ∃ more, text = firstWord text ++ ascii ' ' :: more
            ∧ pos = ascii ' ' :: (more ++ 0 :: after)) := by
  induction text with
  | nil => exact ⟨0 :: after, by simp [scan, firstWord], Or.inl ⟨rfl, rfl⟩⟩
  | cons c rest ih =>
      simp only [List.mem_cons, not_or] at terminated
      by_cases space : c = ascii ' '
      · subst space
        refine ⟨ascii ' ' :: (rest ++ 0 :: after), ?_, Or.inr ⟨rest, ?_, rfl⟩⟩
        · simp [scan, firstWord, chpext]
        · simp [firstWord]
      · obtain ⟨pos, ran, split⟩ := ih terminated.2
        have word : firstWord (c :: rest) = c :: firstWord rest := by
          simp [firstWord, space]
        have stay : (c == chpext.opcodeDelimiter || c == 0) = false := by
          simp [chpext, space, Ne.symm terminated.1]
        refine ⟨pos, ?_, ?_⟩
        · simp only [List.cons_append, scan, stay, ran, word]
          rfl
        · rcases split with ⟨whole, posEq⟩ | ⟨more, whole, posEq⟩
          · exact Or.inl ⟨by rw [word, ← whole], posEq⟩
          · exact Or.inr ⟨more, by rw [word, List.cons_append, ← whole], posEq⟩

/-- The value of a field depends on the field and the byte that ends it. -/
theorem stuif_field (field : List Byte) (t : Byte)
    : ∃ value, ∀ rest, stuif (field ++ t :: rest) field.length = .ok value := by
  cases field with
  | nil => exact ⟨_, fun _ => rfl⟩
  | cons c more =>
      refine ⟨more.foldl (fun result c => result * 10 + digit c) (digit c), fun rest => ?_⟩
      simp [stuif]

/-- Fields are read one by one, whatever they hold and whatever follows the text. -/
theorem readOperands_fields {lineDelimiter : Byte} {count : Nat} {b c : Byte}
    {text rest : List Byte} (fields : Fields lineDelimiter count b text c rest)
    : ∃ values, ∀ after, readOperands chpext lineDelimiter count (b :: (text ++ 0 :: after))
        = .ok (values, c :: (rest ++ 0 :: after)) := by
  induction fields with
  | none => exact ⟨.nil, fun _ => rfl⟩
  | @field count b field t more c rest isField ends others ih =>
      obtain ⟨values, ran⟩ := ih
      have stops : operandEnd chpext lineDelimiter t = true := by
        rcases ends with rfl | rfl <;> simp [operandEnd, chpext]
      obtain ⟨value, valueEq⟩ := stuif_field field t
      refine ⟨value ::ᵥ values, fun after => ?_⟩
      have scanned := scan_append (more ++ 0 :: after) isField stops
      simp only [readOperands, List.append_assoc, List.cons_append, bind, Except.bind, scanned,
        valueEq, ran]
      rfl

theorem Fields.last {lineDelimiter : Byte} {count : Nat} {b c : Byte} {text rest : List Byte}
    (fields : Fields lineDelimiter count b text c rest)
    (positive : 0 < count)
    : c = ascii ',' ∨ c = lineDelimiter := by
  induction fields with
  | none => exact absurd positive (lt_irrefl 0)
  | @field count b field t more c rest isField ends others ih =>
      cases others with
      | none => exact ends
      | field _ _ _ => exact ih (Nat.succ_pos _)

/-- What follows the fields is a part of the text, shorter when there was a field. -/
theorem Fields.suffix {lineDelimiter : Byte} {count : Nat} {b c : Byte} {text rest : List Byte}
    (fields : Fields lineDelimiter count b text c rest)
    : rest <:+ text := by
  induction fields with
  | none => exact List.suffix_rfl
  | field _ _ _ ih => exact ih.trans ((List.suffix_cons _ _).trans (List.suffix_append _ _))

theorem operandCount_pos (idef : InstructionDefinition) : 0 < idef.operandCount := by
  unfold InstructionDefinition.operandCount
  cases idef.bytecode <;> decide

/-- The first word of a line is its mnemonic. -/
theorem firstWord_line {idef : InstructionDefinition} (known : idef ∈ chpext.instructionDefs)
    (text : List Byte)
    : firstWord (idef.mnemonic ++ ascii ' ' :: text) = idef.mnemonic := by
  have bytes := (mnemonic_spec known).2
  rw [firstWord, List.takeWhile_append_of_pos (fun c member => by simpa using (bytes c member).1)]
  simp

section Verdicts

variable {lineDelimiter : Byte} (notNul : lineDelimiter ≠ 0)
include notNul

theorem Fields.skipDelimiter_eq {count : Nat} {b c : Byte} {text rest : List Byte}
    (fields : Fields lineDelimiter count b text c rest) (positive : 0 < count)
    (after : List Byte)
    : skipDelimiter (c :: (rest ++ 0 :: after)) = .ok (rest ++ 0 :: after) := by
  have nonzero : c ≠ 0 := by
    rcases fields.last positive with rfl | rfl
    · decide
    · exact notNul
  simp [skipDelimiter, nonzero]

/-- A rejected text makes the parser throw, whatever follows the terminator. -/
theorem parseInstructions_rejects {text : List Byte} (rejects : Rejects lineDelimiter text)
    (terminated : (0 : Byte) ∉ text) (after : List Byte) {fuel : Nat}
    (enough : text.length < fuel)
    : parseInstructions chpext lineDelimiter fuel (text ++ 0 :: after)
      = .error (.thrown .exception) := by
  induction rejects generalizing fuel with
  | @word text nonempty unknown =>
      obtain ⟨pos, scanned, _⟩ := scan_opcode terminated after
      obtain ⟨c, rest, rfl⟩ := List.exists_cons_of_ne_nil nonempty
      obtain ⟨fuel, rfl⟩ := Nat.exists_eq_add_of_le' (Nat.one_le_of_lt enough)
      have first : c ≠ 0 := fun zero => terminated (by simp [zero])
      rw [List.cons_append] at scanned ⊢
      simp only [parseInstructions, beq_eq_false_iff_ne.mpr first, Bool.false_eq_true, if_false,
        scanned, bind, Except.bind, findIdef_unknown unknown]
  | @line idef text c rest known fields later ih =>
      obtain ⟨pos, scanned, split⟩ := scan_opcode terminated after
      obtain ⟨fuel, rfl⟩ := Nat.exists_eq_add_of_le' (Nat.one_le_of_lt enough)
      rw [firstWord_line known] at scanned split
      obtain ⟨values, reads⟩ := readOperands_fields fields
      have ran := reads after
      have skips := fields.skipDelimiter_eq notNul (operandCount_pos idef) after
      have posEq : pos = ascii ' ' :: (text ++ 0 :: after) := by
        rcases split with ⟨whole, _⟩ | ⟨more, whole, posEq⟩
        · simp at whole
        · obtain rfl : text = more := by simpa using whole
          exact posEq
      obtain ⟨nonempty, bytes⟩ := mnemonic_spec known
      obtain ⟨first, others, mnemonicEq⟩ := List.exists_cons_of_ne_nil nonempty
      have firstNotNul := (bytes first (by rw [mnemonicEq]; exact List.mem_cons_self)).2.2
      have shorter : rest.length < fuel := by
        have := fields.suffix.length_le
        simp [mnemonicEq] at enough
        omega
      have recurse := ih (fun member => terminated (by simp [fields.suffix.mem member])) shorter
      obtain ⟨tail, textEq⟩ : ∃ tail, idef.mnemonic ++ ascii ' ' :: text ++ 0 :: after
          = first :: tail := by
        simp [mnemonicEq]
      rw [textEq] at scanned ⊢
      simp only [parseInstructions, beq_eq_false_iff_ne.mpr firstNotNul, Bool.false_eq_true,
        if_false, scanned, bind, Except.bind, findIdef_known known, posEq, ran, skips, recurse]

-----------------------------------------------------------------------------------------
-- Accepted texts
-----------------------------------------------------------------------------------------

omit notNul in
/-- Past the end of the text every operand is found to be empty. -/
theorem readOperands_zeros (count more : Nat)
    : ∃ values, readOperands chpext lineDelimiter count (0 :: List.replicate (count + more) 0)
        = .ok (values, 0 :: List.replicate more 0) := by
  induction count with
  | zero => exact ⟨.nil, by simp [readOperands]⟩
  | succ count ih =>
      obtain ⟨values, ran⟩ := ih
      have zeros : List.replicate (count + 1 + more) (0 : Byte)
          = 0 :: List.replicate (count + more) 0 := by
        rw [Nat.add_right_comm, List.replicate_succ]
      have scanned : scan (operandEnd chpext lineDelimiter)
          ((0 : Byte) :: List.replicate (count + more) 0)
          = .ok ([], 0 :: List.replicate (count + more) 0) := by
        simp [scan, operandEnd]
      refine ⟨digit 0 ::ᵥ values, ?_⟩
      rw [zeros]
      simp only [readOperands, scanned, bind, Except.bind, ran]
      rfl

omit notNul in
/-- A text is one field, or starts with a field and the byte that ends it. -/
theorem isField_or_split (lineDelimiter : Byte) (text : List Byte)
    : IsField lineDelimiter text
      ∨ ∃ field t more, text = field ++ t :: more ∧ IsField lineDelimiter field
        ∧ operandEnd chpext lineDelimiter t = true := by
  induction text with
  | nil => exact Or.inl (fun c member => absurd member List.not_mem_nil)
  | cons c rest ih =>
      cases stops : operandEnd chpext lineDelimiter c with
      | true =>
          exact Or.inr ⟨[], c, rest, rfl, fun _ member => absurd member List.not_mem_nil, stops⟩
      | false =>
          rcases ih with whole | ⟨field, t, more, rfl, isField, ends⟩
          · exact Or.inl (List.forall_mem_cons.mpr ⟨stops, whole⟩)
          · exact Or.inr ⟨c :: field, t, more, rfl, List.forall_mem_cons.mpr ⟨stops, isField⟩, ends⟩

omit notNul in
/-- A text holds enough fields, or the operands are read to the zeros behind it. -/
theorem readOperands_fields_or_zeros (count : Nat) (b : Byte) {text : List Byte}
    (terminated : (0 : Byte) ∉ text) (spare : Nat)
    : (∃ c rest, Fields lineDelimiter count b text c rest)
      ∨ ∃ values more, readOperands chpext lineDelimiter count
          (b :: (text ++ 0 :: List.replicate (count + spare) 0))
        = .ok (values, 0 :: List.replicate more 0) := by
  induction count generalizing b text spare with
  | zero => exact Or.inl ⟨b, text, .none⟩
  | succ count ih =>
      rcases isField_or_split lineDelimiter text with whole | ⟨field, t, more, rfl, isField, stops⟩
      · -- The text ends within this operand.
        right
        have scanned := scan_append (List.replicate (count + 1 + spare) 0) whole
          (show operandEnd chpext lineDelimiter 0 = true by simp [operandEnd])
        obtain ⟨values, ran⟩ := @readOperands_zeros lineDelimiter count (1 + spare)
        rw [← Nat.add_assoc] at ran
        obtain ⟨value, valueEq⟩ := stuif_field text 0
        refine ⟨value ::ᵥ values, 1 + spare, ?_⟩
        simp only [readOperands, bind, Except.bind, scanned, valueEq, ran]
        rfl
      · have rest : (0 : Byte) ∉ more := fun member => terminated (by simp [member])
        have notNul : t ≠ 0 := fun zero => terminated (by simp [zero])
        have ends : t = ascii ',' ∨ t = lineDelimiter := by
          simpa [operandEnd, chpext, notNul] using stops
        rcases ih t rest (1 + spare) with ⟨c, last, fields⟩ | ⟨values, zeros, ran⟩
        · exact Or.inl ⟨c, last, .field isField ends fields⟩
        · right
          rw [← Nat.add_assoc] at ran
          have scanned := scan_append (more ++ 0 :: List.replicate (count + 1 + spare) 0)
            isField stops
          obtain ⟨value, valueEq⟩ := stuif_field field t
          refine ⟨value ::ᵥ values, zeros, ?_⟩
          simp only [readOperands, List.append_assoc, List.cons_append, bind, Except.bind, scanned,
            valueEq, ran]
          rfl

/-- A text that is not rejected is parsed to some program when two zeros follow it: running over
its end is then the only thing that can go wrong, and goes unnoticed.
-/
theorem parseInstructions_not_rejects {text : List Byte}
    (accepted : ¬Rejects lineDelimiter text) (terminated : (0 : Byte) ∉ text) {fuel : Nat}
    (enough : text.length + 1 < fuel)
    : ∃ instructions, parseInstructions chpext lineDelimiter fuel
        (text ++ 0 :: List.replicate 2 0) = .ok instructions := by
  induction length : text.length using Nat.strong_induction_on generalizing text fuel with
  | _ size ih =>
      obtain ⟨fuel, rfl⟩ := Nat.exists_eq_add_of_le' (Nat.one_le_of_lt enough)
      have ended (more : Nat)
          : parseInstructions chpext lineDelimiter fuel (0 :: List.replicate more 0) = .ok [] := by
        obtain ⟨fuel, rfl⟩ := Nat.exists_eq_add_of_le' (show 1 ≤ fuel by omega)
        simp [parseInstructions]
      have stays (more : Nat) : skipDelimiter (0 :: List.replicate more 0)
          = .ok (0 :: List.replicate more 0) := rfl
      cases text with
      | nil => exact ⟨[], by simp [parseInstructions]⟩
      | cons first others =>
          obtain ⟨idef, known, mnemonicEq⟩ : ∃ idef ∈ chpext.instructionDefs,
              idef.mnemonic = firstWord (first :: others) := by
            by_contra unknown
            push Not at unknown
            exact accepted (.word (by simp) unknown)
          have firstNotNul : first ≠ 0 := fun zero => terminated (by simp [zero])
          obtain ⟨pos, scanned, split⟩ := scan_opcode terminated (List.replicate 2 0)
          rw [← mnemonicEq] at scanned split
          obtain ⟨values, next, rest, instructions, ran, skips, parses⟩ :
              ∃ values next rest instructions,
              readOperands chpext lineDelimiter idef.operandCount pos = .ok (values, next)
              ∧ skipDelimiter next = .ok rest
              ∧ parseInstructions chpext lineDelimiter fuel rest = .ok instructions := by
            have two : ∃ spare, 2 = idef.operandCount + spare := by
              unfold InstructionDefinition.operandCount
              cases idef.bytecode
              all_goals first | exact ⟨0, rfl⟩ | exact ⟨1, rfl⟩
            obtain ⟨spare, two⟩ := two
            rw [two] at split
            rcases split with ⟨_, rfl⟩ | ⟨more, whole, rfl⟩
            · obtain ⟨values, ran⟩ := @readOperands_zeros lineDelimiter idef.operandCount spare
              exact ⟨values, _, _, [], ran, stays _, ended _⟩
            · have inner : (0 : Byte) ∉ more := fun member => terminated (by
                rw [whole]
                simp [member])
              rcases @readOperands_fields_or_zeros lineDelimiter idef.operandCount (ascii ' ') _
                inner spare with ⟨c, rest, fields⟩ | ⟨values, zeros, ran⟩
              · have later : ¬Rejects lineDelimiter rest := fun rejects => accepted (by
                  rw [whole]
                  exact .line known fields rejects)
                have shorter : rest.length < (first :: others).length := by
                  have := fields.suffix.length_le
                  rw [whole]
                  simp
                  omega
                have fuelLeft : rest.length + 1 < fuel := by omega
                obtain ⟨instructions, parses⟩ := ih _ (by rw [← length]; exact shorter) later
                  (fun member => inner (fields.suffix.mem member)) fuelLeft rfl
                obtain ⟨values, reads⟩ := readOperands_fields fields
                have ran := reads (List.replicate 2 0)
                have skips := fields.skipDelimiter_eq notNul (operandCount_pos idef)
                  (List.replicate 2 0)
                rw [two] at ran skips
                exact ⟨values, _, _, instructions, ran, skips, two ▸ parses⟩
              · exact ⟨values, _, _, [], ran, stays _, ended _⟩
          refine ⟨⟨idef.bytecode, values⟩ :: instructions, ?_⟩
          rw [List.cons_append] at scanned ⊢
          simp only [parseInstructions, beq_eq_false_iff_ne.mpr firstNotNul, Bool.false_eq_true,
            if_false, scanned, bind, Except.bind, findIdef_known known, ran, skips, parses]
          rfl

end Verdicts

-----------------------------------------------------------------------------------------
-- Soundness
-----------------------------------------------------------------------------------------

/-- Whatever follows the text in memory, a returned program holds the instructions of the lines
that the text is made of.
-/
def ParsesSoundly (lineDelimiter : Byte) (text : List Byte) : Prop :=
  ∀ after program, parseProgram chpext (cString text after) lineDelimiter = .ok program
    → ∃ lines trailing, WrittenAs lineDelimiter text lines trailing
      ∧ program.instructions.Holds (lines.map Line.instruction)

/-- The parser is sound on a text exactly when the text is made of lines, or reaches a word that
is no mnemonic before it ends.
-/
theorem parsesSoundly_iff {lineDelimiter : Byte} (delimits : Delimits lineDelimiter)
    {text : List Byte} (terminated : (0 : Byte) ∉ text)
    : ParsesSoundly lineDelimiter text
      ↔ (∃ lines trailing, WrittenAs lineDelimiter text lines trailing)
        ∨ Rejects lineDelimiter (text.dropWhile isBlank) := by
  have inner : (0 : Byte) ∉ text.dropWhile isBlank := fun member =>
    terminated (List.dropWhile_suffix _ |>.mem member)
  constructor
  · intro sound
    by_contra neither
    push Not at neither
    obtain ⟨notWritten, accepted⟩ := neither
    -- Two zeros behind the terminator let the parser return.
    have fuel : (text.dropWhile isBlank).length + 1
        < (text.dropWhile isBlank ++ 0 :: List.replicate 2 0).length := by simp
    obtain ⟨instructions, parses⟩ :=
      parseInstructions_not_rejects delimits.notNul accepted inner fuel
    obtain ⟨program, stored, _⟩ := Program.ofArray_holds instructions
    have parsed : parseProgram chpext (cString text (List.replicate 2 0)) lineDelimiter
        = .ok program := by
      rw [parseProgram, removeLeadingWhitespace_eq]
      simp only [bind, Except.bind, parses, stored]
    obtain ⟨lines, trailing, written, _⟩ := sound _ _ parsed
    exact notWritten lines trailing written
  · rintro (⟨lines, trailing, written⟩ | rejects) after program parsed
    · obtain ⟨program', parsed', holds⟩ := parseProgram_lines delimits written after
      obtain rfl : program' = program := by
        rw [parsed'] at parsed
        exact Except.ok.inj parsed
      exact ⟨lines, trailing, written, holds⟩
    · have fuel : (text.dropWhile isBlank).length
          < (text.dropWhile isBlank ++ 0 :: after).length := by
        rw [List.length_append, List.length_cons]
        omega
      have thrown := parseInstructions_rejects delimits.notNul rejects inner after fuel
      rw [parseProgram, removeLeadingWhitespace_eq] at parsed
      simp only [bind, Except.bind, thrown] at parsed
      cases parsed

/-- On `h 0`, a line, and the newline as delimiter. -/
theorem parsesSoundly_iff_h
    : ParsesSoundly (ascii '\n') [ascii 'h', ascii ' ', ascii '0']
      ↔ (∃ lines trailing,
            WrittenAs (ascii '\n') [ascii 'h', ascii ' ', ascii '0'] lines trailing)
        ∨ Rejects (ascii '\n') ([ascii 'h', ascii ' ', ascii '0'].dropWhile isBlank) :=
  parsesSoundly_iff ⟨by simp [ascii], by simp [isDigit, ascii]⟩ (by simp [ascii])

/-- The bytes of joined items are the delimiter and the bytes of the items. -/
theorem mem_intercalate {c d : Byte} {items : List (List Byte)}
    (member : c ∈ [d].intercalate items)
    : c = d ∨ ∃ item ∈ items, c ∈ item := by
  induction items with
  | nil => simp [List.intercalate] at member
  | cons first rest ih =>
      cases rest with
      | nil => exact Or.inr ⟨first, by simp, by simpa using member⟩
      | cons second more =>
          rw [intercalate_cons_cons] at member
          rcases List.mem_append.mp member with here | there
          · exact Or.inr ⟨first, by simp, here⟩
          · rcases List.mem_cons.mp there with same | later
            · exact Or.inl same
            · rcases ih later with same | ⟨item, inside, byte⟩
              · exact Or.inl same
              · exact Or.inr ⟨item, List.mem_cons_of_mem _ inside, byte⟩

/-- A text of lines has no bytes but those of mnemonics, digits and delimiters. -/
theorem mem_linesText {lineDelimiter c : Byte} {lines : List Line} {trailing : Bool}
    (member : c ∈ linesText lineDelimiter lines trailing)
    : c = lineDelimiter ∨ c = ascii ' ' ∨ c = ascii ',' ∨ isDigit c = true
      ∨ ∃ idef ∈ chpext.instructionDefs, c ∈ idef.mnemonic := by
  rcases List.mem_append.mp member with inLines | inTrailing
  · rcases mem_intercalate inLines with same | ⟨item, isLine, byte⟩
    · exact Or.inl same
    · obtain ⟨line, _, rfl⟩ := List.mem_map.mp isLine
      rcases List.mem_append.mp byte with inMnemonic | inRest
      · exact Or.inr (Or.inr (Or.inr (Or.inr ⟨_, line.known, inMnemonic⟩)))
      · rcases List.mem_cons.mp inRest with same | inOperands
        · exact Or.inr (Or.inl same)
        · rcases mem_intercalate inOperands with same | ⟨item, isNumeral, digit⟩
          · exact Or.inr (Or.inr (Or.inl same))
          · obtain ⟨numeral, _, rfl⟩ := List.mem_map.mp isNumeral
            exact Or.inr (Or.inr (Or.inr (Or.inl (numeral.allDigits c digit))))
  · left
    split at inTrailing
    · exact List.mem_singleton.mp inTrailing
    · exact absurd inTrailing List.not_mem_nil

/-- `h -1` is parsed, although its operand is no numeral. -/
theorem parsesSoundly_fails_minus_one
    : ¬∀ lineDelimiter, Delimits lineDelimiter → lineDelimiter ≠ ascii ' '
        → lineDelimiter ≠ ascii ','
        → ∀ text : List Byte, 0 ∉ text → ParsesSoundly lineDelimiter text := by
  intro claimed
  have sound := claimed (ascii '\n') ⟨by simp [ascii], by simp [isDigit, ascii]⟩
    (by simp [ascii]) (by simp [ascii])
    [ascii 'h', ascii ' ', ascii '-', ascii '1'] (by simp [ascii])
  obtain ⟨program, parsed⟩ : ∃ program,
      parseProgram chpext (cString [ascii 'h', ascii ' ', ascii '-', ascii '1'] [])
        (ascii '\n') = .ok program := ⟨_, rfl⟩
  obtain ⟨lines, trailing, written, _⟩ := sound [] program parsed
  have minus : ascii '-' ∈ linesText (ascii '\n') lines trailing := by
    rw [← written.body]
    simp [isBlank, ascii]
  simpa [chpext, isDigit, ascii] using mem_linesText minus

end Sabot.Language
