import Sabot.Language.Interpreter

/-! The lines that the documentation describes, and what `parse_program` makes of them: a
mnemonic, a space and decimal operands joined by commas, one line after the other.
-/

namespace Sabot.Language

-----------------------------------------------------------------------------------------
-- Numerals
-----------------------------------------------------------------------------------------

/-- An ASCII decimal digit. -/
def isDigit (c : Byte) : Bool := ascii '0' ≤ c && c ≤ ascii '9'

/-- The value of a block of decimal digits. -/
def numeralValue (digits : List Byte) : Nat :=
  digits.foldl (fun value c => value * 10 + (c.toNat - 48)) 0

/-- A non-empty block of decimal digits whose value fits in an operand. -/
structure Numeral where
  digits : List Byte
  nonempty : digits ≠ []
  allDigits : ∀ c ∈ digits, isDigit c = true
  fits : numeralValue digits < 2 ^ 64

def Numeral.value (numeral : Numeral) : Operand := UInt64.ofNat (numeralValue numeral.digits)

theorem isDigit_iff (c : Byte) : isDigit c = true ↔ 48 ≤ c.toNat ∧ c.toNat ≤ 57 := by
  simp [isDigit, ascii, UInt8.le_iff_toNat_le]

/-- The signed difference that `stuif` computes is the digit's value. -/
theorem digit_eq {c : Byte} (decimal : isDigit c = true)
    : digit c = UInt64.ofNat (c.toNat - 48) := by
  obtain ⟨low, high⟩ := (isDigit_iff c).mp decimal
  obtain ⟨k, rfl⟩ : ∃ k, c = UInt8.ofNat k := ⟨c.toNat, by simp⟩
  generalize same : (UInt8.ofNat k).toNat = value at low high
  have back : UInt8.ofNat k = UInt8.ofNat value := by rw [← same, UInt8.ofNat_toNat]
  rw [back]
  interval_cases value <;> rfl

/-- The accumulating loop computes the decimal value modulo the word size. -/
theorem foldl_digit {digits : List Byte} (decimal : ∀ c ∈ digits, isDigit c = true) (start : Nat)
    : digits.foldl (fun result c => result * 10 + digit c) (UInt64.ofNat start)
      = UInt64.ofNat (digits.foldl (fun value c => value * 10 + (c.toNat - 48)) start) := by
  induction digits generalizing start with
  | nil => rfl
  | cons c rest ih =>
      have here := digit_eq (decimal c List.mem_cons_self)
      have step : UInt64.ofNat start * 10 + digit c
          = UInt64.ofNat (start * 10 + (c.toNat - 48)) := by
        rw [here, UInt64.ofNat_add, UInt64.ofNat_mul]
        rfl
      rw [List.foldl_cons, List.foldl_cons, step]
      exact ih (fun c member => decimal c (List.mem_cons_of_mem _ member)) _

/-- On a numeral followed by anything, `stuif` returns the numeral's value. -/
theorem stuif_numeral (numeral : Numeral) (rest : List Byte)
    : stuif (numeral.digits ++ rest) numeral.digits.length = .ok numeral.value := by
  obtain ⟨digits, nonempty, decimal, fits⟩ := numeral
  cases digits with
  | nil => exact absurd rfl nonempty
  | cons c more =>
      have here := digit_eq (decimal c List.mem_cons_self)
      have value := foldl_digit (fun c member => decimal c (List.mem_cons_of_mem _ member))
        (c.toNat - 48)
      simp only [stuif, List.cons_append, List.length_cons, Nat.add_sub_cancel,
        List.take_left', here, value, Numeral.value, numeralValue, List.foldl_cons, Nat.zero_mul,
        Nat.zero_add]

-----------------------------------------------------------------------------------------
-- Lines
-----------------------------------------------------------------------------------------

/-- A line of a program: a known mnemonic with a numeral for each operand. -/
structure Line where
  idef : InstructionDefinition
  known : idef ∈ chpext.instructionDefs
  numerals : List.Vector Numeral idef.operandCount

/-- The mnemonic, one space, and the numerals joined by commas. -/
def Line.text (line : Line) : List Byte :=
  line.idef.mnemonic ++ ascii ' '
    :: [ascii ','].intercalate (line.numerals.toList.map Numeral.digits)

/-- The instruction that a line stands for. -/
def Line.instruction (line : Line) : Instruction :=
  ⟨line.idef.bytecode, line.numerals.map Numeral.value⟩

/-- The lines separated by the delimiter, which may also follow the last one. -/
def linesText (lineDelimiter : Byte) (lines : List Line) (trailing : Bool) : List Byte :=
  [lineDelimiter].intercalate (lines.map Line.text) ++ if trailing then [lineDelimiter] else []

/-- A delimiter that cannot be confused with the end of the text or a digit. -/
structure Delimits (lineDelimiter : Byte) : Prop where
  notNul : lineDelimiter ≠ 0
  notDigit : isDigit lineDelimiter = false

/-- A scan stops at the first byte that is accepted. -/
theorem scan_append {stop : Byte → Bool} {passed : List Byte} {c : Byte} (rest : List Byte)
    (through : ∀ b ∈ passed, stop b = false) (stops : stop c = true)
    : scan stop (passed ++ c :: rest) = .ok (passed, c :: rest) := by
  induction passed with
  | nil => simp [scan, stops]
  | cons b passed ih =>
      have here := through b List.mem_cons_self
      simp [scan, here, ih (fun b member => through b (List.mem_cons_of_mem _ member))]

/-- Mnemonics are not empty and contain neither the opcode delimiter nor the terminator. -/
theorem mnemonic_spec {idef : InstructionDefinition} (known : idef ∈ chpext.instructionDefs)
    : idef.mnemonic ≠ []
      ∧ ∀ c ∈ idef.mnemonic, c ≠ ascii ' ' ∧ c ≠ ascii '\t' ∧ c ≠ 0 := by
  simp only [chpext, List.mem_cons, List.not_mem_nil, or_false] at known
  rcases known with rfl | rfl | rfl | rfl | rfl | rfl | rfl | rfl | rfl | rfl <;> simp [ascii]

/-- A mnemonic is found by its own definition, although some are prefixes of others. -/
theorem findIdef_known {idef : InstructionDefinition} (known : idef ∈ chpext.instructionDefs)
    : chpext.findIdef idef.mnemonic = .ok idef := by
  simp only [chpext, List.mem_cons, List.not_mem_nil, or_false] at known
  rcases known with rfl | rfl | rfl | rfl | rfl | rfl | rfl | rfl | rfl | rfl <;> rfl

-----------------------------------------------------------------------------------------
-- Reading lines
-----------------------------------------------------------------------------------------

/-- Joining with a delimiter, one item at a time. -/
theorem intercalate_cons_cons (c : Byte) (first second : List Byte) (rest : List (List Byte))
    : [c].intercalate (first :: second :: rest)
      = first ++ c :: [c].intercalate (second :: rest) := by
  simp [List.intercalate]

theorem intercalate_single (c : Byte) (item : List Byte) : [c].intercalate [item] = item := by
  simp [List.intercalate]

section Reading

variable {lineDelimiter : Byte} (delimits : Delimits lineDelimiter)
include delimits

theorem operandEnd_of_isDigit {c : Byte} (decimal : isDigit c = true)
    : operandEnd chpext lineDelimiter c = false := by
  have notDelimiter : c ≠ lineDelimiter := by
    rintro rfl
    rw [delimits.notDigit] at decimal
    cases decimal
  have notComma : c ≠ ascii ',' := by
    rintro rfl
    revert decimal
    decide
  have notNul : c ≠ 0 := by
    rintro rfl
    revert decimal
    decide
  simp [operandEnd, chpext, notDelimiter, notComma, notNul]

/-- One numeral is read up to the byte that ends it. -/
theorem scan_numeral (numeral : Numeral) {c : Byte} (rest : List Byte)
    (ends : operandEnd chpext lineDelimiter c = true)
    : scan (operandEnd chpext lineDelimiter) (numeral.digits ++ c :: rest)
      = .ok (numeral.digits, c :: rest) :=
  scan_append rest (fun b member => operandEnd_of_isDigit delimits (numeral.allDigits b member)) ends

/-- Operands joined by commas are read one by one, up to the byte that ends the last one. -/
theorem readOperands_numerals {count : Nat} (numerals : List.Vector Numeral (count + 1))
    (b : Byte) {c : Byte} (ends : operandEnd chpext lineDelimiter c = true) (rest : List Byte)
    : readOperands chpext lineDelimiter (count + 1)
        (b :: ([ascii ','].intercalate (numerals.toList.map Numeral.digits) ++ c :: rest))
      = .ok (numerals.map Numeral.value, c :: rest) := by
  induction count generalizing b with
  | zero =>
      obtain ⟨numeral, none, rfl⟩ := numerals.exists_eq_cons
      obtain rfl : none = .nil := Subsingleton.elim _ _
      have text : [ascii ','].intercalate
          ((List.Vector.cons numeral .nil).toList.map Numeral.digits) = numeral.digits :=
        intercalate_single _ _
      simp only [text, readOperands, scan_numeral delimits numeral rest ends, bind, Except.bind,
        stuif_numeral]
      rfl
  | succ count ih =>
      obtain ⟨numeral, others, rfl⟩ := numerals.exists_eq_cons
      obtain ⟨second, more, moreEq⟩ := others.exists_eq_cons
      have comma : operandEnd chpext lineDelimiter (ascii ',') = true := by
        simp [operandEnd, chpext]
      have text : [ascii ','].intercalate
            ((List.Vector.cons numeral others).toList.map Numeral.digits) ++ c :: rest
          = numeral.digits ++ ascii ','
            :: ([ascii ','].intercalate (others.toList.map Numeral.digits) ++ c :: rest) := by
        rw [moreEq]
        simp only [List.Vector.toList_cons, List.map_cons, intercalate_cons_cons,
          List.append_assoc, List.cons_append]
      have later := ih others (ascii ',')
      rw [readOperands, text]
      simp only [scan_numeral delimits numeral _ comma, bind, Except.bind, stuif_numeral, later]
      rfl

/-- A line is read to the byte that ends it, with the instruction that it stands for. -/
theorem readLine (line : Line) {c : Byte} (ends : operandEnd chpext lineDelimiter c = true)
    (rest : List Byte)
    : scan (fun c => c == chpext.opcodeDelimiter || c == 0) (line.text ++ c :: rest)
        = .ok (line.idef.mnemonic,
            ascii ' ' :: ([ascii ','].intercalate (line.numerals.toList.map Numeral.digits)
              ++ c :: rest))
      ∧ readOperands chpext lineDelimiter line.idef.operandCount
          (ascii ' ' :: ([ascii ','].intercalate (line.numerals.toList.map Numeral.digits)
            ++ c :: rest))
        = .ok (line.numerals.map Numeral.value, c :: rest) := by
  obtain ⟨idef, known, numerals⟩ := line
  constructor
  · simp only [Line.text, List.append_assoc, List.cons_append]
    refine scan_append _ ?_ (by simp [chpext])
    intro b member
    obtain ⟨notSpace, _, notNul⟩ := (mnemonic_spec known).2 b member
    simp [chpext, notSpace, notNul]
  · obtain ⟨mnemonic, bytecode⟩ := idef
    cases bytecode <;> exact readOperands_numerals delimits numerals _ ends rest

/-- One round of the parser on a line. -/
theorem parseInstructions_line (line : Line) {c : Byte}
    (ends : operandEnd chpext lineDelimiter c = true) (rest : List Byte) (fuel : Nat)
    {next : List Byte} (skips : skipDelimiter (c :: rest) = .ok next)
    {instructions : List Instruction}
    (parses : parseInstructions chpext lineDelimiter fuel next = .ok instructions)
    : parseInstructions chpext lineDelimiter (fuel + 1) (line.text ++ c :: rest)
      = .ok (line.instruction :: instructions) := by
  obtain ⟨opcode, operands⟩ := readLine delimits line ends rest
  obtain ⟨nonempty, bytes⟩ := mnemonic_spec line.known
  obtain ⟨first, others, mnemonicEq⟩ := List.exists_cons_of_ne_nil nonempty
  have notNul : first ≠ 0 := (bytes first (by rw [mnemonicEq]; exact List.mem_cons_self)).2.2
  obtain ⟨text, textEq⟩ : ∃ text, line.text ++ c :: rest = first :: text := by
    simp [Line.text, mnemonicEq]
  rw [textEq] at opcode ⊢
  simp only [parseInstructions, beq_eq_false_iff_ne.mpr notNul, Bool.false_eq_true, if_false,
    opcode, bind, Except.bind, findIdef_known line.known, operands, skips, parses]
  rfl

/-- The instructions of a text are those of its lines, whatever follows the terminator. -/
theorem parseInstructions_lines (lines : List Line) {trailing : Bool}
    (last : trailing = true → lines ≠ []) (after : List Byte) {fuel : Nat}
    (enough : (linesText lineDelimiter lines trailing ++ 0 :: after).length ≤ fuel)
    : parseInstructions chpext lineDelimiter fuel
        (linesText lineDelimiter lines trailing ++ 0 :: after)
      = .ok (lines.map Line.instruction) := by
  have delimiter : operandEnd chpext lineDelimiter lineDelimiter = true := by simp [operandEnd]
  have nul : operandEnd chpext lineDelimiter 0 = true := by simp [operandEnd]
  have skipped (rest : List Byte) : skipDelimiter (lineDelimiter :: rest) = .ok rest := by
    simp [skipDelimiter, delimits.notNul]
  have ended (fuel : Nat) : parseInstructions chpext lineDelimiter (fuel + 1) (0 :: after)
      = .ok [] := by
    simp [parseInstructions]
  induction lines generalizing fuel with
  | nil =>
      obtain rfl : trailing = false := by simpa using last
      obtain ⟨fuel, rfl⟩ := Nat.exists_eq_add_of_le' (show 1 ≤ fuel by simp at enough; omega)
      simp [linesText, List.intercalate, parseInstructions]
  | cons line rest ih =>
      cases rest with
      | nil =>
          cases trailing with
          | false =>
              have text : linesText lineDelimiter [line] false = line.text := by
                simp [linesText]
              rw [text] at enough ⊢
              have long : line.text.length ≥ 1 := by simp [Line.text]; omega
              obtain ⟨fuel, rfl⟩ := Nat.exists_eq_add_of_le'
                (show 2 ≤ fuel by simp at enough; omega)
              exact parseInstructions_line delimits line nul after (fuel + 1) rfl (ended fuel)
          | true =>
              have text : linesText lineDelimiter [line] true ++ 0 :: after
                  = line.text ++ lineDelimiter :: 0 :: after := by
                simp [linesText]
              rw [text] at enough ⊢
              obtain ⟨fuel, rfl⟩ := Nat.exists_eq_add_of_le'
                (show 2 ≤ fuel by simp at enough; omega)
              exact parseInstructions_line delimits line delimiter (0 :: after) (fuel + 1)
                (skipped _) (ended fuel)
      | cons second more =>
          have text : linesText lineDelimiter (line :: second :: more) trailing ++ 0 :: after
              = line.text ++ lineDelimiter
                :: (linesText lineDelimiter (second :: more) trailing ++ 0 :: after) := by
            simp only [linesText, List.map_cons, intercalate_cons_cons, List.append_assoc,
              List.cons_append]
          rw [text] at enough ⊢
          obtain ⟨fuel, rfl⟩ := Nat.exists_eq_add_of_le'
            (show 1 ≤ fuel by simp at enough; omega)
          refine parseInstructions_line delimits line delimiter _ fuel (skipped _) ?_
          refine ih (fun _ => by simp) ?_
          simp only [List.length_append, List.length_cons] at enough ⊢
          omega

end Reading

-----------------------------------------------------------------------------------------
-- Whole texts
-----------------------------------------------------------------------------------------

/-- The bytes that may stand before the first line. -/
def isBlank (c : Byte) : Bool := c == ascii ' ' || c == ascii '\t'

theorem removeLeadingWhitespace_eq (text after : List Byte)
    : removeLeadingWhitespace (cString text after)
      = .ok (text.dropWhile isBlank ++ 0 :: after) := by
  induction text with
  | nil => simp [cString, removeLeadingWhitespace]
  | cons c rest ih =>
      cases blank : isBlank c with
      | true =>
          have notNul : c ≠ 0 := by
            rintro rfl
            revert blank
            decide
          have skip : (c != 0 && (c == ascii ' ' || c == ascii '\t')) = true := by
            rw [isBlank] at blank
            simp [notNul, blank]
          rw [List.dropWhile_cons_of_pos blank, ← ih]
          simp only [cString, List.cons_append, removeLeadingWhitespace, skip, if_true]
      | false =>
          have stay : (c != 0 && (c == ascii ' ' || c == ascii '\t')) = false := by
            rw [isBlank] at blank
            simp [blank]
          rw [List.dropWhile_cons_of_neg (by simp [blank])]
          simp only [cString, List.cons_append, removeLeadingWhitespace, stay,
            Bool.false_eq_true, if_false]

/-- The text consists of blanks and then exactly the given lines. -/
structure WrittenAs (lineDelimiter : Byte) (text : List Byte) (lines : List Line)
    (trailing : Bool) : Prop where
  body : text.dropWhile isBlank = linesText lineDelimiter lines trailing
  last : trailing = true → lines ≠ []

/-- A text made of lines is parsed to the program of their instructions. -/
theorem parseProgram_lines {lineDelimiter : Byte} (delimits : Delimits lineDelimiter)
    {text : List Byte} {lines : List Line} {trailing : Bool}
    (written : WrittenAs lineDelimiter text lines trailing) (after : List Byte)
    : ∃ program, parseProgram chpext (cString text after) lineDelimiter = .ok program
        ∧ program.instructions.Holds (lines.map Line.instruction) := by
  have parses := parseInstructions_lines delimits lines written.last after le_rfl
  obtain ⟨program, stored, holds⟩ := Program.ofArray_holds (lines.map Line.instruction)
  refine ⟨program, ?_, holds⟩
  rw [parseProgram, removeLeadingWhitespace_eq, written.body]
  simp only [bind, Except.bind, parses, stored]

/-- A text of lines starts with a letter, so leading blanks are recognised as such. -/
theorem writtenAs_blanks (lineDelimiter : Byte) {blanks : List Byte}
    (blank : ∀ c ∈ blanks, isBlank c = true) (lines : List Line) (trailing : Bool)
    (last : trailing = true → lines ≠ [])
    : WrittenAs lineDelimiter (blanks ++ linesText lineDelimiter lines trailing) lines trailing := by
  refine ⟨?_, last⟩
  rw [List.dropWhile_append_of_pos blank]
  cases lines with
  | nil =>
      obtain rfl : trailing = false := by simpa using last
      rfl
  | cons line rest =>
      obtain ⟨nonempty, bytes⟩ := mnemonic_spec line.known
      obtain ⟨first, others, mnemonicEq⟩ := List.exists_cons_of_ne_nil nonempty
      obtain ⟨notSpace, notTab, _⟩ :=
        bytes first (by rw [mnemonicEq]; exact List.mem_cons_self)
      obtain ⟨more, textEq⟩ : ∃ more, linesText lineDelimiter (line :: rest) trailing
          = first :: more := by
        cases rest <;> simp [linesText, Line.text, mnemonicEq]
      rw [textEq, List.dropWhile_cons_of_neg (by simp [isBlank, notSpace, notTab])]

-----------------------------------------------------------------------------------------
-- Printing
-----------------------------------------------------------------------------------------

/-- The mnemonic of an operation in the table of `chpext`. -/
def mnemonic : Operation → List Byte
  | .macroOp => [ascii 'm', ascii 'a', ascii 'c', ascii 'r', ascii 'o']
  | .initializeOp => [ascii 'i', ascii 'n', ascii 'i', ascii 't']
  | .identity => [ascii 'i']
  | .hadamard => [ascii 'h']
  | .phase => [ascii 'p']
  | .measure => [ascii 'm']
  | .cnot => [ascii 'c']
  | .paulix => [ascii 'x']
  | .pauliy => [ascii 'y']
  | .pauliz => [ascii 'z']

/-- The decimal digits of a number, most significant first and without leading zeros. -/
def decimalDigits (n : Nat) : List Byte :=
  if n = 0 then [48] else (Nat.digits 10 n).reverse.map (fun d => UInt8.ofNat (48 + d))

/-- An instruction in assembly. -/
def Instruction.text (instruction : Instruction) : List Byte :=
  mnemonic instruction.bytecode ++ ascii ' '
    :: [ascii ','].intercalate (instruction.operands.toList.map (fun operand =>
      decimalDigits operand.toNat))

/-- Instructions in assembly, joined by the delimiter, which may also follow the last one. -/
def assembly (lineDelimiter : Byte) (instructions : List Instruction) (trailing : Bool)
    : List Byte :=
  [lineDelimiter].intercalate (instructions.map Instruction.text)
    ++ if trailing then [lineDelimiter] else []

/-- The digits of a number are decimal digits with the number as their value. -/
theorem decimalDigits_spec (n : Nat)
    : decimalDigits n ≠ []
      ∧ (∀ c ∈ decimalDigits n, isDigit c = true)
      ∧ numeralValue (decimalDigits n) = n := by
  unfold decimalDigits
  split
  · rename_i zero
    subst zero
    exact ⟨by simp, by simp [isDigit_iff], rfl⟩
  · rename_i positive
    have small : ∀ d ∈ Nat.digits 10 n, d < 10 := fun d member =>
      Nat.digits_lt_base (by decide) member
    have byte (d : Nat) (below : d < 10) : (UInt8.ofNat (48 + d)).toNat = 48 + d :=
      UInt8.toNat_ofNat_of_lt' (by simp [UInt8.size]; omega)
    refine ⟨by simpa using Nat.digits_ne_nil_iff_ne_zero.mpr positive, ?_, ?_⟩
    · intro c member
      obtain ⟨d, digit, rfl⟩ := List.mem_map.mp member
      have below := small d (List.mem_reverse.mp digit)
      rw [isDigit_iff, byte d below]
      omega
    · have fold (digits : List Nat) (below : ∀ d ∈ digits, d < 10)
          : numeralValue (digits.reverse.map (fun d => UInt8.ofNat (48 + d)))
            = Nat.ofDigits 10 digits := by
        induction digits with
        | nil => rfl
        | cons d rest ih =>
            have here := byte d (below d List.mem_cons_self)
            have later := ih (fun d member => below d (List.mem_cons_of_mem _ member))
            rw [numeralValue] at later ⊢
            rw [List.reverse_cons, List.map_append, List.foldl_append, later, Nat.ofDigits_cons]
            simp only [List.map_cons, List.map_nil, List.foldl_cons, List.foldl_nil, here]
            simp
            omega
      rw [fold _ small, Nat.ofDigits_digits]

/-- The numeral that prints an operand. -/
def Numeral.ofOperand (operand : Operand) : Numeral where
  digits := decimalDigits operand.toNat
  nonempty := (decimalDigits_spec _).1
  allDigits := (decimalDigits_spec _).2.1
  fits := by
    rw [(decimalDigits_spec _).2.2]
    exact operand.toNat_lt

/-- The line that prints an instruction. -/
def Instruction.line (instruction : Instruction) : Line where
  idef := ⟨mnemonic instruction.bytecode, instruction.bytecode⟩
  known := by cases instruction.bytecode <;> simp [mnemonic, chpext]
  numerals := instruction.operands.map Numeral.ofOperand

theorem line_text (instruction : Instruction) : instruction.line.text = instruction.text := by
  obtain ⟨bytecode, operands⟩ := instruction
  have digits : (operands.map Numeral.ofOperand).toList.map Numeral.digits
      = operands.toList.map (fun operand => decimalDigits operand.toNat) := by
    rw [List.Vector.toList_map, List.map_map]
    rfl
  exact congrArg (fun items => mnemonic bytecode ++ ascii ' ' :: [ascii ','].intercalate items)
    digits

theorem line_instruction (instruction : Instruction)
    : instruction.line.instruction = instruction := by
  have value (operand : Operand) : (Numeral.ofOperand operand).value = operand := by
    rw [Numeral.value, Numeral.ofOperand, (decimalDigits_spec _).2.2, UInt64.ofNat_toNat]
  obtain ⟨bytecode, operands⟩ := instruction
  have operandsEq : (operands.map Numeral.ofOperand).map Numeral.value = operands := by
    apply List.Vector.ext
    intro i
    simp only [List.Vector.get_map, value]
  exact congrArg (Instruction.mk bytecode) operandsEq

/-- Assembled instructions are lines. -/
theorem assembly_eq (lineDelimiter : Byte) (instructions : List Instruction) (trailing : Bool)
    : assembly lineDelimiter instructions trailing
      = linesText lineDelimiter (instructions.map Instruction.line) trailing := by
  simp only [assembly, linesText, List.map_map, Function.comp_def, line_text]

/-- Assembled instructions are parsed to the program that stores them. -/
theorem parseProgram_of_assembly {lineDelimiter : Byte} (delimits : Delimits lineDelimiter)
    (blanks : List Byte) (blank : ∀ c ∈ blanks, isBlank c = true)
    (instructions : List Instruction) (trailing : Bool)
    (last : trailing = true → instructions ≠ []) (after : List Byte)
    : ∃ program,
        parseProgram chpext
          (cString (blanks ++ assembly lineDelimiter instructions trailing) after) lineDelimiter
          = .ok program
        ∧ program.instructions.Holds instructions := by
  have written := writtenAs_blanks lineDelimiter blank (instructions.map Instruction.line) trailing
    (fun last' => by simpa using last last')
  obtain ⟨program, parsed, holds⟩ := parseProgram_lines delimits written after
  refine ⟨program, by rw [assembly_eq]; exact parsed, ?_⟩
  simpa [Function.comp_def, line_instruction] using holds

/-- The assembler reads back what was printed: the program has the printed size, and at each
address the printed instruction. A trailing delimiter that is no blank needs a line before it.
-/
theorem parseProgram_assembly {lineDelimiter : Byte} (delimits : Delimits lineDelimiter)
    {blanks : List Byte} (blank : ∀ c ∈ blanks, isBlank c = true)
    (instructions : List Instruction) {trailing : Bool}
    (last : trailing = true → instructions = [] → isBlank lineDelimiter = true)
    (after : List Byte)
    : ∃ program,
        parseProgram chpext
          (cString (blanks ++ assembly lineDelimiter instructions trailing) after) lineDelimiter
          = .ok program
        ∧ program.size = instructions.length
        ∧ ∀ t < instructions.length, program.instruction t = instructions[t]? := by
  by_cases alone : trailing = true ∧ instructions = []
  · -- The delimiter is one more leading blank.
    obtain ⟨rfl, rfl⟩ := alone
    have more : ∀ c ∈ blanks ++ [lineDelimiter], isBlank c = true := by
      intro c member
      rcases List.mem_append.mp member with before | itself
      · exact blank c before
      · rw [List.mem_singleton.mp itself]
        exact last rfl rfl
    have text : blanks ++ assembly lineDelimiter [] true
        = blanks ++ [lineDelimiter] ++ assembly lineDelimiter [] false := by
      simp [assembly]
    rw [text]
    obtain ⟨program, parsed, holds⟩ :=
      parseProgram_of_assembly delimits _ more [] false (by simp) after
    exact ⟨program, parsed, holds.count_eq, holds.slot_eq⟩
  · obtain ⟨program, parsed, holds⟩ := parseProgram_of_assembly delimits blanks blank instructions
      trailing (fun set empty => alone ⟨set, empty⟩) after
    exact ⟨program, parsed, holds.count_eq, holds.slot_eq⟩

/-- A text with the delimiter `x`, which is also a mnemonic, behind two leading blanks. -/
theorem parseProgram_assembly_letter
    : ∃ program,
        parseProgram chpext
          (cString ([ascii ' ', ascii '\t'] ++ assembly (ascii 'x')
            [⟨.initializeOp, .cons 3 .nil⟩, ⟨.paulix, .cons 0 .nil⟩,
              ⟨.cnot, .cons 0 (.cons 2 .nil)⟩] true) [])
          (ascii 'x') = .ok program
        ∧ program.size = 3
        ∧ ∀ t < 3, program.instruction t
            = [(⟨.initializeOp, .cons 3 .nil⟩ : Instruction), ⟨.paulix, .cons 0 .nil⟩,
                ⟨.cnot, .cons 0 (.cons 2 .nil)⟩][t]? :=
  parseProgram_assembly ⟨by simp [ascii], by simp [isDigit, ascii]⟩ (by simp [isBlank, ascii])
    [⟨.initializeOp, .cons 3 .nil⟩, ⟨.paulix, .cons 0 .nil⟩, ⟨.cnot, .cons 0 (.cons 2 .nil)⟩]
    (by simp) []

/-- A trailing delimiter alone is an empty opcode, which no definition has. -/
theorem parseProgram_assembly_no_line
    : ¬∀ lineDelimiter, Delimits lineDelimiter
        → ∀ blanks : List Byte, (∀ c ∈ blanks, isBlank c = true)
        → ∀ (instructions : List Instruction) (trailing : Bool) (after : List Byte),
          ∃ program,
            parseProgram chpext
              (cString (blanks ++ assembly lineDelimiter instructions trailing) after)
              lineDelimiter = .ok program
            ∧ program.size = instructions.length
            ∧ ∀ t < instructions.length, program.instruction t = instructions[t]? := by
  intro claimed
  obtain ⟨program, parsed, _⟩ := claimed (ascii '\n') ⟨by simp [ascii], by simp [isDigit, ascii]⟩
    [] (by simp) [] true []
  have thrown : parseProgram chpext (cString ([] ++ assembly (ascii '\n') [] true) [])
      (ascii '\n') = .error (.thrown .exception) := rfl
  rw [thrown] at parsed
  cases parsed

end Sabot.Language
