import Sabot.Failure
import Sabot.Language.Program

/-! The assembler: dialects, their mnemonic tables and `parse_program`. A `const char*` is the
list of bytes from the pointer to the end of the memory that may be read; it can run past the
terminating zero of a text, and reading its end is undefined.
-/

namespace Sabot.Language

abbrev Byte := UInt8

def ascii (c : Char) : Byte := UInt8.ofNat c.toNat

/-- A C string as a pointer: the text, its terminator and whatever follows in memory. -/
def cString (text after : List Byte) : List Byte := text ++ 0 :: after

-----------------------------------------------------------------------------------------
-- Dialects
-----------------------------------------------------------------------------------------

/-- A mnemonic with its operation. The required operand count is the operation's. -/
structure InstructionDefinition where
  mnemonic : List Byte
  bytecode : Operation

def InstructionDefinition.operandCount (idef : InstructionDefinition) : Nat :=
  idef.bytecode.operandCount

structure Dialect where
  opcodeDelimiter : Byte
  operandDelimiter : Byte
  instructionDefs : List InstructionDefinition

/-- The definition whose mnemonic is the given block of bytes. -/
def Dialect.findIdef (dialect : Dialect) (str : List Byte)
    : Except Stop InstructionDefinition :=
  match dialect.instructionDefs.find? (fun idef => idef.mnemonic == str) with
  | some idef => .ok idef
  | none => .error (.thrown .exception)

def chpext : Dialect where
  opcodeDelimiter := ascii ' '
  operandDelimiter := ascii ','
  instructionDefs := [
    ⟨[ascii 'm', ascii 'a', ascii 'c', ascii 'r', ascii 'o'], .macroOp⟩,
    ⟨[ascii 'i', ascii 'n', ascii 'i', ascii 't'], .initializeOp⟩,
    ⟨[ascii 'i'], .identity⟩,
    ⟨[ascii 'h'], .hadamard⟩,
    ⟨[ascii 'p'], .phase⟩,
    ⟨[ascii 'm'], .measure⟩,
    ⟨[ascii 'c'], .cnot⟩,
    ⟨[ascii 'x'], .paulix⟩,
    ⟨[ascii 'y'], .pauliy⟩,
    ⟨[ascii 'z'], .pauliz⟩
  ]

-----------------------------------------------------------------------------------------
-- Scanning
-----------------------------------------------------------------------------------------

/-- Move a pointer up until the character is not a space or a tab. -/
def removeLeadingWhitespace : List Byte → Except Stop (List Byte)
  | [] => .error .undefined
  | c :: rest =>
      if c != 0 && (c == ascii ' ' || c == ascii '\t') then removeLeadingWhitespace rest
      else .ok (c :: rest)

/-- Move a pointer up to the first byte that `stop` accepts; also return the bytes passed. -/
def scan (stop : Byte → Bool) : List Byte → Except Stop (List Byte × List Byte)
  | [] => .error .undefined
  | c :: rest =>
      if stop c then .ok ([], c :: rest)
      else do
        let (passed, pos) ← scan stop rest
        return (c :: passed, pos)

/-- `data[i] - '0'` with a signed `char`, converted to an unsigned word. -/
def digit (c : Byte) : Operand := UInt64.ofBitVec (c.toBitVec.signExtend 64) - 48

/-- Change a block of `size` ASCII digits to a word. The first byte is read even when the size
is zero, and no byte is checked to be a digit.
-/
def stuif (data : List Byte) (size : Nat) : Except Stop Operand :=
  match data with
  | [] => .error .undefined
  | c :: rest =>
      .ok ((rest.take (size - 1)).foldl (fun result c => result * 10 + digit c) (digit c))

/-- The bytes at which an operand ends. -/
def operandEnd (dialect : Dialect) (lineDelimiter c : Byte) : Bool :=
  c == dialect.operandDelimiter || c == lineDelimiter || c == 0

/-- Find each operand. The pointer first moves over the byte that ended the last scan. -/
def readOperands (dialect : Dialect) (lineDelimiter : Byte)
    : (remaining : Nat) → List Byte
      → Except Stop (List.Vector Operand remaining × List Byte)
  | 0, pos => .ok (.nil, pos)
  | remaining + 1, pos => do
      let operandStart ← match pos with
        | [] => .error .undefined
        | _ :: next => .ok next
      let (passed, pos) ← scan (operandEnd dialect lineDelimiter) operandStart
      let value ← stuif operandStart passed.length
      let (values, pos) ← readOperands dialect lineDelimiter remaining pos
      return (value ::ᵥ values, pos)

/-- Leave the byte that ended the last operand behind, unless it ends the text. -/
def skipDelimiter : List Byte → Except Stop (List Byte)
  | [] => .error .undefined
  | c :: rest => .ok (if c != 0 then rest else c :: rest)

/-- The loop of `parse_program`. Every round moves the pointer, so a fuel of one unit for each
byte that may be read is enough.
-/
def parseInstructions (dialect : Dialect) (lineDelimiter : Byte)
    : (fuel : Nat) → List Byte → Except Stop (List Instruction)
  | 0, _ => .error .undefined
  | _ + 1, [] => .error .undefined
  | fuel + 1, c :: rest =>
      if c == 0 then .ok []
      else do
        let (opcode, pos) ← scan (fun c => c == dialect.opcodeDelimiter || c == 0) (c :: rest)
        let idef ← dialect.findIdef opcode
        let (operands, pos) ← readOperands dialect lineDelimiter idef.operandCount pos
        let pos ← skipDelimiter pos
        let instructions ← parseInstructions dialect lineDelimiter fuel pos
        return ⟨idef.bytecode, operands⟩ :: instructions

/-- Parse a single string consisting of many instructions separated by the line delimiter into
a single program.
-/
def parseProgram (dialect : Dialect) (input : List Byte) (lineDelimiter : Byte)
    : Except Stop Program := do
  let pos ← removeLeadingWhitespace input
  let instructions ← parseInstructions dialect lineDelimiter pos.length pos
  match Program.ofArray instructions with
  | some program => .ok program
  | none => .error .undefined

-----------------------------------------------------------------------------------------
-- Failures
-----------------------------------------------------------------------------------------

/-- The only exception is that of an unknown mnemonic. -/
def ThrowsOnlyUnknown {α : Type} (result : Except Stop α) : Prop :=
  ∀ e, result = .error e → e = .thrown .exception ∨ e = .undefined

theorem ThrowsOnlyUnknown.bind {α β : Type} {x : Except Stop α} (first : ThrowsOnlyUnknown x)
    {f : α → Except Stop β} (later : ∀ a, ThrowsOnlyUnknown (f a))
    : ThrowsOnlyUnknown (x >>= f) := by
  cases x with
  | error e => exact fun e' stops => first e' (by cases stops; rfl)
  | ok a => exact later a

theorem ThrowsOnlyUnknown.ok {α : Type} (a : α) : ThrowsOnlyUnknown (.ok a) := by
  intro e stops
  cases stops

theorem ThrowsOnlyUnknown.undefined {α : Type}
    : ThrowsOnlyUnknown (.error .undefined : Except Stop α) := by
  intro e stops
  cases stops
  exact Or.inr rfl

theorem removeLeadingWhitespace_throws (pos : List Byte)
    : ThrowsOnlyUnknown (removeLeadingWhitespace pos) := by
  induction pos with
  | nil => exact .undefined
  | cons c rest ih =>
      rw [removeLeadingWhitespace]
      split
      · exact ih
      · exact .ok _

theorem scan_throws (stop : Byte → Bool) (pos : List Byte) : ThrowsOnlyUnknown (scan stop pos) := by
  induction pos with
  | nil => exact .undefined
  | cons c rest ih =>
      rw [scan]
      split
      · exact .ok _
      · exact ih.bind (fun _ => .ok _)

theorem readOperands_throws (dialect : Dialect) (lineDelimiter : Byte) (remaining : Nat)
    (pos : List Byte)
    : ThrowsOnlyUnknown (readOperands dialect lineDelimiter remaining pos) := by
  induction remaining generalizing pos with
  | zero => exact .ok _
  | succ remaining ih =>
      unfold readOperands
      cases pos with
      | nil => exact .undefined
      | cons c next =>
          refine (scan_throws _ next).bind (fun scanned => ?_)
          refine ThrowsOnlyUnknown.bind ?_ (fun value => (ih _).bind (fun _ => .ok _))
          cases next with
          | nil => exact .undefined
          | cons c rest => exact .ok _

theorem parseInstructions_throws (dialect : Dialect) (lineDelimiter : Byte) (fuel : Nat)
    (pos : List Byte)
    : ThrowsOnlyUnknown (parseInstructions dialect lineDelimiter fuel pos) := by
  induction fuel generalizing pos with
  | zero => exact .undefined
  | succ fuel ih =>
      cases pos with
      | nil => exact .undefined
      | cons c rest =>
          rw [parseInstructions]
          split
          · exact .ok _
          · refine (scan_throws _ _).bind (fun scanned => ?_)
            refine ThrowsOnlyUnknown.bind ?_ (fun idef => ?_)
            · intro e stops
              rw [Dialect.findIdef] at stops
              split at stops
              · cases stops
              · cases stops
                exact Or.inl rfl
            · refine (readOperands_throws _ _ _ _).bind (fun _ => ?_)
              refine ThrowsOnlyUnknown.bind ?_ (fun pos => (ih pos).bind (fun _ => .ok _))
              rename_i operands
              cases operands.2 with
              | nil => exact .undefined
              | cons c rest => exact .ok _

/-- A text that cannot be parsed raises the exception of an unknown mnemonic, unless it is read
past its memory.
-/
theorem parseProgram_throws (dialect : Dialect) (input : List Byte) (lineDelimiter : Byte)
    : ThrowsOnlyUnknown (parseProgram dialect input lineDelimiter) := by
  refine (removeLeadingWhitespace_throws input).bind (fun pos => ?_)
  refine (parseInstructions_throws _ _ _ _).bind (fun instructions => ?_)
  obtain ⟨p, built, _⟩ := Program.ofArray_holds instructions
  rw [built]
  exact .ok _

/-- A parsed program holds a list of instructions. -/
theorem parseProgram_holds {dialect : Dialect} {input : List Byte} {lineDelimiter : Byte}
    {program : Program} (parsed : parseProgram dialect input lineDelimiter = .ok program)
    : ∃ instructions, program.instructions.Holds instructions := by
  cases skips : removeLeadingWhitespace input with
  | error e => simp [parseProgram, skips, bind, Except.bind] at parsed
  | ok pos =>
      cases parses : parseInstructions dialect lineDelimiter pos.length pos with
      | error e => simp [parseProgram, skips, parses, bind, Except.bind] at parsed
      | ok instructions =>
          obtain ⟨p, built, holds⟩ := Program.ofArray_holds instructions
          simp only [parseProgram, skips, parses, built, bind, Except.bind,
            Except.ok.injEq] at parsed
          exact ⟨instructions, parsed ▸ holds⟩

end Sabot.Language
