import Sabot.ManagedContainer

/-! Machine operations, instructions and the programs that store them. -/

namespace Sabot.Language

/-- The operations of the machine, in the order of their bytecodes. -/
inductive Operation where
  | macroOp
  | initializeOp
  | identity
  | hadamard
  | phase
  | measure
  | cnot
  | paulix
  | pauliy
  | pauliz
deriving DecidableEq, Repr

/-- The number of operands that an operation requires. -/
def Operation.operandCount : Operation → Nat
  | .macroOp => 2
  | .cnot => 2
  | _ => 1

/-- The storage type of an operand. -/
abbrev Operand := UInt64

/-- A bytecode with the operands that its operation requires. The source reserves two operand
cells in every instruction and leaves the second one unset for one-operand operations.
-/
structure Instruction where
  bytecode : Operation
  operands : List.Vector Operand bytecode.operandCount

/-- `sizeof(instruction)`: a padded enumeration and two words. -/
def instructionSize : Nat := 24

/-- A program stores its instructions in a managed container. -/
structure Program where
  instructions : ManagedContainer Instruction instructionSize 16

namespace Program

/-- The constructor moves an array of instructions into an empty container. -/
def ofArray (array : List Instruction) : Option Program := do
  return { instructions := ← ManagedContainer.empty.add array }

def size (p : Program) : Nat := p.instructions.count

/-- The instruction at an address; stuck when the address holds none. -/
def instruction (p : Program) (addr : Nat) : Option Instruction := p.instructions.data addr

/-- Any array of instructions can be stored, on the heap unless it is empty. -/
theorem ofArray_holds (array : List Instruction)
    : ∃ p, ofArray array = some p ∧ p.instructions.Holds array := by
  have empty : (ManagedContainer.empty : ManagedContainer Instruction instructionSize 16).Holds [] :=
    ManagedContainer.empty_holds (by decide)
  obtain ⟨c, added, holds⟩ := empty.add array
  exact ⟨⟨c⟩, by simp [ofArray, added], holds⟩

end Program

end Sabot.Language
