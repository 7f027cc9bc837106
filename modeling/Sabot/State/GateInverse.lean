import Sabot.State.GateRows

/-! Every list of gates is undone by its inverse, word by word and whatever the padding columns
hold, and the Pauli instructions touch nothing but signs.
-/

namespace Sabot.Language

/-- What undoes a gate instruction: three phase gates for one, and the gate itself otherwise. -/
def Instruction.inverse : Instruction → List Instruction
  | ⟨.phase, operands⟩ => [⟨.phase, operands⟩, ⟨.phase, operands⟩, ⟨.phase, operands⟩]
  | instruction => [instruction]

/-- The inverse of a list of gates undoes the last one first. -/
def inverse (gates : List Instruction) : List Instruction :=
  gates.reverse.flatMap Instruction.inverse

/-- The qubit of a Pauli instruction with the x and z bits of its matrix. -/
def Instruction.pauli : Instruction → Option (Nat × Bool × Bool)
  | ⟨.paulix, operands⟩ => some (operands.head.toNat, true, false)
  | ⟨.pauliy, operands⟩ => some (operands.head.toNat, true, true)
  | ⟨.pauliz, operands⟩ => some (operands.head.toNat, false, true)
  | _ => none

theorem Instruction.Within.mono {n k : Nat} (most : n ≤ k) {instruction : Instruction}
    (within : instruction.Within n)
    : instruction.Within k := by
  obtain ⟨bytecode, operands⟩ := instruction
  cases bytecode with
  | macroOp => exact within
  | initializeOp => exact within
  | cnot => exact ⟨within.1.trans_le most, within.2.1.trans_le most, within.2.2⟩
  | _ => exact lt_of_lt_of_le within most

/-- The inverse consists of gates again. -/
theorem mem_inverse {gates : List Instruction} {instruction : Instruction}
    (member : instruction ∈ inverse gates)
    : instruction ∈ gates := by
  obtain ⟨gate, listed, inside⟩ := List.mem_flatMap.mp member
  obtain rfl : instruction = gate := by
    obtain ⟨bytecode, operands⟩ := gate
    cases bytecode <;> simpa [Instruction.inverse] using inside
  exact List.mem_reverse.mp listed

end Sabot.Language

namespace Sabot.State

open Stabilizer ChpState
open Sabot.Language (Instruction qubit_of_lt inverse mem_inverse)

/-- A state with live arrays whose words are sign extended and whose phases are reduced. The
columns past the last qubit may hold anything.
-/
structure Packed (s : ChpState) : Prop where
  layout : s.Layout
  x : ∀ j < 2 * s.n, ∀ w < s.over32, SignExtended (s.x.read j w)
  z : ∀ j < 2 * s.n, ∀ w < s.over32, SignExtended (s.z.read j w)
  phase : ∀ j < 2 * s.n, 0 ≤ s.r.cell j ∧ s.r.cell j < 4

/-- Counting every column of its words as a qubit, a packed row is well formed. -/
theorem Packed.formed {s : ChpState} (packed : Packed s) {j : Nat} (below : j < 2 * s.n)
    : (s.row j).WellFormed (32 * s.over32) where
  x w := by
    simp only [ChpState.row]
    split
    · exact packed.x j below w ‹_›
    · exact signExtended_zero
  z w := by
    simp only [ChpState.row]
    split
    · exact packed.z j below w ‹_›
    · exact signExtended_zero
  phaseNonneg := (packed.phase j below).1
  phaseLt := (packed.phase j below).2
  paddingX q outside := by
    have past : ¬q / 32 < s.over32 := by omega
    simp [Row.bitX, ChpState.row, past, hasBit_zero]
  paddingZ q outside := by
    have past : ¬q / 32 < s.over32 := by omega
    simp [Row.bitZ, ChpState.row, past, hasBit_zero]

/-- The qubits are columns of the words. -/
theorem Packed.columns {s : ChpState} (packed : Packed s) : s.n ≤ 32 * s.over32 := by
  rw [packed.layout.over32_eq]
  omega

-----------------------------------------------------------------------------------------
-- Rows
-----------------------------------------------------------------------------------------

section Rows

variable {n : Nat} {R : Row} (formed : R.WellFormed n)
include formed

/-- A gate on a row is undone by its inverse. -/
theorem runRow_inverse_single {instruction : Instruction} (within : instruction.Within n)
    (gate : isMeasure instruction = false)
    : runRow instruction.inverse (onRow instruction R) = R := by
  obtain ⟨g, reads⟩ := operation_gate within gate
  have again {R : Row} (formed : R.WellFormed n) := onRow_conjugates formed within reads
  have once := again formed
  by_cases turns : instruction.bytecode = .phase
  · obtain ⟨bytecode, operands⟩ := instruction
    obtain rfl : bytecode = .phase := turns
    simp only [Instruction.operation, qubit_of_lt (show operands.head.toNat < n from within)]
      at reads
    cases reads
    have twice := again once.1
    have thrice := again twice.1
    have last := again thrice.1
    refine last.1.ext formed ?_
    rw [last.2, thrice.2, twice.2, once.2]
    exact PauliString.phaseGate_inverse _ _
  · have single : instruction.inverse = [instruction] := by
      obtain ⟨bytecode, operands⟩ := instruction
      cases bytecode <;> first | rfl | exact absurd rfl turns
    have off (q : Fin n) : g ≠ .phase q := by
      rintro rfl
      obtain ⟨bytecode, operands⟩ := instruction
      cases bytecode with
      | phase => exact turns rfl
      | macroOp => cases reads
      | initializeOp => cases reads
      | cnot =>
          rw [Instruction.operation_cnot within] at reads
          cases reads
      | _ =>
          simp [Instruction.operation, qubit_of_lt (show operands.head.toNat < n from within)]
            at reads
    have twice := again once.1
    rw [single]
    refine twice.1.ext formed ?_
    rw [twice.2, once.2]
    exact Gate.conjugate_conjugate off _

/-- A list of gates on a row is undone by the inverse list, by induction from its end. -/
theorem runRow_inverse {gates : List Instruction} (within : ∀ gate ∈ gates, gate.Within n)
    (unitary : ∀ gate ∈ gates, isMeasure gate = false)
    : runRow (inverse gates) (runRow gates R) = R := by
  induction gates using List.reverseRecOn with
  | nil => rfl
  | append_singleton rest gate ih =>
      have withinRest (i : Instruction) (member : i ∈ rest) := within i (List.mem_append_left _ member)
      have unitaryRest (i : Instruction) (member : i ∈ rest) :=
        unitary i (List.mem_append_left _ member)
      have last : gate ∈ rest ++ [gate] := List.mem_append_right _ (List.mem_singleton_self gate)
      have undone := runRow_inverse_single (runRow_formed formed withinRest unitaryRest)
        (within gate last) (unitary gate last)
      have split : inverse (rest ++ [gate]) = gate.inverse ++ inverse rest := by
        simp [inverse]
      simp only [runRow, split, List.foldl_append, List.foldl_cons, List.foldl_nil] at undone ⊢
      rw [undone]
      exact ih withinRest unitaryRest

/-- Negating a row negates its string. -/
theorem toPauli_negateIf (condition : Bool)
    : (R.negateIf condition).toPauli n = (R.toPauli n).flip (scalar condition) := by
  refine PauliString.ext ?_ ?_ ?_
  · simp only [Row.toPauli, Row.negateIf_bitX, PauliString.flip]
  · simp only [Row.toPauli, Row.negateIf_bitZ, PauliString.flip]
  · simp only [Row.toPauli, formed.negateIf_phase, PauliString.flip, scalar_eq_one]

/-- A Pauli instruction negates the rows that anticommute with it. -/
theorem onRow_pauli {instruction : Instruction} {q : Nat} {x z : Bool}
    (pauli : instruction.pauli = some (q, x, z)) (inside : q < n)
    : onRow instruction R = R.negateIf ((R.bitX q && z) ^^ (R.bitZ q && x)) := by
  have flips {P : PauliString (Fin n)} (within : instruction.Within n)
      (reads : instruction.operation n = some (.gate (.pauli P)))
      (anticommutes : (R.toPauli n).form P = scalar ((R.bitX q && z) ^^ (R.bitZ q && x)))
      : onRow instruction R = R.negateIf ((R.bitX q && z) ^^ (R.bitZ q && x)) := by
    obtain ⟨formedT, pauliT⟩ := onRow_conjugates formed within reads
    refine formedT.ext (formed.negateIf _) ?_
    rw [pauliT, toPauli_negateIf formed, ← anticommutes, Gate.conjugate]
  obtain ⟨bytecode, operands⟩ := instruction
  cases bytecode with
  | paulix =>
      cases pauli
      refine flips (P := .singleX ⟨_, inside⟩) inside ?_ ?_
      · simp only [Instruction.operation, qubit_of_lt inside, Option.map_some]
      · rw [PauliString.form_singleX]
        simp [Row.toPauli]
  | pauliy =>
      cases pauli
      refine flips (P := .singleY ⟨_, inside⟩) inside ?_ ?_
      · simp only [Instruction.operation, qubit_of_lt inside, Option.map_some]
      · rw [PauliString.form_singleY]
        simp [Row.toPauli, scalar_xor]
  | pauliz =>
      cases pauli
      refine flips (P := .signedZ ⟨_, inside⟩ false) inside ?_ ?_
      · simp only [Instruction.operation, qubit_of_lt inside, Option.map_some]
      · rw [PauliString.form_signedZ]
        simp [Row.toPauli]
  | _ => cases pauli

end Rows

-----------------------------------------------------------------------------------------
-- Whole lists of gates
-----------------------------------------------------------------------------------------

/-- On every packed state, a list of gates followed by its inverse restores the words and phases
of all rows, and a single Pauli instruction changes no word and adds two to the phases of exactly
those rows whose matrix on the qubit anticommutes with it.
-/
theorem gates_undone {m : Machine} (packed : Packed m.state) (d : Discipline)
    {gates : List Instruction} (within : ∀ gate ∈ gates, gate.Within m.state.n)
    (unitary : ∀ gate ∈ gates, isMeasure gate = false)
    : (∃ t u, runInstructions d gates m = some (true, { m with state := t })
        ∧ runInstructions d (inverse gates) { m with state := t }
          = some (true, { m with state := u })
        ∧ ∀ j < 2 * m.state.n, u.row j = m.state.row j)
      ∧ ∀ instruction q x z, Instruction.pauli instruction = some (q, x, z) → q < m.state.n
        → ∃ t, step d m instruction = some (true, { m with state := t })
          ∧ ∀ j < 2 * m.state.n,
            (t.row j).x = (m.state.row j).x ∧ (t.row j).z = (m.state.row j).z
            ∧ t.r.cell j = if ((m.state.row j).bitX q && z) ^^ ((m.state.row j).bitZ q && x)
                then (m.state.r.cell j + 2) % 4 else m.state.r.cell j := by
  have columns := packed.columns
  constructor
  · obtain ⟨t, ranT, shapeT, rowsT⟩ := runInstructions_rewrites packed.layout d within unitary
    have withinU (gate : Instruction) (member : gate ∈ inverse gates) : gate.Within t.n := by
      rw [shapeT.n]
      exact within gate (mem_inverse member)
    obtain ⟨u, ranU, _, rowsU⟩ := runInstructions_rewrites (m := { m with state := t })
      (shapeT.layout packed.layout) d withinU
      (fun gate member => unitary gate (mem_inverse member))
    refine ⟨t, u, ranT, ranU, ?_⟩
    intro j below
    rw [rowsU j (by simpa only [shapeT.n] using below), rowsT j below]
    exact runRow_inverse (packed.formed below) (fun gate member => (within gate member).mono columns)
      unitary
  · intro instruction q x z pauli inside
    have gate : isMeasure instruction = false ∧ instruction.Within m.state.n := by
      obtain ⟨bytecode, operands⟩ := instruction
      cases bytecode with
      | paulix | pauliy | pauliz =>
          cases pauli
          exact ⟨rfl, inside⟩
      | _ => cases pauli
    obtain ⟨result, ran, t, rfl, _, rowsEq⟩ := step_rewrites packed.layout d rfl gate.2 gate.1
    refine ⟨t, ran, ?_⟩
    intro j below
    have formed := packed.formed below
    have row : t.row j = _ := (rowsEq j below.le).trans (if_pos below)
    rw [onRow_pauli formed pauli (inside.trans_le columns)] at row
    have cell : t.r.cell j = (t.row j).r := rfl
    refine ⟨by rw [row, Row.negateIf_x], by rw [row, Row.negateIf_z], ?_⟩
    rw [cell, row, Row.negateIf]
    split
    · exact Int.tmod_eq_emod_of_nonneg (by have := formed.phaseNonneg; omega)
    · rfl

/-- Sound states are packed. -/
theorem Sound.packed {n : Nat} {s : ChpState} (sound : Sound n s) : Packed s := by
  have formed (j : Nat) (below : j < 2 * s.n) : (s.row j).WellFormed n :=
    sound.rows j (by rwa [← sound.qubits])
  refine ⟨sound.layout, ?_, ?_, ?_⟩
  · intro j below w inside
    simpa [ChpState.row, inside] using (formed j below).x w
  · intro j below w inside
    simpa [ChpState.row, inside] using (formed j below).z w
  · intro j below
    exact ⟨(formed j below).phaseNonneg, (formed j below).phaseLt⟩

/-- A phase gate, a Hadamard gate and a Y gate on a fresh qubit, and their inverse. -/
theorem gates_undone_one
    : ∃ m : Machine, Packed m.state
      ∧ (∃ t u, runInstructions .allocated
            [⟨.phase, .cons 0 .nil⟩, ⟨.hadamard, .cons 0 .nil⟩, ⟨.pauliy, .cons 0 .nil⟩] m
            = some (true, { m with state := t })
          ∧ runInstructions .allocated (inverse
              [⟨.phase, .cons 0 .nil⟩, ⟨.hadamard, .cons 0 .nil⟩, ⟨.pauliy, .cons 0 .nil⟩])
              { m with state := t } = some (true, { m with state := u })
          ∧ ∀ j < 2 * m.state.n, u.row j = m.state.row j) := by
  have small : 1 < 2 ^ 31 := by decide
  have granted : Granted (.const (some 0)) := fun _ _ => rfl
  obtain ⟨s, _, sound, _⟩ := initState_refines small .allocated (.stale 0) granted
  refine ⟨⟨s, .empty, ⟨.const true, .const (some 0)⟩⟩, sound.packed, ?_⟩
  refine (gates_undone sound.packed .allocated ?_ (by decide)).1
  rw [sound.qubits]
  decide

end Sabot.State
