import Sabot.State.Refinement

/-! The gate instructions as functions on packed rows. Every list of gates is undone by its
inverse, word by word, whatever the padding columns hold.
-/

namespace Sabot.Language

open Stabilizer (Gate PauliString)

/-- The instruction acts on qubits below `n`, and a CNOT on two different ones. -/
def Instruction.Within (n : Nat) : Instruction → Prop
  | ⟨.macroOp, _⟩ => False
  | ⟨.initializeOp, _⟩ => False
  | ⟨.cnot, operands⟩ =>
      operands.head.toNat < n ∧ operands.tail.head.toNat < n
        ∧ operands.head.toNat ≠ operands.tail.head.toNat
  | ⟨.identity, operands⟩ | ⟨.hadamard, operands⟩ | ⟨.phase, operands⟩ | ⟨.measure, operands⟩
  | ⟨.paulix, operands⟩ | ⟨.pauliy, operands⟩ | ⟨.pauliz, operands⟩ => operands.head.toNat < n

instance (n : Nat) : DecidablePred (Instruction.Within n)
  | ⟨.macroOp, _⟩ => inferInstanceAs (Decidable False)
  | ⟨.initializeOp, _⟩ => inferInstanceAs (Decidable False)
  | ⟨.cnot, _⟩ => inferInstanceAs (Decidable (_ ∧ _ ∧ _))
  | ⟨.identity, _⟩ | ⟨.hadamard, _⟩ | ⟨.phase, _⟩ | ⟨.measure, _⟩
  | ⟨.paulix, _⟩ | ⟨.pauliy, _⟩ | ⟨.pauliz, _⟩ => inferInstanceAs (Decidable (_ < _))

/-- The qubit that an operand names. -/
def qubit (n : Nat) (operand : Operand) : Option (Fin n) :=
  if inside : operand.toNat < n then some ⟨operand.toNat, inside⟩ else none

/-- The circuit operation of an instruction on `n` qubits. -/
def Instruction.operation (n : Nat) : Instruction → Option (Stabilizer.Operation (Fin n))
  | ⟨.macroOp, _⟩ => none
  | ⟨.initializeOp, _⟩ => none
  | ⟨.identity, operands⟩ => (qubit n operands.head).map fun _ => .gate .identity
  | ⟨.hadamard, operands⟩ => (qubit n operands.head).map fun q => .gate (.hadamard q)
  | ⟨.phase, operands⟩ => (qubit n operands.head).map fun q => .gate (.phase q)
  | ⟨.measure, operands⟩ => (qubit n operands.head).map fun q => .measure q
  | ⟨.cnot, operands⟩ => do
      let control ← qubit n operands.head
      let target ← qubit n operands.tail.head
      if distinct : control ≠ target then some (.gate (.cnot control target distinct)) else none
  | ⟨.paulix, operands⟩ =>
      (qubit n operands.head).map fun q => .gate (.pauli (PauliString.singleX q))
  | ⟨.pauliy, operands⟩ =>
      (qubit n operands.head).map fun q => .gate (.pauli (PauliString.singleY q))
  | ⟨.pauliz, operands⟩ =>
      (qubit n operands.head).map fun q => .gate (.pauli (PauliString.signedZ q false))

theorem qubit_of_lt {n : Nat} {operand : Operand} (inside : operand.toNat < n)
    : qubit n operand = some ⟨operand.toNat, inside⟩ :=
  dif_pos inside

/-- A CNOT within the state is a gate of the circuit. -/
theorem Instruction.operation_cnot {n : Nat} {operands : List.Vector Operand 2}
    (within : Instruction.Within n ⟨.cnot, operands⟩)
    : Instruction.operation n ⟨.cnot, operands⟩
      = some (.gate (.cnot ⟨_, within.1⟩ ⟨_, within.2.1⟩ (Fin.ne_of_val_ne within.2.2))) := by
  have distinct : (⟨_, within.1⟩ : Fin n) ≠ ⟨_, within.2.1⟩ := Fin.ne_of_val_ne within.2.2
  simp only [Instruction.operation, qubit_of_lt within.1, qubit_of_lt within.2.1,
    Option.bind_eq_bind, Option.bind_some]
  exact dif_pos distinct

end Sabot.Language

namespace Sabot.State

open Stabilizer ChpState
open Sabot.Language (Instruction qubit_of_lt)

/-- A measurement instruction. -/
def isMeasure (instruction : Instruction) : Bool := instruction.bytecode = .measure

/-- Instructions within the state that do not measure are gates of the circuit. -/
theorem operation_gate {n : Nat} {instruction : Instruction}
    (within : instruction.Within n) (gate : isMeasure instruction = false)
    : ∃ g, instruction.operation n = some (.gate g) := by
  obtain ⟨bytecode, operands⟩ := instruction
  cases bytecode with
  | macroOp => exact within.elim
  | initializeOp => exact within.elim
  | measure => cases gate
  | cnot => exact ⟨_, Instruction.operation_cnot within⟩
  | _ =>
      simp [Instruction.operation, qubit_of_lt (show operands.head.toNat < n from within)]

/-- What a gate instruction does to one row: the gates that `run_program` applies for it. -/
def onRow : Instruction → Row → Row
  | ⟨.macroOp, _⟩, R | ⟨.initializeOp, _⟩, R | ⟨.identity, _⟩, R | ⟨.measure, _⟩, R => R
  | ⟨.hadamard, operands⟩, R => R.hadamard operands.head.toNat
  | ⟨.phase, operands⟩, R => R.phase operands.head.toNat
  | ⟨.cnot, operands⟩, R => R.cnot operands.head.toNat operands.tail.head.toNat
  | ⟨.paulix, operands⟩, R =>
      let q := operands.head.toNat
      (((R.hadamard q).phase q).phase q).hadamard q
  | ⟨.pauliy, operands⟩, R =>
      let q := operands.head.toNat
      (((((((R.phase q).hadamard q).phase q).phase q).hadamard q).phase q).phase q).phase q
  | ⟨.pauliz, operands⟩, R =>
      let q := operands.head.toNat
      (R.phase q).phase q

/-- A list of gates on one row. -/
def runRow (gates : List Instruction) (R : Row) : Row := gates.foldl (fun R gate => onRow gate R) R

/-- On well-formed rows a gate instruction conjugates the stored string by its gate. -/
theorem onRow_conjugates {n : Nat} {R : Row} (formed : R.WellFormed n) {instruction : Instruction}
    (within : instruction.Within n) {g : Gate (Fin n)}
    (reads : instruction.operation n = some (.gate g))
    : (onRow instruction R).WellFormed n
      ∧ (onRow instruction R).toPauli n = g.conjugate (R.toPauli n) := by
  obtain ⟨bytecode, operands⟩ := instruction
  cases bytecode with
  | macroOp => exact within.elim
  | initializeOp => exact within.elim
  | cnot =>
      obtain ⟨hc, ht, apart⟩ := within
      have distinct : (⟨operands.head.toNat, hc⟩ : Fin n) ≠ ⟨operands.tail.head.toNat, ht⟩ :=
        Fin.ne_of_val_ne apart
      have pauli := formed.toPauli_cnot distinct
      rw [Instruction.operation_cnot ⟨hc, ht, apart⟩] at reads
      cases reads
      exact ⟨formed.cnot hc ht, pauli⟩
  | measure =>
      simp [Instruction.operation, qubit_of_lt (show operands.head.toNat < n from within)] at reads
  | identity =>
      simp only [Instruction.operation, qubit_of_lt (show operands.head.toNat < n from within)]
        at reads
      cases reads
      exact ⟨formed, rfl⟩
  | hadamard =>
      simp only [Instruction.operation, qubit_of_lt (show operands.head.toNat < n from within)]
        at reads
      cases reads
      exact ⟨formed.hadamard within, formed.toPauli_hadamard ⟨_, within⟩⟩
  | phase =>
      simp only [Instruction.operation, qubit_of_lt (show operands.head.toNat < n from within)]
        at reads
      cases reads
      exact ⟨formed.phase within, formed.toPauli_phase ⟨_, within⟩⟩
  | paulix =>
      simp only [Instruction.operation, qubit_of_lt (show operands.head.toNat < n from within)]
        at reads
      cases reads
      have h := formed.hadamard within
      have hpp := (h.phase within).phase within
      refine ⟨hpp.hadamard within, ?_⟩
      calc (onRow ⟨.paulix, operands⟩ R).toPauli n
          = ((((R.toPauli n).hadamard ⟨_, within⟩).phaseGate ⟨_, within⟩).phaseGate
              ⟨_, within⟩).hadamard ⟨_, within⟩ := by
            rw [← formed.toPauli_hadamard, ← h.toPauli_phase, ← (h.phase within).toPauli_phase,
              ← hpp.toPauli_hadamard]
            rfl
        _ = _ := by
            rw [PauliString.hadamard_flip_hadamard, Gate.conjugate, PauliString.form_singleX]
  | pauliy =>
      simp only [Instruction.operation, qubit_of_lt (show operands.head.toNat < n from within)]
        at reads
      cases reads
      have p := formed.phase within
      have ph := p.hadamard within
      have phpp := (ph.phase within).phase within
      have phpph := phpp.hadamard within
      refine ⟨((phpph.phase within).phase within).phase within, ?_⟩
      calc (onRow ⟨.pauliy, operands⟩ R).toPauli n
          = ((((((((R.toPauli n).phaseGate ⟨_, within⟩).hadamard ⟨_, within⟩).phaseGate
              ⟨_, within⟩).phaseGate ⟨_, within⟩).hadamard ⟨_, within⟩).phaseGate
              ⟨_, within⟩).phaseGate ⟨_, within⟩).phaseGate ⟨_, within⟩ := by
            rw [← formed.toPauli_phase, ← p.toPauli_hadamard, ← ph.toPauli_phase,
              ← (ph.phase within).toPauli_phase, ← phpp.toPauli_hadamard, ← phpph.toPauli_phase,
              ← (phpph.phase within).toPauli_phase,
              ← ((phpph.phase within).phase within).toPauli_phase]
            rfl
        _ = _ := by
            rw [PauliString.hadamard_flip_hadamard, PauliString.phaseGate_flip_phaseGate,
              Gate.conjugate, PauliString.form_singleY]
  | pauliz =>
      simp only [Instruction.operation, qubit_of_lt (show operands.head.toNat < n from within)]
        at reads
      cases reads
      have p := formed.phase within
      refine ⟨p.phase within, ?_⟩
      calc (onRow ⟨.pauliz, operands⟩ R).toPauli n
          = ((R.toPauli n).phaseGate ⟨_, within⟩).phaseGate ⟨_, within⟩ := by
            rw [← formed.toPauli_phase, ← p.toPauli_phase]
            rfl
        _ = _ := by
            rw [PauliString.phaseGate_phaseGate, Gate.conjugate, PauliString.form_signedZ]

theorem runRow_formed {n : Nat} {R : Row} (formed : R.WellFormed n) {gates : List Instruction}
    (within : ∀ gate ∈ gates, gate.Within n)
    (unitary : ∀ gate ∈ gates, isMeasure gate = false)
    : (runRow gates R).WellFormed n := by
  induction gates generalizing R with
  | nil => exact formed
  | cons gate rest ih =>
      obtain ⟨g, reads⟩ := operation_gate (within gate List.mem_cons_self)
        (unitary gate List.mem_cons_self)
      exact ih (onRow_conjugates formed (within gate List.mem_cons_self) reads).1
        (fun i member => within i (List.mem_cons_of_mem _ member))
        (fun i member => unitary i (List.mem_cons_of_mem _ member))

-----------------------------------------------------------------------------------------
-- Gate instructions rewrite rows
-----------------------------------------------------------------------------------------

/-- The computation succeeds and applies the function to every row but the scratch row. -/
def Rewrites (result : Option ChpState) (s : ChpState) (f : Row → Row) : Prop :=
  Yields result s (fun j => if j < 2 * s.n then f (s.row j) else s.row j)

theorem Rewrites.id (s : ChpState) : Rewrites (some s) s (fun R => R) :=
  Yields.of_eq (fun _ _ => (ite_self _).symm)

theorem Rewrites.bind {first : Option ChpState} {next : ChpState → Option ChpState}
    {s : ChpState} {f g : Row → Row} (rewrites : Rewrites first s f)
    (continues : ∀ t, SameShape s t → Rewrites (next t) t g)
    : Rewrites (first.bind next) s (fun R => g (f R)) := by
  refine Yields.bind rewrites ?_
  intro t shape rowsEq
  refine (continues t shape).congr ?_
  intro j inside
  rw [shape.n] at inside
  simp only [shape.n, rowsEq j inside]
  split <;> rfl

section Steps

variable {s : ChpState} (layout : s.Layout) (d : Discipline)
include layout

theorem hadamard_rewrites {q : Nat} (inside : q < s.n) {t : ChpState} (shape : SameShape s t)
    : Rewrites (hadamard d q t) t (Row.hadamard q) :=
  hadamard_yields (shape.layout layout) d
    ((shape.layout layout).column_lt (by rw [shape.n]; exact inside))

theorem phase_rewrites {q : Nat} (inside : q < s.n) {t : ChpState} (shape : SameShape s t)
    : Rewrites (phase d q t) t (Row.phase q) :=
  phase_yields (shape.layout layout) d
    ((shape.layout layout).column_lt (by rw [shape.n]; exact inside))

/-- A gate instruction rewrites the rows and touches nothing else of the machine. -/
theorem step_rewrites {m : Machine} (here : m.state = s) {instruction : Instruction}
    (within : instruction.Within s.n) (gate : isMeasure instruction = false)
    : ∃ result, step d m instruction = result.bind (fun t => some (true, { m with state := t }))
        ∧ Rewrites result s (onRow instruction) := by
  subst here
  obtain ⟨bytecode, operands⟩ := instruction
  have start := SameShape.refl m.state
  cases bytecode with
  | macroOp => exact within.elim
  | initializeOp => exact within.elim
  | measure => cases gate
  | identity => exact ⟨some m.state, rfl, .id m.state⟩
  | hadamard => exact ⟨_, rfl, hadamard_rewrites layout d within start⟩
  | phase => exact ⟨_, rfl, phase_rewrites layout d within start⟩
  | cnot =>
      exact ⟨_, rfl, cnot_yields layout d (layout.column_lt within.1) (layout.column_lt within.2.1)⟩
  | paulix =>
      have h (t : ChpState) := hadamard_rewrites layout d within (t := t)
      have p (t : ChpState) := phase_rewrites layout d within (t := t)
      have gates := (((h _ start).bind p).bind p).bind h
      exact ⟨_, by simp only [step, Option.bind_eq_bind, Option.bind_assoc, Option.pure_def], gates⟩
  | pauliy =>
      have h (t : ChpState) := hadamard_rewrites layout d within (t := t)
      have p (t : ChpState) := phase_rewrites layout d within (t := t)
      have gates := (((((((p _ start).bind h).bind p).bind p).bind h).bind p).bind p).bind p
      exact ⟨_, by simp only [step, Option.bind_eq_bind, Option.bind_assoc, Option.pure_def], gates⟩
  | pauliz =>
      have p (t : ChpState) := phase_rewrites layout d within (t := t)
      have gates := (p _ start).bind p
      exact ⟨_, by simp only [step, Option.bind_eq_bind, Option.bind_assoc, Option.pure_def], gates⟩

end Steps

/-- A list of gate instructions rewrites the rows one gate after the other. -/
theorem runInstructions_rewrites {m : Machine} (layout : m.state.Layout) (d : Discipline)
    {gates : List Instruction} (within : ∀ gate ∈ gates, gate.Within m.state.n)
    (unitary : ∀ gate ∈ gates, isMeasure gate = false)
    : ∃ t, runInstructions d gates m = some (true, { m with state := t })
        ∧ SameShape m.state t
        ∧ ∀ j < 2 * m.state.n, t.row j = runRow gates (m.state.row j) := by
  induction gates generalizing m with
  | nil => exact ⟨m.state, rfl, SameShape.refl _, fun _ _ => rfl⟩
  | cons gate rest ih =>
      obtain ⟨result, ranGate, middle, rfl, shape, rowsEq⟩ :=
        step_rewrites layout d rfl (within gate List.mem_cons_self)
          (unitary gate List.mem_cons_self)
      obtain ⟨t, ranRest, shapeT, rowsT⟩ := ih (m := { m with state := middle })
        (shape.layout layout)
        (fun g member => by rw [shape.n]; exact within g (List.mem_cons_of_mem _ member))
        (fun g member => unitary g (List.mem_cons_of_mem _ member))
      refine ⟨t, ?_, shape.trans shapeT, ?_⟩
      · rw [Option.bind_some] at ranGate
        simp [runInstructions, ranGate, ranRest]
      · intro j below
        have first : middle.row j = onRow gate (m.state.row j) :=
          (rowsEq j below.le).trans (if_pos below)
        rw [rowsT j (by simpa only [shape.n] using below), first]
        rfl

end Sabot.State
