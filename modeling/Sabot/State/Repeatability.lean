import Sabot.State.Simulation
import Sabot.Stabilizer.Repetition

/-! Measurements are repeatable: as long as a measured qubit is not touched by a Hadamard gate and
is not the target of a CNOT, measuring it again draws no coin and reports the first outcome,
corrected by the Pauli gates applied to the qubit in between.
-/

namespace Sabot.Language

open Stabilizer (PauliString)

/-- The instruction does not apply a Hadamard gate to the qubit and does not target it. -/
def Instruction.Spares (q : Nat) : Instruction → Prop
  | ⟨.hadamard, operands⟩ => operands.head.toNat ≠ q
  | ⟨.cnot, operands⟩ => operands.tail.head.toNat ≠ q
  | _ => True

instance (q : Nat) : DecidablePred (Instruction.Spares q)
  | ⟨.hadamard, _⟩ => inferInstanceAs (Decidable (_ ≠ _))
  | ⟨.cnot, _⟩ => inferInstanceAs (Decidable (_ ≠ _))
  | ⟨.macroOp, _⟩ | ⟨.initializeOp, _⟩ | ⟨.identity, _⟩ | ⟨.phase, _⟩ | ⟨.measure, _⟩
  | ⟨.paulix, _⟩ | ⟨.pauliy, _⟩ | ⟨.pauliz, _⟩ => inferInstanceAs (Decidable True)

/-- The instruction is an `x` or `y` on the qubit. -/
def Instruction.flips (q : Nat) : Instruction → Bool
  | ⟨.paulix, operands⟩ | ⟨.pauliy, operands⟩ => operands.head.toNat = q
  | _ => false

/-- An `x` or `y` of the instructions is one of the circuit, and so is what spares a qubit. -/
theorem Instruction.operation_spares {n : Nat} (q : Fin n) {instruction : Instruction}
    {op : Stabilizer.Operation (Fin n)} (reads : instruction.operation n = some op)
    (within : instruction.Within n) (spares : instruction.Spares q)
    : op.Spares q ∧ op.negatesZ q = instruction.flips q := by
  obtain ⟨bytecode, operands⟩ := instruction
  have single (k : Fin n) : (Pi.single k 1 : Fin n → ZMod 2) q = 1 ↔ k = q := by
    simp [Pi.single_apply, eq_comm]
  cases bytecode with
  | macroOp => cases reads
  | initializeOp => cases reads
  | cnot =>
      rw [operation_cnot within] at reads
      cases reads
      exact ⟨Fin.ne_of_val_ne spares, rfl⟩
  | hadamard =>
      simp only [operation, qubit_of_lt (show operands.head.toNat < n from within)] at reads
      cases reads
      exact ⟨Fin.ne_of_val_ne spares, rfl⟩
  | identity =>
      simp only [operation, qubit_of_lt (show operands.head.toNat < n from within)] at reads
      cases reads
      exact ⟨trivial, rfl⟩
  | phase =>
      simp only [operation, qubit_of_lt (show operands.head.toNat < n from within)] at reads
      cases reads
      exact ⟨trivial, rfl⟩
  | measure =>
      simp only [operation, qubit_of_lt (show operands.head.toNat < n from within)] at reads
      cases reads
      exact ⟨trivial, rfl⟩
  | paulix | pauliy | pauliz =>
      simp only [operation, qubit_of_lt (show operands.head.toNat < n from within)] at reads
      cases reads
      refine ⟨trivial, ?_⟩
      simp [Stabilizer.Operation.negatesZ, Stabilizer.Gate.negatesZ, flips, single, Fin.ext_iff,
        PauliString.singleX, PauliString.singleY, PauliString.signedZ]

end Sabot.Language

namespace Sabot.State

open Stabilizer
open Sabot.Language (Instruction)

variable {n : Nat}

/-- `Z` on the qubit has a definite sign in the state. -/
structure Settled (n : Nat) (q : Fin n) (sign : Bool) (s : ChpState) : Prop where
  sound : Sound n s
  valid : (s.tableau n).Valid
  signed : ∃ ψ, (s.tableau n).Stabilizes ψ ∧ (PauliString.signedZ q sign).Fixes ψ

/-- A measurement settles the sign that it reports. -/
theorem measure_settles {s : ChpState} (prepared : Prepared n s) (d : Discipline) (q : Fin n)
    (coins : Stream' Bool)
    : ∃ outcome t left, measure d q coins s = some (outcome, t, left)
        ∧ Settled n q outcome t := by
  obtain ⟨sound, valid, ψ, stabilizes⟩ := prepared
  obtain ⟨outcome, t, left, ran, soundT, operates⟩ := measure_operates sound valid d q coins
  have stepped := Tableau.operate_step valid List.mem_finRange (List.nodup_finRange n) coins
    (.measure q)
  rw [operates] at stepped
  obtain ⟨φ, evolves, stabilizesT⟩ := stepped.simulates valid stabilizes
  exact ⟨outcome, t, left, ran, soundT, stepped.valid valid, φ, stabilizesT, evolves.measured_sign⟩

/-- Measuring a settled qubit draws no coin and reports the sign. -/
theorem Settled.measure {s : ChpState} {q : Fin n} {sign : Bool} (settled : Settled n q sign s)
    (d : Discipline) (coins : Stream' Bool)
    : ∃ t, State.measure d q coins s = some (sign, t, coins) := by
  obtain ⟨sound, valid, ψ, stabilizes, fixed⟩ := settled
  obtain ⟨outcome, t, left, ran, _, operates⟩ := measure_operates sound valid d q coins
  rw [Tableau.operate_of_sign List.mem_finRange (List.nodup_finRange n) valid stabilizes fixed]
    at operates
  obtain ⟨rfl, _, rfl⟩ : sign = outcome ∧ s.tableau n = t.tableau n ∧ coins = left := by
    simpa using operates
  exact ⟨t, ran⟩

/-- One instruction that spares the qubit keeps it settled; `x` and `y` on it change the sign. -/
theorem Settled.step {m : Machine} {q : Fin n} {sign : Bool} (settled : Settled n q sign m.state)
    {written : List UInt8} (buffer : m.buffer.Holds written) (d : Discipline)
    {instruction : Instruction} (within : instruction.Within n) (spares : instruction.Spares q)
    : ∃ next added, State.step d m instruction = some (true, next)
        ∧ next.buffer.Holds (written ++ added)
        ∧ Settled n q (sign ^^ instruction.flips q) next.state := by
  obtain ⟨sound, valid, ψ, stabilizes, fixed⟩ := settled
  obtain ⟨op, outcomes, next, reads, ran, running, operates, _⟩ :=
    step_operates ⟨sound, valid, buffer⟩ d within
  have stepped := Tableau.operate_step valid List.mem_finRange (List.nodup_finRange n)
    m.world.coins op
  rw [operates] at stepped
  obtain ⟨φ, evolves, stabilizesN⟩ := stepped.simulates valid stabilizes
  obtain ⟨sparesOp, negates⟩ := Instruction.operation_spares q reads within spares
  rw [← negates]
  exact ⟨next, outcomes.map character, ran, running.buffer, running.sound, running.valid, φ,
    stabilizesN, evolves.keeps_sign sparesOp fixed⟩

/-- A fragment that spares the qubit keeps it settled, by induction over its instructions. -/
theorem Settled.runInstructions {m : Machine} {q : Fin n} {sign : Bool}
    (settled : Settled n q sign m.state) {written : List UInt8} (buffer : m.buffer.Holds written)
    (d : Discipline) {fragment : List Instruction}
    (within : ∀ instruction ∈ fragment, instruction.Within n)
    (spares : ∀ instruction ∈ fragment, instruction.Spares q)
    : ∃ next, State.runInstructions d fragment m = some (true, next)
        ∧ Settled n q (sign ^^ (fragment.countP (Instruction.flips q)).bodd) next.state := by
  induction fragment generalizing m sign written with
  | nil => exact ⟨m, rfl, by simpa using settled⟩
  | cons instruction rest ih =>
      obtain ⟨middle, added, ranStep, bufferM, settledM⟩ :=
        settled.step buffer d (within instruction List.mem_cons_self)
          (spares instruction List.mem_cons_self)
      obtain ⟨next, ranRest, settledN⟩ := ih settledM bufferM
        (fun i member => within i (List.mem_cons_of_mem _ member))
        (fun i member => spares i (List.mem_cons_of_mem _ member))
      refine ⟨next, by simp [State.runInstructions, ranStep, ranRest], ?_⟩
      have parity : ((instruction :: rest).countP (Instruction.flips q)).bodd
          = (instruction.flips q ^^ (rest.countP (Instruction.flips q)).bodd) := by
        rw [List.countP_cons, Nat.bodd_add, Bool.xor_comm]
        cases instruction.flips q <;> rfl
      rw [parity, ← Bool.xor_assoc]
      exact settledN

/-- After a measurement of a qubit in a reachable state, let instructions follow that spare the
qubit. Measuring it again after any of them draws no coin, and reports the first outcome when an
even number of `x` and `y` has been applied to it since, and the opposite when an odd number has.
-/
theorem measure_repeatable (small : n < 2 ^ 31) {s : ChpState} (reachable : Reachable n s)
    (d : Discipline) {q : Nat} (inside : q < n) (world : World) {buffer : StringBuffer}
    {written : List UInt8} (holds : buffer.Holds written) {fragment : List Instruction}
    (within : ∀ instruction ∈ fragment, instruction.Within n)
    (spares : ∀ instruction ∈ fragment, instruction.Spares q)
    : ∃ o t left, measure d q world.coins s = some (o, t, left)
        ∧ ∀ first rest, fragment = first ++ rest
          → ∃ m, runInstructions d first ⟨t, buffer, { world with coins := left }⟩ = some (true, m)
            ∧ ∀ coins, ∃ u, measure d q coins m.state
                = some (o ^^ (first.countP (Instruction.flips q)).bodd, u, coins) := by
  obtain ⟨o, t, left, ran, settled⟩ :=
    measure_settles (reachable.prepared small) d ⟨q, inside⟩ world.coins
  refine ⟨o, t, left, ran, ?_⟩
  rintro first rest rfl
  obtain ⟨m, ranM, settledM⟩ :=
    settled.runInstructions (m := ⟨t, buffer, { world with coins := left }⟩) holds d
      (fun i member => within i (List.mem_append_left rest member))
      (fun i member => spares i (List.mem_append_left rest member))
  exact ⟨m, ranM, settledM.measure d⟩

/-- The first of two fresh qubits, measured again while the other one is entangled with it and
measured.
-/
theorem measure_repeatable_two
    : ∃ s, Reachable 2 s ∧ ∃ o t left, measure .allocated 0 (.const true) s = some (o, t, left)
        ∧ ∀ first rest,
          [⟨.cnot, .cons 0 (.cons 1 .nil)⟩, ⟨.hadamard, .cons 1 .nil⟩,
            ⟨.measure, .cons 1 .nil⟩, ⟨.paulix, .cons 0 .nil⟩] = first ++ rest
          → ∃ m, runInstructions .allocated first ⟨t, .empty, ⟨left, .const (some 0)⟩⟩
              = some (true, m)
            ∧ ∀ coins, ∃ u, measure .allocated 0 coins m.state
                = some (o ^^ (first.countP (Instruction.flips 0)).bodd, u, coins) := by
  have small : 2 < 2 ^ 31 := by decide
  have granted : Granted (.const (some 0)) := fun _ _ => rfl
  obtain ⟨s, ran, _⟩ := initState_refines small .allocated (.stale 0) granted
  exact ⟨s, .initialised ran,
    measure_repeatable small (.initialised ran) .allocated (by decide)
      ⟨.const true, .const (some 0)⟩ (ManagedContainer.empty_holds (by decide)) (by decide)
      (by decide)⟩

end Sabot.State
