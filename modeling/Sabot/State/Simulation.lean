import Sabot.State.GateRows

/-! Runs of programs on the packed tableau simulate quantum mechanics: every instruction whose
operands name qubits of the state is an operation of a stabilizer circuit.
-/

namespace Sabot.Language

/-- The circuit of a list of instructions. -/
def circuit (n : Nat) (instructions : List Instruction) : List (Stabilizer.Operation (Fin n)) :=
  instructions.filterMap (Instruction.operation n)

/-- `init n`. -/
def Instruction.init (n : Nat) : Instruction := ⟨.initializeOp, .cons (UInt64.ofNat n) .nil⟩

end Sabot.Language

namespace Sabot.State

open Stabilizer
open Sabot.Language (Instruction Program qubit qubit_of_lt circuit)

/-- The character that a measurement writes. -/
def character (outcome : Bool) : UInt8 := if outcome then 49 else 48

-----------------------------------------------------------------------------------------
-- One instruction
-----------------------------------------------------------------------------------------

/-- The machine has a sound state with a valid tableau, and its buffer holds `written`. -/
structure Running (n : Nat) (m : Machine) (written : List UInt8) : Prop where
  sound : Sound n m.state
  valid : (m.state.tableau n).Valid
  buffer : m.buffer.Holds written

/-- The instruction succeeds and is an operation of the abstract machine. -/
def Operates (n : Nat) (d : Discipline) (m : Machine) (written : List UInt8)
    (instruction : Instruction) : Prop :=
  ∃ op outcomes next, instruction.operation n = some op
    ∧ step d m instruction = some (true, next)
    ∧ Running n next (written ++ outcomes.map character)
    ∧ (m.state.tableau n).operate (List.finRange n) m.world.coins op
      = (outcomes, next.state.tableau n, next.world.coins)
    ∧ next.world.grants = m.world.grants

/-- Instructions that only apply a gate to the tableau. -/
theorem operates_of_refines {n : Nat} {m : Machine} {written : List UInt8}
    (running : Running n m written) {d : Discipline} {instruction : Instruction} {g : Gate (Fin n)}
    (reads : instruction.operation n = some (.gate g)) {result : Option ChpState}
    (runs
      : step d m instruction = result.bind (fun s => some (true, { m with state := s })))
    (refines : Refines n result ((m.state.tableau n).map g.conjugate))
    : Operates n d m written instruction := by
  obtain ⟨t, ran, soundT, tableauT⟩ := refines
  refine ⟨.gate g, [], { m with state := t }, reads, by rw [runs, ran]; rfl, ?_, ?_, rfl⟩
  · refine ⟨soundT, ?_, by simpa using running.buffer⟩
    rw [tableauT]
    exact running.valid.map g.form_conjugate g.hermitian_conjugate
  · simp only [Tableau.operate, tableauT]

/-- Every instruction on the state's qubits is an operation: a measurement of the tableau or a gate
that conjugates its rows.
-/
theorem step_operates {n : Nat} {m : Machine} {written : List UInt8}
    (running : Running n m written) (d : Discipline) {instruction : Instruction}
    (within : instruction.Within n)
    : Operates n d m written instruction := by
  have sound := running.sound
  cases kind : isMeasure instruction with
  | false =>
      obtain ⟨g, reads⟩ := operation_gate within kind
      obtain ⟨result, runs, rewrites⟩ := step_rewrites sound.layout d rfl
        (by rw [sound.qubits]; exact within) kind
      have refines := refines_of_yields sound rewrites
        (fun formed => (onRow_conjugates formed within reads).1)
        (fun formed => (onRow_conjugates formed within reads).2)
      exact operates_of_refines running reads runs refines
  | true =>
      obtain ⟨bytecode, operands⟩ := instruction
      obtain rfl : bytecode = .measure := by simpa [isMeasure] using kind
      have reads : qubit n operands.head = some ⟨_, within⟩ := qubit_of_lt within
      obtain ⟨outcome, t, left, ran, soundT, operates⟩ :=
        measure_operates sound running.valid d ⟨_, within⟩ m.world.coins
      have stepped := Tableau.operate_step running.valid List.mem_finRange (List.nodup_finRange n)
        m.world.coins (.measure ⟨_, within⟩)
      rw [operates] at stepped
      obtain ⟨buffer, added, holds⟩ := running.buffer.add [character outcome]
      refine ⟨.measure ⟨_, within⟩, [outcome], ⟨t, buffer, { m.world with coins := left }⟩,
        by simp [Instruction.operation, reads], ?_, ?_, operates, rfl⟩
      · simp only [character] at added
        simp only at ran
        simp [step, ran, added]
      · exact ⟨soundT, stepped.valid running.valid, holds⟩

-----------------------------------------------------------------------------------------
-- Whole runs
-----------------------------------------------------------------------------------------

/-- A list of instructions runs to its end and is a run of the abstract machine. -/
theorem runInstructions_operates {n : Nat} {m : Machine} {written : List UInt8}
    (running : Running n m written) (d : Discipline) {instructions : List Instruction}
    (within : ∀ instruction ∈ instructions, instruction.Within n)
    : ∃ outcomes next, runInstructions d instructions m = some (true, next)
        ∧ Running n next (written ++ outcomes.map character)
        ∧ next.world.grants = m.world.grants
        ∧ Tableau.run (List.finRange n) (circuit n instructions) (m.state.tableau n) m.world.coins
          = (outcomes, next.state.tableau n, next.world.coins) := by
  induction instructions generalizing m written with
  | nil => exact ⟨[], m, rfl, by simpa using running, rfl, rfl⟩
  | cons instruction rest ih =>
      obtain ⟨op, outcomes, middle, reads, ranStep, runningM, operates, grantsM⟩ :=
        step_operates running d (within instruction List.mem_cons_self)
      obtain ⟨more, next, ranRest, runningN, grantsN, runs⟩ :=
        ih runningM (fun i member => within i (List.mem_cons_of_mem _ member))
      have unfolded : circuit n (instruction :: rest) = op :: circuit n rest := by
        simp [circuit, reads]
      refine ⟨outcomes ++ more, next, ?_, ?_, grantsN.trans grantsM, ?_⟩
      · simp [runInstructions, ranStep, ranRest]
      · rwa [List.map_append, ← List.append_assoc]
      · rw [unfolded, Tableau.run, operates]
        simp only [runs]

/-- A list of instructions runs to its end, and its outcomes are those of a run of its circuit
on any vector that the tableau stabilizes.
-/
theorem runInstructions_simulates {n : Nat} {m : Machine} {written : List UInt8}
    (running : Running n m written) (d : Discipline) {instructions : List Instruction}
    (within : ∀ instruction ∈ instructions, instruction.Within n)
    : ∃ outcomes next, runInstructions d instructions m = some (true, next)
        ∧ Running n next (written ++ outcomes.map character)
        ∧ next.world.grants = m.world.grants
        ∧ ∀ ψ, (m.state.tableau n).Stabilizes ψ
          → ∃ φ, Evolution (circuit n instructions) ψ m.world.coins outcomes φ next.world.coins
            ∧ (next.state.tableau n).Stabilizes φ := by
  obtain ⟨outcomes, next, ran, runningN, grants, runs⟩ := runInstructions_operates running d within
  refine ⟨outcomes, next, ran, runningN, grants, fun ψ stabilizes => ?_⟩
  have evolves := Tableau.run_simulates List.mem_finRange (List.nodup_finRange n) running.valid
    stabilizes (circuit n instructions) m.world.coins
  rw [runs] at evolves
  exact evolves

theorem init_operand {n : Nat} (small : n < 2 ^ 31)
    : (UInt64.ofNat n).toNat = n :=
  UInt64.toNat_ofNat_of_lt (lt_trans small (by decide))

/-- A program that starts with `init n` begins its circuit in the all-zero state. -/
theorem runInstructions_init {n : Nat} (small : n < 2 ^ 31) (d : Discipline)
    (rest : List Instruction) {m : Machine} (granted : Granted m.world.grants)
    {written : List UInt8} (buffer : m.buffer.Holds written)
    : ∃ start : Machine, runInstructions d (Instruction.init n :: rest) m
          = runInstructions d rest start
        ∧ Running n start written
        ∧ start.state.tableau n = Tableau.initial
        ∧ start.buffer = m.buffer
        ∧ start.world = { m.world with grants := m.world.grants.drop 5 } := by
  obtain ⟨s, ran, sound, tableauS⟩ := initState_refines small d m.state.pointers granted
  refine ⟨⟨s, m.buffer, { m.world with grants := m.world.grants.drop 5 }⟩, ?_,
    ⟨sound, by rw [tableauS]; exact Tableau.initial_valid, buffer⟩, tableauS, rfl, rfl⟩
  simp only [runInstructions, Instruction.init, step, List.Vector.head_cons, init_operand small,
    ran, Option.bind_eq_bind, Option.bind_some, Option.pure_def, if_true]

/-- The circuit measures as often as the instructions do. -/
theorem countP_circuit {n : Nat} {instructions : List Instruction}
    (within : ∀ instruction ∈ instructions, instruction.Within n)
    : (circuit n instructions).countP Operation.isMeasure
      = instructions.countP isMeasure := by
  induction instructions with
  | nil => rfl
  | cons instruction rest ih =>
      have here := within instruction List.mem_cons_self
      have rest := ih (fun i member => within i (List.mem_cons_of_mem _ member))
      obtain ⟨bytecode, operands⟩ := instruction
      simp only [circuit] at rest
      cases bytecode with
      | macroOp => exact here.elim
      | initializeOp => exact here.elim
      | cnot =>
          obtain ⟨hc, ht, apart⟩ := here
          simp [circuit, Instruction.operation, qubit_of_lt hc, qubit_of_lt ht, isMeasure,
            Operation.isMeasure, rest, apart]
      | _ =>
          simp [circuit, Instruction.operation, isMeasure, Operation.isMeasure, List.countP_cons,
            rest, qubit_of_lt (show operands.head.toNat < n from here)]

/-- A program that starts with `init n` and acts on the qubits below `n` simulates its circuit:
the recorded outcomes come from a run on the state vector, which ends in a nonzero vector that
every stabilizer row fixes, and the buffer holds one character per measurement.
-/
theorem runProgram_simulates_evolution {n : Nat} (small : n < 2 ^ 31) (d : Discipline)
    {rest : List Instruction} (within : ∀ instruction ∈ rest, instruction.Within n)
    (state : ChpState) (coins : Stream' Bool) {grants : Stream' (Option Int)}
    (granted : Granted grants)
    : ∃ p m outcomes ψ, Program.ofArray (Instruction.init n :: rest) = some p
        ∧ runProgram d p ⟨state, .empty, ⟨coins, grants⟩⟩ = some (true, m)
        ∧ m.state.n = n
        ∧ Evolution (circuit n rest) StateVector.zeroState coins outcomes ψ m.world.coins
        ∧ ψ ≠ 0
        ∧ (∀ i : Fin n, ((m.state.row (i + n)).toPauli n).Fixes ψ)
        ∧ m.buffer.Holds (outcomes.map character)
        ∧ outcomes.length = rest.countP isMeasure := by
  obtain ⟨p, built, stored⟩ := Program.ofArray_holds (Instruction.init n :: rest)
  obtain ⟨start, ranInit, running, tableauS, _, worldS⟩ :=
    runInstructions_init small d rest (m := ⟨state, .empty, ⟨coins, grants⟩⟩) granted
      (ManagedContainer.empty_holds (by decide))
  obtain ⟨outcomes, m, ran, runningM, _, evolves⟩ := runInstructions_simulates running d within
  rw [tableauS, worldS] at evolves
  obtain ⟨ψ, evolution, stabilizes⟩ := evolves _ Tableau.initial_stabilizes
  refine ⟨p, m, outcomes, ψ, built, ?_, runningM.sound.qubits, evolution, stabilizes.nonzero,
    stabilizes.fixed, runningM.buffer, ?_⟩
  · rw [runProgram_eq d stored, ranInit, ran]
  · rw [evolution.length_outcomes, countP_circuit within]

/-- A Bell pair, measured on both qubits. -/
theorem runProgram_simulates_bell
    : ∃ p m outcomes ψ,
        Program.ofArray (Instruction.init 2 :: [
          ⟨.hadamard, .cons 0 .nil⟩, ⟨.cnot, .cons 0 (.cons 1 .nil)⟩,
          ⟨.measure, .cons 0 .nil⟩, ⟨.measure, .cons 1 .nil⟩]) = some p
        ∧ runProgram .allocated p ⟨ChpState.fresh, .empty, ⟨.const true, .const (some 0)⟩⟩
          = some (true, m)
        ∧ m.state.n = 2
        ∧ Evolution
            (circuit 2 [
              ⟨.hadamard, .cons 0 .nil⟩, ⟨.cnot, .cons 0 (.cons 1 .nil)⟩,
              ⟨.measure, .cons 0 .nil⟩, ⟨.measure, .cons 1 .nil⟩])
            StateVector.zeroState (.const true) outcomes ψ m.world.coins
        ∧ ψ ≠ 0
        ∧ (∀ i : Fin 2, ((m.state.row (i + 2)).toPauli 2).Fixes ψ)
        ∧ m.buffer.Holds (outcomes.map character)
        ∧ outcomes.length = 2 :=
  runProgram_simulates_evolution (by decide) .allocated
    (by decide) ChpState.fresh (.const true) (fun _ _ => rfl)

-----------------------------------------------------------------------------------------
-- Reachable tableaux
-----------------------------------------------------------------------------------------

/-- The states of `n` qubits that initialisation, single instructions and whole calls can lead
to. Between the calls the state is stored and the buffer of each call starts empty.
-/
inductive Reachable (n : Nat) : ChpState → Prop where
  | initialised {d pointers grants s left}
      (success : initState d pointers n grants = some (true, s, left))
      : Reachable n s
  | stepped {d m written instruction ok next} (before : Reachable n m.state)
      (buffer : m.buffer.Holds written) (within : instruction.Within n)
      (ran : step d m instruction = some (ok, next))
      : Reachable n next.state
  | created {p rest world s left} (stored : p.instructions.Holds (Instruction.init n :: rest))
      (within : ∀ instruction ∈ rest, instruction.Within n) (granted : Granted world.grants)
      (ran : encodeState p world = some (s, left))
      : Reachable n s
  | modified {s p instructions world ok t left} (before : Reachable n s)
      (stored : p.instructions.Holds instructions)
      (within : ∀ instruction ∈ instructions, instruction.Within n)
      (ran : modifyState s p world = some (ok, t, left))
      : Reachable n t
  | measured {s p instructions world ok m} (before : Reachable n s)
      (stored : p.instructions.Holds instructions)
      (within : ∀ instruction ∈ instructions, instruction.Within n)
      (ran : measureState s p .empty world = some (ok, m))
      : Reachable n m.state

/-- A sound state whose tableau is valid and stabilizes some vector. -/
structure Prepared (n : Nat) (s : ChpState) : Prop where
  sound : Sound n s
  valid : (s.tableau n).Valid
  stabilized : ∃ ψ, (s.tableau n).Stabilizes ψ

/-- Running instructions keeps a prepared state prepared. -/
theorem Prepared.runInstructions {n : Nat} {m : Machine} (prepared : Prepared n m.state)
    {written : List UInt8} (buffer : m.buffer.Holds written) (d : Discipline)
    {instructions : List Instruction}
    (within : ∀ instruction ∈ instructions, instruction.Within n)
    : ∃ next, State.runInstructions d instructions m = some (true, next)
        ∧ Prepared n next.state := by
  obtain ⟨ψ, stabilizes⟩ := prepared.stabilized
  obtain ⟨_, next, ran, runningN, _, evolves⟩ :=
    runInstructions_simulates ⟨prepared.sound, prepared.valid, buffer⟩ d within
  obtain ⟨φ, _, stabilizesN⟩ := evolves ψ stabilizes
  exact ⟨next, ran, runningN.sound, runningN.valid, φ, stabilizesN⟩

theorem Prepared.runProgram {n : Nat} {s : ChpState} (prepared : Prepared n s) (d : Discipline)
    {p : Program} {instructions : List Instruction} (stored : p.instructions.Holds instructions)
    (within : ∀ instruction ∈ instructions, instruction.Within n) (world : World)
    : ∃ m, State.runProgram d p ⟨s, .empty, world⟩ = some (true, m) ∧ Prepared n m.state := by
  rw [runProgram_eq d stored]
  exact Prepared.runInstructions prepared (m := ⟨s, .empty, world⟩)
    (ManagedContainer.empty_holds (by decide)) d within

/-- A program measures a prepared state as the abstract machine does. -/
theorem Prepared.measureState {n : Nat} {s : ChpState} (prepared : Prepared n s) {p : Program}
    {instructions : List Instruction} (stored : p.instructions.Holds instructions)
    (within : ∀ instruction ∈ instructions, instruction.Within n) (world : World)
    : ∃ outcomes m, State.measureState s p .empty world = some (true, m)
        ∧ m.buffer.Holds (outcomes.map character) ∧ Prepared n m.state
        ∧ m.world.grants = world.grants
        ∧ Tableau.run (List.finRange n) (circuit n instructions) (s.tableau n) world.coins
          = (outcomes, m.state.tableau n, m.world.coins) := by
  obtain ⟨outcomes, m, ran, running, grants, runs⟩ :=
    runInstructions_operates (m := ⟨s, .empty, world⟩)
      ⟨prepared.sound, prepared.valid, ManagedContainer.empty_holds (by decide)⟩ .allocated within
  have measures := (runProgram_eq .allocated stored ⟨s, .empty, world⟩).trans ran
  obtain ⟨same, ranSame, preparedM⟩ := prepared.runProgram .allocated stored within world
  obtain rfl : m = same := by simpa [measures] using ranSame
  exact ⟨outcomes, m, measures, running.buffer, preparedM, grants, runs⟩

/-- Reachable states are prepared, by induction over the calls and instructions. -/
theorem Reachable.prepared {n : Nat} (small : n < 2 ^ 31) {s : ChpState}
    (reachable : Reachable n s)
    : Prepared n s := by
  have initial {t : ChpState} (sound : Sound n t) (fresh : t.tableau n = Tableau.initial)
      : Prepared n t := by
    refine ⟨sound, ?_, StateVector.zeroState, ?_⟩
    · rw [fresh]
      exact Tableau.initial_valid
    · rw [fresh]
      exact Tableau.initial_stabilizes
  induction reachable with
  | initialised success =>
      obtain ⟨sound, fresh⟩ := initState_success (by have := cells_lt small; omega) _ _ success
      exact initial sound fresh
  | @stepped d m written instruction ok next _ buffer within ran ih =>
      obtain ⟨next', ran', prepared⟩ :=
        ih.runInstructions buffer d (List.forall_mem_singleton.mpr within)
      obtain ⟨_, rfl⟩ : ok = true ∧ next = next' := by
        simp only [runInstructions, ran, Option.bind_eq_bind, Option.bind_some] at ran'
        cases ok with
        | false => cases ran'
        | true => exact ⟨rfl, by simpa using ran'⟩
      exact prepared
  | @created p rest world s left stored within granted ran =>
      obtain ⟨start, ranInit, running, fresh, _⟩ :=
        runInstructions_init small .allocated rest (m := ⟨ChpState.fresh, .empty, world⟩) granted
          (ManagedContainer.empty_holds (by decide))
      obtain ⟨m, ranRest, prepared⟩ := (initial running.sound fresh).runInstructions
        running.buffer .allocated within
      obtain ⟨rfl, _⟩ : m.state = s ∧ m.world = left := by
        simpa [encodeState, runProgram_eq .allocated stored, ranInit, ranRest] using ran
      exact prepared
  | @modified s p instructions world ok t left _ stored within ran ih =>
      obtain ⟨m, ranM, prepared⟩ := ih.runProgram .allocated stored within world
      obtain ⟨_, rfl, _⟩ : true = ok ∧ m.state = t ∧ m.world = left := by
        simpa [modifyState, ranM] using ran
      exact prepared
  | @measured s p instructions world ok m _ stored within ran ih =>
      obtain ⟨m', ranM, prepared⟩ := ih.runProgram .allocated stored within world
      obtain ⟨_, rfl⟩ : true = ok ∧ m' = m := by
        simpa [measureState, ranM] using ran
      exact prepared

/-- A reduced phase of a signed string is zero or two. -/
theorem Row.WellFormed.phase_eq {n : Nat} {R : Row} (formed : R.WellFormed n)
    (sign : (R.toPauli n).Hermitian)
    : R.r = 0 ∨ R.r = 2 := by
  have nonneg := formed.phaseNonneg
  have below := formed.phaseLt
  have cases : ∀ r : Int, 0 ≤ r → r < 4 → parity (r : ZMod 4) = 0 → r = 0 ∨ r = 2 := by
    intro r low high
    interval_cases r <;> decide
  exact cases R.r nonneg below sign

/-- The phases of a valid state are zero or two. -/
theorem Sound.phase_eq {n : Nat} {s : ChpState} (sound : Sound n s) (valid : (s.tableau n).Valid)
    {j : Nat} (below : j < 2 * n)
    : (s.row j).r = 0 ∨ (s.row j).r = 2 := by
  by_cases first : j < n
  · exact (sound.rows j below).phase_eq (valid.destabilizerSign ⟨j, first⟩)
  · have sign := valid.stabilizerSign ⟨j - n, by omega⟩
    have index : j - n + n = j := by omega
    simp only [ChpState.tableau, index] at sign
    exact (sound.rows j below).phase_eq sign

/-- In every reachable state the rows form a symplectic basis, are linearly independent, and
have phases zero or two.
-/
theorem reachable_symplectic {n : Nat} (small : n < 2 ^ 31) {s : ChpState}
    (reachable : Reachable n s)
    : SymplecticBasis (fun i : Fin n => (s.row i).toPauli n)
          (fun i : Fin n => (s.row (i + n)).toPauli n)
        ∧ LinearIndependent (ZMod 2)
            (Sum.elim (fun i : Fin n => ((s.row i).toPauli n).bits)
              (fun i : Fin n => ((s.row (i + n)).toPauli n).bits))
        ∧ ∀ j < 2 * n, s.r.cell j = 0 ∨ s.r.cell j = 2 := by
  obtain ⟨sound, valid, _⟩ := reachable.prepared small
  exact ⟨valid.basis, valid.basis.linearIndependent, fun j below => sound.phase_eq valid below⟩

/-- Whatever the coins are, what instructions make of fresh qubits is reachable. -/
theorem exists_reachable {n : Nat} (small : n < 2 ^ 31) {instructions : List Instruction}
    (within : ∀ instruction ∈ instructions, instruction.Within n) (coins : Stream' Bool)
    : ∃ s, Reachable n s
        ∧ s.tableau n = (Tableau.run (List.finRange n) (circuit n instructions) Tableau.initial
            coins).2.1 := by
  have granted : Granted (.const (some 0)) := fun _ _ => rfl
  obtain ⟨fresh, initialised, _, initial⟩ := initState_refines small .allocated (.stale 0) granted
  have before : Reachable n fresh := .initialised initialised
  obtain ⟨p, _, stored⟩ := Program.ofArray_holds instructions
  obtain ⟨outcomes, m, ran, _, _, _, runs⟩ :=
    (before.prepared small).measureState stored within ⟨coins, .const (some 0)⟩
  rw [initial] at runs
  exact ⟨m.state, .measured before stored within ran, by rw [runs]⟩

/-- Three qubits in both values at once, of which the second is the opposite of the others. -/
def catCircuit : List Instruction :=
  [⟨.hadamard, .cons 0 .nil⟩, ⟨.cnot, .cons 0 (.cons 1 .nil)⟩, ⟨.cnot, .cons 0 (.cons 2 .nil)⟩,
    ⟨.paulix, .cons 1 .nil⟩]

theorem exists_cat
    : ∃ s, Reachable 3 s
        ∧ s.tableau 3 = (Tableau.run (List.finRange 3) (circuit 3 catCircuit) Tableau.initial
            (.const true)).2.1 :=
  exists_reachable (by decide) (by decide) _

/-- A Bell pair of which one half is measured. -/
theorem reachable_symplectic_two
    : ∃ s, Reachable 2 s
        ∧ s.tableau 2 = (Tableau.run (List.finRange 2)
            [.gate (.hadamard 0), .gate (.cnot 0 1 (by decide)), .measure 1] Tableau.initial
            (.const true)).2.1
        ∧ SymplecticBasis (fun i : Fin 2 => (s.row i).toPauli 2)
            (fun i : Fin 2 => (s.row (i + 2)).toPauli 2)
        ∧ LinearIndependent (ZMod 2)
            (Sum.elim (fun i : Fin 2 => ((s.row i).toPauli 2).bits)
              (fun i : Fin 2 => ((s.row (i + 2)).toPauli 2).bits))
        ∧ ∀ j < 2 * 2, s.r.cell j = 0 ∨ s.r.cell j = 2 := by
  have small : 2 < 2 ^ 31 := by decide
  have within : ∀ instruction ∈ [(⟨.hadamard, .cons 0 .nil⟩ : Instruction),
      ⟨.cnot, .cons 0 (.cons 1 .nil)⟩, ⟨.measure, .cons 1 .nil⟩], instruction.Within 2 := by
    decide
  obtain ⟨s, reachable, ran⟩ := exists_reachable small within (.const true)
  exact ⟨s, reachable, ran, reachable_symplectic small reachable⟩

end Sabot.State
