import Sabot.Stabilizer.CircuitEquivalence
import Sabot.State.Simulation

/-! Two gate programs are equivalent when they leave the same tableau in freshly initialised qubits.
Then they do so in every state, and they are the same operator up to a global phase.
-/

namespace Sabot.State

open Stabilizer
open Sabot.Language (Instruction circuit)

variable {n : Nat} {gates others : List Instruction} {strings : List (Gate (Fin n))}

/-- Gate instructions are the gates of the circuit. -/
theorem exists_circuit_gates (within : ∀ gate ∈ gates, gate.Within n)
    (unitary : ∀ gate ∈ gates, isMeasure gate = false)
    : ∃ strings : List (Gate (Fin n)), circuit n gates = strings.map .gate := by
  induction gates with
  | nil => exact ⟨[], rfl⟩
  | cons gate rest ih =>
      obtain ⟨g, reads⟩ := operation_gate (within gate List.mem_cons_self)
        (unitary gate List.mem_cons_self)
      obtain ⟨strings, whole⟩ := ih (fun i member => within i (List.mem_cons_of_mem _ member))
        (fun i member => unitary i (List.mem_cons_of_mem _ member))
      simp only [circuit] at whole
      exact ⟨g :: strings, by simp [circuit, reads, whole]⟩

/-- A list of gate instructions conjugates the string of a row by the list of gates. -/
theorem runRow_conjugates {R : Row} (formed : R.WellFormed n)
    (within : ∀ gate ∈ gates, gate.Within n)
    (unitary : ∀ gate ∈ gates, isMeasure gate = false)
    (whole : circuit n gates = strings.map .gate)
    : (runRow gates R).toPauli n = conjugateAll strings (R.toPauli n) := by
  induction gates generalizing R strings with
  | nil =>
      obtain rfl : strings = [] := by simpa [circuit] using whole.symm
      rfl
  | cons gate rest ih =>
      obtain ⟨g, reads⟩ := operation_gate (within gate List.mem_cons_self)
        (unitary gate List.mem_cons_self)
      obtain ⟨others, tail⟩ := exists_circuit_gates
        (fun i member => within i (List.mem_cons_of_mem _ member))
        (fun i member => unitary i (List.mem_cons_of_mem _ member))
      obtain ⟨formedG, conjugates⟩ :=
        onRow_conjugates formed (within gate List.mem_cons_self) reads
      have later := ih formedG (fun i member => within i (List.mem_cons_of_mem _ member))
        (fun i member => unitary i (List.mem_cons_of_mem _ member)) tail
      obtain rfl : strings = g :: others := by
        have unfolded : circuit n (gate :: rest) = .gate g :: circuit n rest := by
          simp [circuit, reads]
        rw [unfolded, tail, ← List.map_cons] at whole
        exact (List.map_injective_iff.mpr (fun _ _ => Operation.gate.inj) whole).symm
      rw [conjugates] at later
      exact later

/-- Both programs run to their end and leave the same words and phases in all rows. -/
def SameRows (n : Nat) (d : Discipline) (program other : List Instruction) (m : Machine) : Prop :=
  ∃ next next', runInstructions d program m = some (true, next)
    ∧ runInstructions d other m = some (true, next')
    ∧ ∀ j < 2 * n, next.state.row j = next'.state.row j

/-- On sound states, gates leave the same rows when they conjugate these rows alike. -/
theorem sameRows_iff (d : Discipline) (within : ∀ gate ∈ gates, gate.Within n)
    (unitary : ∀ gate ∈ gates, isMeasure gate = false) (within' : ∀ gate ∈ others, gate.Within n)
    (unitary' : ∀ gate ∈ others, isMeasure gate = false) {strings' : List (Gate (Fin n))}
    (whole : circuit n gates = strings.map .gate) (whole' : circuit n others = strings'.map .gate)
    {m : Machine} (sound : Sound n m.state)
    : SameRows n d gates others m
      ↔ ∀ j < 2 * n, conjugateAll strings ((m.state.row j).toPauli n)
        = conjugateAll strings' ((m.state.row j).toPauli n) := by
  have qubits := sound.qubits
  obtain ⟨t, ran, _, rows⟩ := runInstructions_rewrites sound.layout d (by rwa [qubits]) unitary
  obtain ⟨t', ran', _, rows'⟩ := runInstructions_rewrites sound.layout d (by rwa [qubits]) unitary'
  rw [qubits] at rows rows'
  have strung (j : Nat) (below : j < 2 * n)
      : t.row j = t'.row j ↔ conjugateAll strings ((m.state.row j).toPauli n)
        = conjugateAll strings' ((m.state.row j).toPauli n) := by
    have formed := sound.rows j below
    rw [← runRow_conjugates formed within unitary whole,
      ← runRow_conjugates formed within' unitary' whole', rows j below, rows' j below]
    exact ⟨congrArg _, (runRow_formed formed within unitary).ext
      (runRow_formed formed within' unitary')⟩
  constructor
  · rintro ⟨next, next', ranN, ranN', same⟩ j below
    obtain rfl : { m with state := t } = next := by simpa [ran] using ranN
    obtain rfl : { m with state := t' } = next' := by simpa [ran'] using ranN'
    exact (strung j below).mp (same j below)
  · intro alike
    exact ⟨_, _, ran, ran', fun j below => (strung j below).mpr (alike j below)⟩

/-- Lists of gates that conjugate the rows of fresh qubits alike conjugate every string alike. -/
theorem conjugateAll_eq_of_initial {strings' : List (Gate (Fin n))} {s : ChpState}
    (fresh : s.tableau n = Tableau.initial)
    (alike : ∀ j < 2 * n, conjugateAll strings ((s.row j).toPauli n)
      = conjugateAll strings' ((s.row j).toPauli n))
    : conjugateAll strings = conjugateAll strings' := by
  have x (q : Fin n) : (s.row q).toPauli n = PauliString.singleX q :=
    congrFun (congrArg Tableau.destabilizer fresh) q
  have z (q : Fin n) : (s.row (q + n)).toPauli n = PauliString.signedZ q false :=
    congrFun (congrArg Tableau.stabilizer fresh) q
  refine conjugateAll_eq (fun q => ?_) (fun q => ?_)
  · rw [← x]
    exact alike q (by omega)
  · rw [← z]
    exact alike (q + n) (by omega)

/-- Two gate programs leave the same rows in `n` freshly initialised qubits if and only if they do so
in every sound state of `n` qubits, and if and only if they are the same operator up to a global
phase.
-/
theorem sameRows_init_iff (small : n < 2 ^ 31) (d : Discipline)
    (within : ∀ gate ∈ gates, gate.Within n)
    (unitary : ∀ gate ∈ gates, isMeasure gate = false) (within' : ∀ gate ∈ others, gate.Within n)
    (unitary' : ∀ gate ∈ others, isMeasure gate = false) {m : Machine}
    (granted : Granted m.world.grants) {written : List UInt8} (buffer : m.buffer.Holds written)
    : (SameRows n d (Instruction.init n :: gates) (Instruction.init n :: others) m
        ↔ ∀ m : Machine, Sound n m.state → SameRows n d gates others m)
      ∧ (SameRows n d (Instruction.init n :: gates) (Instruction.init n :: others) m
        ↔ ∃ c : ℂ, ‖c‖ = 1 ∧ ∀ ψ coins, ∃ φ,
          Evolution (circuit n gates) ψ coins [] (c • φ) coins
          ∧ Evolution (circuit n others) ψ coins [] φ coins) := by
  obtain ⟨strings, whole⟩ := exists_circuit_gates within unitary
  obtain ⟨strings', whole'⟩ := exists_circuit_gates within' unitary'
  obtain ⟨start, ranInit, running, fresh, _⟩ := runInstructions_init small d [] granted buffer
  have begins (rest : List Instruction)
      : runInstructions d (Instruction.init n :: rest) m = runInstructions d rest start := by
    have parts := runInstructions_append d [Instruction.init n] rest m
    rw [ranInit] at parts
    exact parts
  have onRows {m : Machine} (sound : Sound n m.state) :=
    sameRows_iff d within unitary within' unitary' whole whole' sound
  -- In all three the gates conjugate every string alike.
  have first : SameRows n d (Instruction.init n :: gates) (Instruction.init n :: others) m
      ↔ conjugateAll strings = conjugateAll strings' := by
    rw [SameRows, begins, begins]
    exact (onRows running.sound).trans
      ⟨conjugateAll_eq_of_initial fresh, fun alike j _ => congrFun alike _⟩
  have second : (∀ m : Machine, Sound n m.state → SameRows n d gates others m)
      ↔ conjugateAll strings = conjugateAll strings' := by
    constructor
    · intro always
      exact conjugateAll_eq_of_initial fresh ((onRows running.sound).mp (always start running.sound))
    · intro alike m sound
      exact (onRows sound).mpr fun j _ => congrFun alike _
  have third : (∃ c : ℂ, ‖c‖ = 1 ∧ ∀ ψ coins, ∃ φ,
        Evolution (circuit n gates) ψ coins [] (c • φ) coins
        ∧ Evolution (circuit n others) ψ coins [] φ coins)
      ↔ conjugateAll strings = conjugateAll strings' := by
    simp only [whole, whole', evolution_gates_iff, true_and, and_true]
    constructor
    · rintro ⟨c, _, same⟩
      refine conjugateAll_eq_of_unitaryAll (c := c) fun ψ => ?_
      obtain ⟨φ, scaled, rfl⟩ := same ψ (.const true)
      exact scaled.symm
    · intro alike
      obtain ⟨c, unit, same⟩ := exists_phase alike
      exact ⟨c, unit, fun ψ _ => ⟨_, (same ψ).symm, rfl⟩⟩
  exact ⟨first.trans second.symm, first.trans third.symm⟩

/-- Whether Hadamard, Z, Hadamard is X can be seen on a fresh qubit. -/
theorem sameRows_init_iff_one
    : SameRows 1 .allocated
          (Instruction.init 1 :: [⟨.hadamard, .cons 0 .nil⟩, ⟨.pauliz, .cons 0 .nil⟩,
            ⟨.hadamard, .cons 0 .nil⟩])
          (Instruction.init 1 :: [⟨.paulix, .cons 0 .nil⟩])
          ⟨ChpState.fresh, .empty, ⟨.const true, .const (some 0)⟩⟩
        ↔ ∀ m : Machine, Sound 1 m.state → SameRows 1 .allocated
          [⟨.hadamard, .cons 0 .nil⟩, ⟨.pauliz, .cons 0 .nil⟩, ⟨.hadamard, .cons 0 .nil⟩]
          [⟨.paulix, .cons 0 .nil⟩] m :=
  (sameRows_init_iff (n := 1) (m := ⟨ChpState.fresh, .empty, ⟨.const true, .const (some 0)⟩⟩)
    (by decide) .allocated (by decide) (by decide) (by decide) (by decide) (fun _ _ => rfl)
    (ManagedContainer.empty_holds (by decide))).1

end Sabot.State
