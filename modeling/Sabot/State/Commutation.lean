import Sabot.State.Simulation
import Sabot.Stabilizer.Commutation

/-! Instructions on different qubits commute, also when the qubits share a word, and so do the gate
programs of two clients of one state.
-/

namespace Sabot.Language

open Stabilizer (Gate PauliString)

/-- The qubits that an instruction names. -/
def Instruction.qubits (instruction : Instruction) : List Nat :=
  instruction.operands.toList.map UInt64.toNat

/-- A gate acts on no qubit that its instruction does not name. -/
theorem Instruction.operation_off {n : Nat} {instruction : Instruction}
    (within : instruction.Within n) {g : Gate (Fin n)}
    (reads : instruction.operation n = some (.gate g)) {q : Fin n}
    (absent : (q : Nat) ∉ instruction.qubits)
    : g.Off q := by
  obtain ⟨bytecode, operands⟩ := instruction
  have differ (k : Nat) (member : k ∈ Instruction.qubits ⟨bytecode, operands⟩) : k ≠ q :=
    fun same => absent (same ▸ member)
  cases bytecode with
  | macroOp => cases reads
  | initializeOp => cases reads
  | cnot =>
      rw [operation_cnot within] at reads
      cases reads
      have control := differ _ (List.mem_map_of_mem operands.head_mem)
      have target := differ _ (List.mem_map_of_mem
        (List.Vector.mem_of_mem_tail _ operands operands.tail.head_mem))
      exact ⟨Fin.ne_of_val_ne control, Fin.ne_of_val_ne target⟩
  | measure =>
      simp [operation, qubit_of_lt (show operands.head.toNat < n from within)] at reads
  | identity | hadamard | phase | paulix | pauliy | pauliz =>
      have here := differ _ (List.mem_map_of_mem operands.head_mem)
      have apart : q ≠ ⟨operands.head.toNat, within⟩ := Fin.ne_of_val_ne here.symm
      simp only [operation, qubit_of_lt (show operands.head.toNat < n from within)] at reads
      cases reads
      simp [Gate.Off, PauliString.singleX, PauliString.singleY, PauliString.signedZ, apart,
        apart.symm]

end Sabot.Language

namespace Sabot.State

open Stabilizer
open Sabot.Language (Instruction circuit)

variable {n : Nat}

/-- A gate instruction and an instruction that names none of its qubits. -/
theorem operation_avoids {gate other : Instruction} (withinG : gate.Within n)
    (within : other.Within n) {g : Gate (Fin n)} {op : Operation (Fin n)}
    (readsG : gate.operation n = some (.gate g)) (reads : other.operation n = some op)
    (disjoint : ∀ q ∈ gate.qubits, q ∉ other.qubits)
    : op.Avoids g := by
  cases kind : isMeasure other with
  | false =>
      obtain ⟨k, readsK⟩ := operation_gate within kind
      obtain rfl : .gate k = op := by
        rw [readsK] at reads
        exact Option.some.inj reads
      intro q
      by_cases named : (q : Nat) ∈ gate.qubits
      · exact Or.inr (Instruction.operation_off within readsK (disjoint q named))
      · exact Or.inl (Instruction.operation_off withinG readsG named)
  | true =>
      obtain ⟨bytecode, operands⟩ := other
      obtain rfl : bytecode = .measure := by simpa [isMeasure] using kind
      have inside : operands.head.toNat < n := within
      obtain rfl : .measure ⟨_, inside⟩ = op := by
        simpa [Instruction.operation, Language.qubit_of_lt inside] using reads
      refine Instruction.operation_off withinG readsG ?_
      exact fun named => disjoint _ named (List.mem_map_of_mem operands.head_mem)

/-- Both orders of the two instructions run to the same rows, outcomes and coins. -/
theorem runInstructions_comm {s : ChpState} (prepared : Prepared n s) (d : Discipline)
    {gate other : Instruction} (withinG : gate.Within n) (within : other.Within n)
    (unitary : isMeasure gate = false) (disjoint : ∀ q ∈ gate.qubits, q ∉ other.qubits)
    : ∃ drawn, ∀ buffer written world, ManagedContainer.Holds buffer written
        → ∃ (a b : Machine) (outcomes : List Bool),
          runInstructions d [gate, other] ⟨s, buffer, world⟩ = some (true, a)
          ∧ runInstructions d [other, gate] ⟨s, buffer, world⟩ = some (true, b)
          ∧ (∀ j < 2 * n, a.state.row j = b.state.row j)
          ∧ a.buffer.Holds (written ++ outcomes.map character)
          ∧ b.buffer.Holds (written ++ outcomes.map character)
          ∧ a.world.coins = world.coins.drop drawn ∧ b.world.coins = world.coins.drop drawn := by
  obtain ⟨sound, valid, _⟩ := prepared
  obtain ⟨g, readsG⟩ := operation_gate withinG unitary
  obtain ⟨op, reads⟩ : ∃ op, other.operation n = some op := by
    obtain ⟨op, _, _, reads, _⟩ := step_operates (m := ⟨s, .empty, ⟨.const true, .const none⟩⟩)
      ⟨sound, valid, ManagedContainer.empty_holds (by decide)⟩ d within
    exact ⟨op, reads⟩
  have avoids := operation_avoids withinG within readsG reads disjoint
  refine ⟨((s.tableau n).map g.conjugate).draws (List.finRange n) op, ?_⟩
  intro buffer written world holds
  have running : Running n ⟨s, buffer, world⟩ written := ⟨sound, valid, holds⟩
  have both (i : Instruction) (member : i ∈ [gate, other]) : i.Within n := by
    rcases List.mem_pair.mp member with rfl | rfl
    · exact withinG
    · exact within
  obtain ⟨first, a, ranA, runningA, _, runA⟩ := runInstructions_operates running d both
  have swapped (i : Instruction) (member : i ∈ [other, gate]) : i.Within n :=
    both i (List.mem_pair.mpr (List.mem_pair.mp member).symm)
  obtain ⟨second, b, ranB, runningB, _, runB⟩ := runInstructions_operates running d swapped
  have circuitA : circuit n [gate, other] = [.gate g, op] := by simp [circuit, readsG, reads]
  have circuitB : circuit n [other, gate] = [op, .gate g] := by simp [circuit, readsG, reads]
  have commute := Tableau.run_comm valid List.mem_finRange (List.nodup_finRange n) avoids world.coins
  have coins := Tableau.operate_coins (List.finRange n) ((s.tableau n).map g.conjugate)
    world.coins op
  simp only [circuitA] at runA
  simp only [circuitB, ← commute, runA, Prod.mk.injEq] at runB
  obtain ⟨rfl, tableauEq, coinsEq⟩ := runB
  have coinsA : a.world.coins
      = world.coins.drop (((s.tableau n).map g.conjugate).draws (List.finRange n) op) := by
    rw [← coins]
    exact (congrArg (fun result => result.2.2) runA).symm
  refine ⟨a, b, first, ranA, ranB, ?_, runningA.buffer, runningB.buffer, coinsA, ?_⟩
  · intro j below
    exact runningA.sound.row_eq runningB.sound tableauEq below
  · rw [← coinsEq]
    exact coinsA

-----------------------------------------------------------------------------------------
-- Programs of two clients
-----------------------------------------------------------------------------------------

/-- The third list runs the first two side by side, each in its own order. -/
inductive Interleaving {α : Type} : List α → List α → List α → Prop where
  | nil : Interleaving [] [] []
  | left {a : α} {first second merged : List α} (rest : Interleaving first second merged)
      : Interleaving (a :: first) second (a :: merged)
  | right {b : α} {first second merged : List α} (rest : Interleaving first second merged)
      : Interleaving first (b :: second) (b :: merged)

/-- Gate instructions on different qubits commute on every well-formed row. -/
theorem onRow_comm {R : Row} (formed : R.WellFormed n) {a b : Instruction} (withinA : a.Within n)
    (withinB : b.Within n) (gateA : isMeasure a = false) (gateB : isMeasure b = false)
    (disjoint : ∀ q ∈ a.qubits, q ∉ b.qubits)
    : onRow a (onRow b R) = onRow b (onRow a R) := by
  obtain ⟨g, readsA⟩ := operation_gate withinA gateA
  obtain ⟨k, readsB⟩ := operation_gate withinB gateB
  have avoids : g.Disjoint k := operation_avoids withinA withinB readsA readsB disjoint
  obtain ⟨formedA, pauliA⟩ := onRow_conjugates formed withinA readsA
  obtain ⟨formedB, pauliB⟩ := onRow_conjugates formed withinB readsB
  obtain ⟨formedAB, pauliAB⟩ := onRow_conjugates formedB withinA readsA
  obtain ⟨formedBA, pauliBA⟩ := onRow_conjugates formedA withinB readsB
  refine formedAB.ext formedBA ?_
  rw [pauliAB, pauliBA, pauliA, pauliB]
  exact Gate.conjugate_comm avoids _

section Clients

variable {first second : List Instruction} (withinF : ∀ a ∈ first, a.Within n)
  (gatesF : ∀ a ∈ first, isMeasure a = false) (withinS : ∀ b ∈ second, b.Within n)
  (gatesS : ∀ b ∈ second, isMeasure b = false)
  (disjoint : ∀ a ∈ first, ∀ b ∈ second, ∀ q ∈ a.qubits, q ∉ b.qubits)
include withinF gatesF withinS gatesS disjoint

omit withinS gatesS disjoint in
/-- A gate can be moved past a list of gates on other qubits. -/
theorem runRow_comm {R : Row} (formed : R.WellFormed n) {b : Instruction} (withinB : b.Within n)
    (gateB : isMeasure b = false) (apart : ∀ a ∈ first, ∀ q ∈ a.qubits, q ∉ b.qubits)
    : runRow first (onRow b R) = onRow b (runRow first R) := by
  induction first generalizing R with
  | nil => rfl
  | cons a rest ih =>
      have withinA := withinF a List.mem_cons_self
      have gateA := gatesF a List.mem_cons_self
      obtain ⟨g, reads⟩ := operation_gate withinA gateA
      calc runRow (a :: rest) (onRow b R) = runRow rest (onRow a (onRow b R)) := rfl
        _ = runRow rest (onRow b (onRow a R)) := by
            rw [onRow_comm formed withinA withinB gateA gateB (apart a List.mem_cons_self)]
        _ = onRow b (runRow (a :: rest) R) :=
            ih (fun i member => withinF i (List.mem_cons_of_mem _ member))
              (fun i member => gatesF i (List.mem_cons_of_mem _ member))
              (onRow_conjugates formed withinA reads).1
              (fun i member => apart i (List.mem_cons_of_mem _ member))

/-- Every interleaving does to a row what the first program and then the second do. -/
theorem Interleaving.runRow_eq {merged : List Instruction}
    (interleaving : Interleaving first second merged) {R : Row} (formed : R.WellFormed n)
    : runRow merged R = runRow second (runRow first R) := by
  induction interleaving generalizing R with
  | nil => rfl
  | @left a first second merged _ ih =>
      obtain ⟨g, reads⟩ := operation_gate (withinF a List.mem_cons_self)
        (gatesF a List.mem_cons_self)
      exact ih (fun i member => withinF i (List.mem_cons_of_mem _ member))
        (fun i member => gatesF i (List.mem_cons_of_mem _ member)) withinS gatesS
        (fun i member => disjoint i (List.mem_cons_of_mem _ member))
        (onRow_conjugates formed (withinF a List.mem_cons_self) reads).1
  | @right b first second merged _ ih =>
      have withinB := withinS b List.mem_cons_self
      have gateB := gatesS b List.mem_cons_self
      obtain ⟨g, reads⟩ := operation_gate withinB gateB
      calc runRow (b :: merged) R = runRow merged (onRow b R) := rfl
        _ = runRow second (runRow first (onRow b R)) :=
            ih withinF gatesF (fun i member => withinS i (List.mem_cons_of_mem _ member))
              (fun i member => gatesS i (List.mem_cons_of_mem _ member))
              (fun a member i later => disjoint a member i (List.mem_cons_of_mem _ later))
              (onRow_conjugates formed withinB reads).1
        _ = runRow (b :: second) (runRow first R) := by
            rw [runRow_comm withinF gatesF formed withinB gateB
              (fun a member => disjoint a member b List.mem_cons_self)]
            rfl

omit withinF gatesF withinS gatesS disjoint in
theorem Interleaving.mem {merged : List Instruction}
    (interleaving : Interleaving first second merged) {i : Instruction} (member : i ∈ merged)
    : i ∈ first ∨ i ∈ second := by
  induction interleaving with
  | nil => cases member
  | left _ ih =>
      rcases List.mem_cons.mp member with rfl | later
      · exact Or.inl List.mem_cons_self
      · exact (ih later).imp_left (List.mem_cons_of_mem _)
  | right _ ih =>
      rcases List.mem_cons.mp member with rfl | later
      · exact Or.inr List.mem_cons_self
      · exact (ih later).imp_right (List.mem_cons_of_mem _)

/-- An interleaving of two gate programs runs, and leaves the rows of running them in turn. -/
theorem runInstructions_interleaved {s : ChpState} (sound : Sound n s) (d : Discipline)
    {merged : List Instruction} (interleaving : Interleaving first second merged)
    (buffer : StringBuffer) (world : World)
    : ∃ t, runInstructions d merged ⟨s, buffer, world⟩ = some (true, ⟨t, buffer, world⟩)
        ∧ ∀ j < 2 * n, t.row j = runRow second (runRow first (s.row j)) := by
  have within (i : Instruction) (member : i ∈ merged) : i.Within n :=
    (interleaving.mem member).elim (withinF i) (withinS i)
  have gates (i : Instruction) (member : i ∈ merged) : isMeasure i = false :=
    (interleaving.mem member).elim (gatesF i) (gatesS i)
  obtain ⟨t, ran, _, rowsEq⟩ := runInstructions_rewrites (m := ⟨s, buffer, world⟩) sound.layout d
    (by simpa only [sound.qubits] using within) gates
  refine ⟨t, ran, ?_⟩
  intro j below
  rw [rowsEq j (by simpa only [sound.qubits] using below)]
  exact interleaving.runRow_eq withinF gatesF withinS gatesS disjoint (sound.rows j below)

end Clients

/-- In every reachable state, a gate and an instruction that names none of its qubits can be run in
either order: the rows, the outcome and the coins drawn are the same. Any two interleavings of gate
programs on different qubits leave the same rows.
-/
theorem disjoint_commute (small : n < 2 ^ 31) {s : ChpState} (reachable : Reachable n s)
    (d : Discipline)
    : (∀ gate other : Instruction, gate.Within n → other.Within n → isMeasure gate = false
        → (∀ q ∈ gate.qubits, q ∉ other.qubits)
        → ∃ drawn, ∀ buffer written world, ManagedContainer.Holds buffer written
          → ∃ (a b : Machine) (outcomes : List Bool),
            runInstructions d [gate, other] ⟨s, buffer, world⟩ = some (true, a)
            ∧ runInstructions d [other, gate] ⟨s, buffer, world⟩ = some (true, b)
            ∧ (∀ j < 2 * n, a.state.row j = b.state.row j)
            ∧ a.buffer.Holds (written ++ outcomes.map character)
            ∧ b.buffer.Holds (written ++ outcomes.map character)
            ∧ a.world.coins = world.coins.drop drawn ∧ b.world.coins = world.coins.drop drawn)
      ∧ ∀ first second : List Instruction,
        (∀ a ∈ first, a.Within n ∧ isMeasure a = false)
        → (∀ b ∈ second, b.Within n ∧ isMeasure b = false)
        → (∀ a ∈ first, ∀ b ∈ second, ∀ q ∈ a.qubits, q ∉ b.qubits)
        → ∀ one other, Interleaving first second one → Interleaving first second other
        → ∀ buffer world, ∃ t u,
          runInstructions d one ⟨s, buffer, world⟩ = some (true, ⟨t, buffer, world⟩)
          ∧ runInstructions d other ⟨s, buffer, world⟩ = some (true, ⟨u, buffer, world⟩)
          ∧ ∀ j < 2 * n, t.row j = u.row j := by
  have prepared := reachable.prepared small
  constructor
  · intro gate other withinG within unitary disjoint
    exact runInstructions_comm prepared d withinG within unitary disjoint
  · intro first second gatesF gatesS disjoint one other interleaved interleaved' buffer world
    have merged {list : List Instruction} (interleaving : Interleaving first second list) :=
      runInstructions_interleaved (fun a member => (gatesF a member).1)
        (fun a member => (gatesF a member).2) (fun b member => (gatesS b member).1)
        (fun b member => (gatesS b member).2) disjoint prepared.sound d interleaving buffer world
    obtain ⟨t, ranT, rowsT⟩ := merged interleaved
    obtain ⟨u, ranU, rowsU⟩ := merged interleaved'
    exact ⟨t, u, ranT, ranU, fun j below => (rowsT j below).trans (rowsU j below).symm⟩

/-- A Hadamard gate on the first of two fresh qubits and a measurement of the second. -/
theorem disjoint_commute_two
    : ∃ s, Reachable 2 s
      ∧ ∃ drawn, ∀ buffer written world, ManagedContainer.Holds buffer written
        → ∃ (a b : Machine) (outcomes : List Bool),
          runInstructions .allocated [⟨.hadamard, .cons 0 .nil⟩, ⟨.measure, .cons 1 .nil⟩]
            ⟨s, buffer, world⟩ = some (true, a)
          ∧ runInstructions .allocated [⟨.measure, .cons 1 .nil⟩, ⟨.hadamard, .cons 0 .nil⟩]
            ⟨s, buffer, world⟩ = some (true, b)
          ∧ (∀ j < 2 * 2, a.state.row j = b.state.row j)
          ∧ a.buffer.Holds (written ++ outcomes.map character)
          ∧ b.buffer.Holds (written ++ outcomes.map character)
          ∧ a.world.coins = world.coins.drop drawn ∧ b.world.coins = world.coins.drop drawn := by
  have small : 2 < 2 ^ 31 := by decide
  have granted : Granted (.const (some 0)) := fun _ _ => rfl
  obtain ⟨s, ran, _⟩ := initState_refines small .allocated (.stale 0) granted
  exact ⟨s, .initialised ran,
    (disjoint_commute small (.initialised ran) .allocated).1 _ _ (by decide) (by decide)
      (by decide) (by decide)⟩

end Sabot.State
