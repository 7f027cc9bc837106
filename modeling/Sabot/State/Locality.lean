import Sabot.Stabilizer.Locality
import Sabot.State.Commutation
import Sabot.State.Observation

/-! Clients that share a stored state and have qubits of their own. Whatever the order in which
their requests are served, what they read together has one distribution, and what one of them reads
has the distribution that it has without the others.
-/

namespace Sabot.State

open Stabilizer
open Coins (chance)
open Sabot.Language (Instruction Program circuit qubit_of_lt)

variable {n : Nat} {κ : Type*} [DecidableEq κ]

/-- A request of a client to measure the state with a program. -/
structure Turn (κ : Type*) where
  client : κ
  program : Program
  instructions : List Instruction
  stored : program.instructions.Holds instructions

/-- `measure_state` with one program after the other, each with a buffer of its own. -/
def measureEach : List Program → ChpState → World → Option (List StringBuffer × ChpState × World)
  | [], state, world => some ([], state, world)
  | p :: rest, state, world => do
      let (_, m) ← measureState state p .empty world
      let (buffers, last, left) ← measureEach rest m.state m.world
      return (m.buffer :: buffers, last, left)

/-- The results of one client, joined in the order of its requests. -/
def joined (client : κ) : List (Turn κ) → List (List Bool) → List Bool
  | turn :: turns, outcomes :: rest =>
      (if turn.client = client then outcomes else []) ++ joined client turns rest
  | _, _ => []

/-- The clients read the results in the buffers of their requests. -/
def Reads (turns : List (Turn κ)) (s : ChpState) (grants : Stream' (Option Int))
    (results : κ → List Bool) (coins : Stream' Bool) : Prop :=
  ∃ buffers last left outcomes,
    measureEach (turns.map Turn.program) s ⟨coins, grants⟩ = some (buffers, last, left)
    ∧ List.Forall₂ (fun buffer written => buffer.Holds (written.map character)) buffers outcomes
    ∧ results = fun client => joined client turns outcomes

/-- The operations of the requests. -/
def steps (n : Nat) (turns : List (Turn κ)) : List (κ × Operation (Fin n)) :=
  turns.flatMap fun turn => (circuit n turn.instructions).map fun op => (turn.client, op)

-----------------------------------------------------------------------------------------
-- Operations on different qubits
-----------------------------------------------------------------------------------------

/-- Instructions that name different qubits are operations on different qubits. -/
theorem operation_disjoint {a b : Instruction} (withinA : a.Within n) (withinB : b.Within n)
    {op other : Operation (Fin n)} (readsA : a.operation n = some op)
    (readsB : b.operation n = some other) (apart : ∀ q ∈ a.qubits, q ∉ b.qubits)
    : op.Disjoint other := by
  have measured {i : Instruction} (within : i.Within n) {q : Fin n}
      (reads : i.operation n = some (.measure q)) : (q : Nat) ∈ i.qubits := by
    have kind : isMeasure i = true := by
      by_contra gate
      obtain ⟨g, readsG⟩ := operation_gate within (by simpa using gate)
      rw [readsG] at reads
      cases reads
    obtain ⟨bytecode, operands⟩ := i
    obtain rfl : bytecode = .measure := by simpa [isMeasure] using kind
    have inside : operands.head.toNat < n := within
    rw [Instruction.operation, qubit_of_lt inside] at reads
    cases reads
    exact List.mem_map_of_mem operands.head_mem
  cases op with
  | gate g => exact operation_avoids withinA withinB readsA readsB apart
  | measure q =>
      have named := measured withinA readsA
      cases other with
      | gate k => exact Instruction.operation_off withinB readsB (apart q named)
      | measure p =>
          rintro rfl
          exact apart q named (measured withinB readsB)

/-- An operation of a circuit is read from one of its instructions. -/
theorem mem_circuit {instructions : List Instruction} {op : Operation (Fin n)}
    (member : op ∈ circuit n instructions)
    : ∃ i ∈ instructions, i.operation n = some op :=
  List.mem_filterMap.mp member

variable {turns others : List (Turn κ)}

omit [DecidableEq κ] in
theorem mem_steps {step : κ × Operation (Fin n)} (member : step ∈ steps n turns)
    : ∃ turn ∈ turns, turn.client = step.1 ∧ step.2 ∈ circuit n turn.instructions := by
  obtain ⟨turn, here, inside⟩ := List.mem_flatMap.mp member
  obtain ⟨op, inCircuit, rfl⟩ := List.mem_map.mp inside
  exact ⟨turn, here, rfl, inCircuit⟩

/-- The operations of a client are those of its requests. -/
theorem filter_steps (client : κ) (turns : List (Turn κ))
    : (steps n turns).filter (·.1 = client) = steps n (turns.filter (·.client = client)) := by
  induction turns with
  | nil => rfl
  | cons turn rest ih =>
      have split : steps n (turn :: rest)
          = (circuit n turn.instructions).map (fun op => (turn.client, op)) ++ steps n rest := rfl
      rw [split, List.filter_append, ih]
      by_cases own : turn.client = client
      · rw [List.filter_cons_of_pos (by simpa using own)]
        congr 1
        simp [List.filter_map, Function.comp_def, own]
      · rw [List.filter_cons_of_neg (by simpa using own)]
        simp [List.filter_map, Function.comp_def, own]

/-- The clients' instructions name different qubits. -/
def Apart (turns : List (Turn κ)) : Prop :=
  ∀ a ∈ turns, ∀ b ∈ turns, a.client ≠ b.client
    → ∀ i ∈ a.instructions, ∀ j ∈ b.instructions, ∀ q ∈ i.qubits, q ∉ j.qubits

/-- The instructions of the requests are on the qubits of the state. -/
def AllWithin (n : Nat) (turns : List (Turn κ)) : Prop :=
  ∀ turn ∈ turns, ∀ instruction ∈ turn.instructions, instruction.Within n

omit [DecidableEq κ] in
theorem Apart.disjoint (apart : Apart turns) (within : AllWithin n turns)
    : ∀ s ∈ steps n turns, ∀ t ∈ steps n turns, s.1 ≠ t.1 → s.2.Disjoint t.2 := by
  intro s memberS t memberT differ
  obtain ⟨a, hereA, clientA, inA⟩ := mem_steps memberS
  obtain ⟨b, hereB, clientB, inB⟩ := mem_steps memberT
  obtain ⟨i, memberI, readsI⟩ := mem_circuit inA
  obtain ⟨j, memberJ, readsJ⟩ := mem_circuit inB
  rw [← clientA, ← clientB] at differ
  exact operation_disjoint (within a hereA i memberI) (within b hereB j memberJ) readsI readsJ
    (apart a hereA b hereB differ i memberI j memberJ)

-----------------------------------------------------------------------------------------
-- Requests in turn
-----------------------------------------------------------------------------------------

/-- The requests are served, and the clients read what the abstract machine tells them. By induction
on the requests: each of them finds the state and the coins that the one before has left.
-/
theorem Prepared.measureEach {s : ChpState} (prepared : Prepared n s) (within : AllWithin n turns)
    (world : World)
    : ∃ buffers last left outcomes,
        State.measureEach (turns.map Turn.program) s world = some (buffers, last, left)
        ∧ List.Forall₂ (fun buffer written => buffer.Holds (written.map character)) buffers
            outcomes
        ∧ (fun client => joined client turns outcomes)
          = Tableau.tells (List.finRange n) (steps n turns) (s.tableau n) world.coins := by
  induction turns generalizing s world with
  | nil => exact ⟨[], s, world, [], rfl, .nil, rfl⟩
  | cons turn rest ih =>
      obtain ⟨written, m, ran, running, _, runs⟩ :=
        runInstructions_operates (m := ⟨s, .empty, world⟩)
          ⟨prepared.sound, prepared.valid, ManagedContainer.empty_holds (by decide)⟩ .allocated
          (within turn List.mem_cons_self)
      have measured : State.measureState s turn.program .empty world = some (true, m) :=
        (runProgram_eq .allocated turn.stored _).trans ran
      obtain ⟨buffers, last, left, outcomes, ranRest, holds, tells⟩ :=
        ih ⟨running.sound, running.valid, running.valid.exists_stabilizes⟩
          (fun turn member => within turn (List.mem_cons_of_mem _ member)) m.world
      refine ⟨m.buffer :: buffers, last, left, written :: outcomes, ?_,
        .cons running.buffer holds, ?_⟩
      · simp [State.measureEach, measured, ranRest]
      · have counted : written.length
            = (circuit n turn.instructions).countP Operation.isMeasure := by
          have length : (Tableau.run (List.finRange n) (circuit n turn.instructions)
              (s.tableau n) world.coins).1.length = _ := Tableau.length_run _ _ _
          rwa [runs] at length
        have unlabelled : ((circuit n turn.instructions).map fun op => (turn.client, op)).map Prod.snd
            = circuit n turn.instructions := by simp
        have split : steps n (turn :: rest)
            = (circuit n turn.instructions).map (fun op => (turn.client, op)) ++ steps n rest := rfl
        rw [Tableau.tells, split, List.map_append, Tableau.run_append, unlabelled, runs,
          Tableau.told_append (by rw [unlabelled]; exact counted), Tableau.told_own counted]
        exact funext fun client => congrArg (_ ++ ·) (congrFun tells client)

/-- Buffers hold one list of results each. -/
theorem results_unique {buffers : List StringBuffer} {outcomes others : List (List Bool)}
    (first : List.Forall₂ (fun buffer written => buffer.Holds (written.map character)) buffers
      outcomes)
    (second : List.Forall₂ (fun buffer written => buffer.Holds (written.map character)) buffers
      others)
    : outcomes = others := by
  induction first generalizing others with
  | nil =>
      cases second
      rfl
  | cons holds _ ih =>
      cases second with
      | cons holds' rest =>
          rw [ih rest,
            List.map_injective_iff.mpr character_injective (holds_unique holds holds')]

/-- The clients read what they are told. -/
theorem Prepared.reads_iff {s : ChpState} (prepared : Prepared n s) (within : AllWithin n turns)
    (grants : Stream' (Option Int)) (event : (κ → List Bool) → Prop) (coins : Stream' Bool)
    : (∃ results, event results ∧ Reads turns s grants results coins)
      ↔ event (Tableau.tells (List.finRange n) (steps n turns) (s.tableau n) coins) := by
  obtain ⟨buffers, last, left, outcomes, ran, holds, tells⟩ :=
    prepared.measureEach within ⟨coins, grants⟩
  constructor
  · rintro ⟨results, happens, buffers', last', left', outcomes', ran', holds', rfl⟩
    rw [ran] at ran'
    cases ran'
    rw [← tells, results_unique holds holds']
    exact happens
  · intro happens
    rw [← tells] at happens
    exact ⟨_, happens, buffers, last, left, outcomes, ran, holds, rfl⟩

omit [DecidableEq κ] in
/-- The operations measure as often as the instructions. -/
theorem countP_steps (within : AllWithin n turns)
    : ((steps n turns).map Prod.snd).countP Operation.isMeasure
      = (turns.flatMap Turn.instructions).countP isMeasure := by
  induction turns with
  | nil => rfl
  | cons turn rest ih =>
      have own := countP_circuit (within turn List.mem_cons_self)
      have later := ih (fun turn member => within turn (List.mem_cons_of_mem _ member))
      simp only [steps] at later
      simp [steps, List.countP_append, later, ← own, Function.comp_def]

/-- Clients share a stored state and name different qubits in the requests that measure it. With
fair coins, what they read together has the same distribution in every order of their requests, and
what one of them reads is distributed as if the others had sent nothing.
-/
theorem clients_independent (small : n < 2 ^ 31) {s : ChpState}
    (reachable : Reachable n s ∨ CallReachable n s) (within : AllWithin n turns)
    (apart : Apart turns) (grants : Stream' (Option Int)) {D : Nat}
    (enough : (turns.flatMap Turn.instructions).countP isMeasure ≤ D)
    : (∀ others : List (Turn κ),
        (∀ client, turns.filter (·.client = client) = others.filter (·.client = client))
        → ∀ event : (κ → List Bool) → Prop,
          chance D (fun coins => ∃ results, event results ∧ Reads turns s grants results coins)
            = chance D (fun coins =>
                ∃ results, event results ∧ Reads others s grants results coins))
      ∧ ∀ (client : κ) (event : List Bool → Prop),
          chance D (fun coins =>
              ∃ results, event (results client) ∧ Reads turns s grants results coins)
            = chance D (fun coins => ∃ results, event (results client)
                ∧ Reads (turns.filter (·.client = client)) s grants results coins) := by
  have prepared := prepared_of_reachable small reachable
  obtain ⟨ψ, stabilizes⟩ := prepared.stabilized
  have disjoint := apart.disjoint within
  rw [← countP_steps within] at enough
  constructor
  · intro others same event
    have sameSteps : SameSteps (steps n turns) (steps n others) := by
      intro client
      rw [filter_steps, filter_steps, same]
    have withinO : AllWithin n others := by
      intro turn member
      have kept : turn ∈ others.filter (·.client = turn.client) :=
        List.mem_filter.mpr ⟨member, by simp⟩
      rw [← same] at kept
      exact within turn (List.mem_of_mem_filter kept)
    simp only [prepared.reads_iff within, prepared.reads_iff withinO]
    exact Tableau.chance_tells_eq List.mem_finRange (List.nodup_finRange n) prepared.valid
      stabilizes sameSteps disjoint enough event
  · intro client event
    have own : AllWithin n (turns.filter (·.client = client)) :=
      fun turn member => within turn (List.mem_of_mem_filter member)
    have reads (turns : List (Turn κ)) (within : AllWithin n turns) (coins : Stream' Bool) :=
      prepared.reads_iff within grants (fun results => event (results client)) coins
    simp only [reads _ within, reads _ own, ← filter_steps]
    exact Tableau.chance_tells_own List.mem_finRange (List.nodup_finRange n) prepared.valid
      stabilizes disjoint enough client event

/-- A client measures the first half of a Bell pair before and after another one applies a Hadamard
gate to the second half and measures it.
-/
theorem clients_independent_two
    : ∃ (s : ChpState) (turns others : List (Turn Bool)), Reachable 2 s
        ∧ turns.map Turn.client = [true, false, true]
        ∧ others.map Turn.client = [true, true, false]
        ∧ (∀ event : (Bool → List Bool) → Prop,
          chance 3 (fun coins =>
              ∃ results, event results ∧ Reads turns s (.const (some 0)) results coins)
            = chance 3 (fun coins =>
                ∃ results, event results ∧ Reads others s (.const (some 0)) results coins))
        ∧ ∀ event : List Bool → Prop,
          chance 3 (fun coins =>
              ∃ results, event (results true) ∧ Reads turns s (.const (some 0)) results coins)
            = chance 3 (fun coins => ∃ results, event (results true)
                ∧ Reads (turns.filter (·.client = true)) s (.const (some 0)) results coins) := by
  have small : 2 < 2 ^ 31 := by decide
  have granted : Granted (.const (some 0)) := fun _ _ => rfl
  obtain ⟨fresh, initialised, _⟩ := initState_refines small .allocated (.stale 0) granted
  obtain ⟨pair, _, storedPair⟩ := Program.ofArray_holds
    [⟨.hadamard, .cons 0 .nil⟩, ⟨.cnot, .cons 0 (.cons 1 .nil)⟩]
  obtain ⟨_, m, ran, _⟩ := (Reachable.initialised initialised).prepared small |>.measureState
    storedPair (by decide) ⟨.const false, .const (some 0)⟩
  have reachable : Reachable 2 m.state :=
    .measured (.initialised initialised) storedPair (by decide) ran
  obtain ⟨first, _, storedFirst⟩ := Program.ofArray_holds [⟨.measure, .cons 0 .nil⟩]
  obtain ⟨second, _, storedSecond⟩ := Program.ofArray_holds
    [⟨.hadamard, .cons 1 .nil⟩, ⟨.measure, .cons 1 .nil⟩]
  let one : Turn Bool := ⟨true, first, _, storedFirst⟩
  let other : Turn Bool := ⟨false, second, _, storedSecond⟩
  have within : AllWithin 2 [one, other, one] := by
    simp only [AllWithin, List.forall_mem_cons, one, other]
    decide
  have apart : Apart [one, other, one] := by
    have zero : Instruction.qubits ⟨.measure, .cons 0 .nil⟩ = [0] := rfl
    have turned : Instruction.qubits ⟨.hadamard, .cons 1 .nil⟩ = [1] := rfl
    have read : Instruction.qubits ⟨.measure, .cons 1 .nil⟩ = [1] := rfl
    simp [Apart, one, other, zero, turned, read]
  have independent := clients_independent small (Or.inl reachable) within apart (.const (some 0))
    (D := 3) (le_of_eq rfl)
  refine ⟨m.state, [one, other, one], [one, one, other], reachable, rfl, rfl, ?_,
    independent.2 true⟩
  refine independent.1 [one, one, other] (fun client => ?_)
  cases client <;> rfl

end Sabot.State
