import Sabot.Service.Clients
import Sabot.State.Observation
import Sabot.Stabilizer.Teleportation

/-! Teleportation through the server. A client whose state has a Bell pair moves the state of
another qubit to one half of it by two requests, whatever other clients ask for in between.
-/

namespace Sabot

open Stabilizer (Evolution PauliString StateVector)
open Sabot.Language (Instruction circuit qubit)

-----------------------------------------------------------------------------------------
-- Circuits
-----------------------------------------------------------------------------------------

section Circuits

variable {n : Nat}

/-- The measurement of the qubits `a` and `b`, which are not in the Bell basis yet. -/
def measureCircuit (a b : Fin n) : List Instruction :=
  [⟨.cnot, .cons (.ofNat a) (.cons (.ofNat b) .nil)⟩, ⟨.hadamard, .cons (.ofNat a) .nil⟩,
    ⟨.measure, .cons (.ofNat a) .nil⟩, ⟨.measure, .cons (.ofNat b) .nil⟩]

/-- The correction step: a controlled `x` and a controlled `z`. -/
def correctionStep (c : Fin n) (first second : Bool) : List Instruction :=
  (if second then [⟨.paulix, .cons (.ofNat c) .nil⟩] else [])
    ++ if first then [⟨.pauliz, .cons (.ofNat c) .nil⟩] else []

theorem circuit_measureCircuit (small : n < 2 ^ 31) {a b : Fin n} (ab : a ≠ b)
    : circuit n (measureCircuit a b) = Stabilizer.bellMeasurement a b ab := by
  have atA := State.qubit_ofNat small a
  have atB := State.qubit_ofNat small b
  have cnot : Instruction.operation n ⟨.cnot, .cons (.ofNat a) (.cons (.ofNat b) .nil)⟩
      = some (.gate (.cnot a b ab)) := by
    change (qubit n (.ofNat a)).bind (fun control => (qubit n (.ofNat b)).bind fun target =>
      if distinct : control ≠ target then some (Stabilizer.Operation.gate
        (.cnot control target distinct)) else none) = _
    simp [atA, atB, ab]
  have hadamard : Instruction.operation n ⟨.hadamard, .cons (.ofNat a) .nil⟩
      = some (.gate (.hadamard a)) := by
    simp [Instruction.operation, atA]
  have measure (q : Fin n) : Instruction.operation n ⟨.measure, .cons (.ofNat q) .nil⟩
      = some (.measure q) := by
    simp [Instruction.operation, State.qubit_ofNat small q]
  simp only [circuit, measureCircuit, List.filterMap_cons_some cnot,
    List.filterMap_cons_some hadamard, List.filterMap_cons_some (measure _), List.filterMap_nil]
  rfl

theorem circuit_correctionStep (small : n < 2 ^ 31) (c : Fin n) (first second : Bool)
    (rest : List Instruction)
    : circuit n (correctionStep c first second ++ rest)
      = Stabilizer.corrections c first second ++ circuit n rest := by
  have atC := State.qubit_ofNat small c
  have paulix : Instruction.operation n ⟨.paulix, .cons (.ofNat c) .nil⟩
      = some (.gate (.pauli (PauliString.singleX c))) := by
    simp [Instruction.operation, atC]
  have pauliz : Instruction.operation n ⟨.pauliz, .cons (.ofNat c) .nil⟩
      = some (.gate (.pauli (PauliString.signedZ c false))) := by
    simp [Instruction.operation, atC]
  rw [circuit, circuit, List.filterMap_append]
  congr 1
  cases first <;> cases second <;>
    simp [correctionStep, Stabilizer.corrections, List.filterMap_cons_some paulix,
      List.filterMap_cons_some pauliz]

end Circuits

-----------------------------------------------------------------------------------------
-- Messages
-----------------------------------------------------------------------------------------

namespace Net

open Sabot.Actions (bytes)
open Sabot.State (character)
open Sabot.Universe (Serves)

variable {libraries : Libraries} {u : Universe} {s : Service} {systemId stateId : Nat} {r : Register}

/-- Teleportation. In a state with a Bell pair, a client measures another qubit together with one
half of the pair, and sends the corrections that the response calls for with its next circuit. This
circuit runs as on the state with that qubit moved to the other half of the pair, whatever the
coins are, and whatever is asked for in between that spares the state.
-/
theorem server_teleports (serves : Serves u s) (held : s.register systemId stateId = some r)
    (small : r.qubits < 2 ^ 31) {a b c : Fin r.qubits} (ab : a ≠ b) (ac : a ≠ c) (bc : b ≠ c)
    (pair : StateVector.BellPair b c r.vector) {commands : List Command}
    (spares : ∀ command ∈ commands, command.Spares systemId stateId)
    {messages : List (List UInt8)}
    (sends : List.Forall₂ (Sends libraries) messages
      (commands ++ [.measureState systemId stateId (measureCircuit a b)]))
    (admits : s.Admits u.world.coins
      (commands ++ [.measureState systemId stateId (measureCircuit a b)]))
    : ∃ responses buffer first second u' t,
        workAll libraries messages u = (.ok (responses ++ [⟨.buffer buffer, false⟩]), u')
        ∧ buffer.Holds [character first, character second] ∧ Serves u' t
        ∧ (∃ r', t.register systemId stateId = some r' ∧ r'.qubits = r.qubits)
        ∧ ∀ commands messages instructions,
          (∀ command ∈ commands, command.Spares systemId stateId)
          → List.Forall₂ (Sends libraries) messages (commands
              ++ [.measureState systemId stateId (correctionStep c first second ++ instructions)])
          → t.Admits u'.world.coins (commands
              ++ [.measureState systemId stateId (correctionStep c first second ++ instructions)])
          → ∃ responses buffer outcomes u'' middle ψ,
              workAll libraries messages u' = (.ok (responses ++ [⟨.buffer buffer, false⟩]), u'')
              ∧ buffer.Holds (outcomes.map character)
              ∧ Evolution (circuit r.qubits instructions)
                  (StateVector.moved a b c first second r.vector) middle outcomes ψ
                  u''.world.coins := by
  obtain ⟨responses, buffer, outcomes, u', t, r', middle, ran, holds, runs, servesT, kept⟩ :=
    workAll_measures serves held spares sends admits
  cases runs with
  | evolves evolution =>
      rw [circuit_measureCircuit small ab] at evolution
      obtain ⟨first, second, rfl, moves⟩ := evolution.teleports ab ac bc pair
      refine ⟨responses, buffer, first, second, u', t, ran, holds, servesT,
        ⟨_, kept, rfl⟩, ?_⟩
      intro commands messages instructions spares sends admits
      obtain ⟨responses, buffer, outcomes, u'', t', r'', middle, ran, holds, runs, _, _⟩ :=
        workAll_measures servesT kept spares sends admits
      cases runs with
      | evolves evolution =>
          rw [circuit_correctionStep small] at evolution
          obtain ⟨ψ, continues⟩ := moves evolution
          exact ⟨responses, buffer, outcomes, u'', middle, ψ, ran, holds, continues⟩

-----------------------------------------------------------------------------------------
-- A client
-----------------------------------------------------------------------------------------

/-- The circuit that prepares a Bell pair and a bit. -/
def createCircuit : List Instruction :=
  [⟨.hadamard, .cons 1 .nil⟩, ⟨.cnot, .cons 1 (.cons 2 .nil)⟩, ⟨.paulix, .cons 0 .nil⟩]

def finalCircuit (first second : Bool) : List Instruction :=
  correctionStep (2 : Fin 3) first second ++ [⟨.measure, .cons 2 .nil⟩]

/-- The created state has a Bell pair and the bit `1`. -/
theorem runs_createCircuit {coins left : Stream' Bool} {outcomes : List Bool}
    (runs : (Register.fresh 3).Runs createCircuit coins outcomes r left)
    : ∃ ψ nonzero, r = ⟨3, ψ, nonzero⟩ ∧ StateVector.BellPair (1 : Fin 3) 2 ψ
        ∧ (PauliString.signedZ (0 : Fin 3) true).Fixes ψ := by
  have reads : circuit 3 createCircuit = [.gate (.hadamard 1), .gate (.cnot 1 2 (by decide)),
      .gate (.pauli (PauliString.singleX 0))] := rfl
  have flips : (Stabilizer.Gate.pauli (PauliString.singleX 0)).conjugate
      ((Stabilizer.Gate.cnot 1 2 (by decide)).conjugate ((Stabilizer.Gate.hadamard 1).conjugate
        (PauliString.signedZ (0 : Fin 3) false))) = PauliString.signedZ 0 true :=
    PauliString.ext (by decide) (by decide) (by decide)
  have pair : StateVector.BellPair (1 : Fin 3) 2 ((StateVector.zeroState.hadamard 1).cnot 1 2) :=
    StateVector.bellPair_prepared (by decide) (fun v other => StateVector.zeroState_apply other)
  cases runs with
  | evolves evolution =>
      have run := evolution
      change Evolution (circuit 3 createCircuit) StateVector.zeroState _ _ _ _ at run
      rw [reads] at run
      cases run with
      | gate run =>
          cases run with
          | gate run =>
              cases run with
              | gate run =>
                  cases run
                  refine ⟨_, _, rfl, pair.singleX (by decide) (by decide), ?_⟩
                  rw [← flips, PauliString.Fixes, Stabilizer.Gate.act_conjugate,
                    Stabilizer.Gate.act_conjugate, Stabilizer.Gate.act_conjugate,
                    StateVector.zeroState_fixed 0]

/-- A client, with a message of another one that has lost its terminator in between. It has
prepared the bit `1`, and reads it from the third qubit.
-/
theorem server_teleports_three
    : ∃ responses earlier last buffer first second u₁ u₂ u₃,
        workAll clientLibraries
          [createSystemMessage, circuitMessage "create_state" "0"
            (Language.assembly 59 (Instruction.init 3 :: createCircuit) true)]
          (Universe.new Universe.oneSystem.world Universe.oneSystem.draws) = (.ok responses, u₁)
        ∧ workAll clientLibraries
            [createSystemMessage.dropLast, circuitMessage "measure_state" "0,0"
              (Language.assembly 59 (measureCircuit (0 : Fin 3) 1) true)] u₁
          = (.ok earlier, u₂)
        ∧ workAll clientLibraries
            [circuitMessage "measure_state" "0,0"
              (Language.assembly 59 (finalCircuit first second) false)] u₂
          = (.ok (last ++ [⟨.buffer buffer, false⟩]), u₃)
        ∧ buffer.Holds [character true] := by
  have inside : ∀ instruction ∈ createCircuit, instruction.Within 3 := by decide
  obtain ⟨responses, u₁, s, r, outcomes, left, ran, serves₁, held, runs⟩ :=
    workAll_create (by decide) inside true
  obtain ⟨ψ, nonzero, rfl, pair, bit⟩ := runs_createCircuit runs
  have within : ∀ instruction ∈ measureCircuit (0 : Fin 3) 1, instruction.Within 3 := by decide
  have admits₁ : s.Admits u₁.world.coins
      [.malformed, .measureState 0 0 (measureCircuit (0 : Fin 3) 1)] := by
    refine ⟨trivial, fun reply t left step => ?_⟩
    cases step
    exact ⟨Service.allows_measure held within, fun _ _ _ _ => trivial⟩
  have spares : ∀ command ∈ [Command.malformed], command.Spares 0 0 := by simp [Command.Spares]
  have ab : (0 : Fin 3) ≠ 1 := by decide
  have ac : (0 : Fin 3) ≠ 2 := by decide
  have bc : (1 : Fin 3) ≠ 2 := by decide
  obtain ⟨earlier, _, first, second, u₂, t, ran₁, _, _, ⟨r', held', same⟩, moves⟩ :=
    server_teleports serves₁ held (by decide : 3 < 2 ^ 31) ab ac bc pair spares
      (.cons sends_unterminated (.cons (sends_measure (fun _ => by simp [measureCircuit])) .nil))
      admits₁
  have withinFinal : ∀ first second, ∀ instruction ∈ finalCircuit first second,
      instruction.Within 3 := by decide
  have admits₂ : t.Admits u₂.world.coins [.measureState 0 0 (finalCircuit first second)] := by
    refine ⟨Service.allows_measure held' ?_, fun _ _ _ _ => trivial⟩
    rw [same]
    exact withinFinal first second
  obtain ⟨last, buffer, outcomes, u₃, middle, φ, ran₂, holds, evolution⟩ :=
    moves [] _ [⟨.measure, .cons 2 .nil⟩] (by simp)
      (.cons (sends_measure (by simp)) .nil) admits₂
  have reads : circuit 3 [⟨.measure, .cons 2 .nil⟩] = [.measure 2] := rfl
  have final := evolution
  change Evolution (circuit 3 [⟨.measure, .cons 2 .nil⟩]) _ _ _ _ _ at final
  rw [reads] at final
  obtain ⟨_, rfl, done⟩ := final.reports (StateVector.moved_fixed ab ac bit first second)
  cases done
  exact ⟨responses, _, last, buffer, first, second, u₁, u₂, u₃, ran, ran₁, ran₂, holds⟩

end Net

end Sabot
