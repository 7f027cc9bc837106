import Sabot.Service.Teleportation

/-! Dense coding through the server. One client encodes two bits in its half of a Bell pair, and
another one reads both of them from the pair.
-/

namespace Sabot

open Stabilizer (Evolution StateVector)
open Sabot.Language (Instruction circuit)

section Circuits

variable {n : Nat}

/-- The instruction that encodes two bits in the qubit `a`. -/
def encoded (a : Fin n) : Bool → Bool → Instruction
  | false, false => ⟨.identity, .cons (.ofNat a) .nil⟩
  | false, true => ⟨.paulix, .cons (.ofNat a) .nil⟩
  | true, false => ⟨.pauliz, .cons (.ofNat a) .nil⟩
  | true, true => ⟨.pauliy, .cons (.ofNat a) .nil⟩

theorem circuit_encoded (small : n < 2 ^ 31) (a : Fin n) (first second : Bool)
    : circuit n [encoded a first second] = [.gate (Stabilizer.encoding a first second)] := by
  have reads : Instruction.operation n (encoded a first second)
      = some (.gate (Stabilizer.encoding a first second)) := by
    cases first <;> cases second <;>
      simp [encoded, Stabilizer.encoding, Instruction.operation, State.qubit_ofNat small]
  rw [circuit, List.filterMap_cons_some reads, List.filterMap_nil]

end Circuits

namespace Net

open Sabot.State (character)
open Sabot.Universe (Serves)

variable {libraries : Libraries} {u : Universe} {s : Service} {systemId stateId : Nat} {r : Register}

/-- Dense coding. Two bits that a client encodes in one half of a Bell pair are what another client
reads from the pair, whatever the coins are, and whatever is asked for before and in between that
spares the state.
-/
theorem server_decodes (serves : Serves u s) (held : s.register systemId stateId = some r)
    (small : r.qubits < 2 ^ 31) {a b : Fin r.qubits} (ab : a ≠ b)
    (pair : StateVector.BellPair a b r.vector) (first second : Bool) {before after : List Command}
    (spares : ∀ command ∈ before ++ after, command.Spares systemId stateId)
    {messages : List (List UInt8)}
    (sends : List.Forall₂ (Sends libraries) messages
      (before ++ .modifyState systemId stateId [encoded a first second]
        :: (after ++ [.measureState systemId stateId (measureCircuit a b)])))
    (admits : s.Admits u.world.coins
      (before ++ .modifyState systemId stateId [encoded a first second]
        :: (after ++ [.measureState systemId stateId (measureCircuit a b)])))
    : ∃ responses buffer u',
        workAll libraries messages u = (.ok (responses ++ [⟨.buffer buffer, false⟩]), u')
        ∧ buffer.Holds [character first, character second] := by
  obtain ⟨responses, u', replies, t, ran, responds, session, _⟩ :=
    workAll_refines serves sends admits
  obtain ⟨early, v, middle, late, rfl, sessionB, session⟩ := session.split
  have kept := sessionB.keeps_register
    (fun command member => spares command (List.mem_append_left _ member)) held
  cases session with
  | step modifies session =>
      obtain ⟨_, r', runs, changed⟩ := modifies.modifies kept
      obtain ⟨between, outcomes, _, _, rfl, measured, _⟩ := session.measures
        (fun command member => spares command (List.mem_append_right _ member)) changed
      cases runs with
      | evolves evolution =>
          rw [circuit_encoded small] at evolution
          cases evolution with
          | gate evolution =>
              cases evolution
              cases measured with
              | evolves evolution =>
                  rw [circuit_measureCircuit small ab] at evolution
                  obtain ⟨rfl, _⟩ := Evolution.decodes ab pair evolution
                  rw [← List.cons_append, ← List.append_assoc] at responds
                  obtain ⟨earlier, buffer, rfl, holds⟩ := responds_last responds
                  exact ⟨earlier, buffer, u', ran, holds⟩

theorem runs_pairCircuit {coins left : Stream' Bool} {outcomes : List Bool}
    (runs : (Register.fresh 2).Runs pairCircuit coins outcomes r left)
    : ∃ ψ nonzero, r = ⟨2, ψ, nonzero⟩ ∧ StateVector.BellPair (0 : Fin 2) 1 ψ := by
  have reads : circuit 2 pairCircuit = [.gate (.hadamard 0), .gate (.cnot 0 1 (by decide))] := rfl
  cases runs with
  | evolves evolution =>
      have run := evolution
      change Evolution (circuit 2 pairCircuit) StateVector.zeroState _ _ _ _ at run
      rw [reads] at run
      cases run with
      | gate run =>
          cases run with
          | gate run =>
              cases run
              refine ⟨_, _, rfl, StateVector.bellPair_prepared (by decide) (fun v other => ?_)⟩
              exact StateVector.zeroState_apply other

/-- The bits `1` and `1`, with a message that has lost its terminator in between. -/
theorem server_decodes_two
    : ∃ responses earlier buffer u₁ u₂,
        workAll clientLibraries
          [createSystemMessage, circuitMessage "create_state" "0"
            (Language.assembly 59 (Instruction.init 2 :: pairCircuit) true)]
          (Universe.new Universe.oneSystem.world Universe.oneSystem.draws) = (.ok responses, u₁)
        ∧ workAll clientLibraries
            [circuitMessage "modify_state" "0,0"
                (Language.assembly 59 [encoded (0 : Fin 2) true true] false),
              createSystemMessage.dropLast,
              circuitMessage "measure_state" "0,0"
                (Language.assembly 59 (measureCircuit (0 : Fin 2) 1) true)] u₁
          = (.ok (earlier ++ [⟨.buffer buffer, false⟩]), u₂)
        ∧ buffer.Holds [character true, character true] := by
  have inside : ∀ instruction ∈ pairCircuit, instruction.Within 2 := by decide
  obtain ⟨responses, u₁, s, r, outcomes, left, ran, serves, held, runs⟩ :=
    workAll_create (by decide) inside true
  obtain ⟨ψ, nonzero, rfl, pair⟩ := runs_pairCircuit runs
  have ab : (0 : Fin 2) ≠ 1 := by decide
  have spares : ∀ command ∈ [] ++ [Command.malformed], command.Spares 0 0 := by
    simp [Command.Spares]
  have modifies : ∀ instruction ∈ [encoded (0 : Fin 2) true true], instruction.Within 2 := by decide
  have measures : ∀ instruction ∈ measureCircuit (0 : Fin 2) 1, instruction.Within 2 := by decide
  have admits : s.Admits u₁.world.coins
      ([] ++ .modifyState 0 0 [encoded (0 : Fin 2) true true]
        :: ([Command.malformed] ++ [.measureState 0 0 (measureCircuit (0 : Fin 2) 1)])) := by
    refine ⟨Service.allows_modify held modifies, fun reply t left step => ?_⟩
    refine ⟨trivial, fun reply v last idle => ?_⟩
    cases idle
    obtain ⟨_, r', changed, kept⟩ := step.modifies held
    cases changed
    exact ⟨Service.allows_measure kept measures, fun _ _ _ _ => trivial⟩
  obtain ⟨earlier, buffer, u₂, ran', holds⟩ :=
    server_decodes serves held (by decide : 2 < 2 ^ 31) ab pair true true spares
      (.cons (sends_modify (by simp)) (.cons sends_unterminated
        (.cons (sends_measure (fun _ => by simp [measureCircuit])) .nil))) admits
  exact ⟨responses, earlier, buffer, u₁, u₂, ran, ran', holds⟩

end Net

end Sabot
