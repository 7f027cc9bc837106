import Sabot.Registry
import Sabot.State.Simulation

/-! What the server is for: clients keep registers of qubits in systems of their own, apply
circuits to them, and read the outcomes of measurements. This service has state vectors in place of
tableaux, and knows nothing of texts, locks or memory.
-/

namespace Stabilizer

variable {ι : Type*} [Fintype ι] [DecidableEq ι]

/-- No run of a circuit ends in the zero vector. -/
theorem Evolution.ne_zero {circuit : List (Operation ι)} {ψ φ : StateVector ι}
    {coins left : Stream' Bool} {outcomes : List Bool}
    (run : Evolution circuit ψ coins outcomes φ left) (nonzero : ψ ≠ 0)
    : φ ≠ 0 := by
  induction run with
  | done => exact nonzero
  | @gate g _ _ _ _ _ _ _ ih => exact ih (g.unitary_ne_zero nonzero)
  | @random q _ _ coins _ _ _ likelyFalse likelyTrue _ ih =>
      refine ih (StateVector.project_ne_zero ?_)
      cases coins.head with
      | false => simp [likelyFalse]
      | true => simp [likelyTrue]
  | determined certain _ ih =>
      refine ih (StateVector.project_ne_zero ?_)
      rw [certain]
      exact one_ne_zero

end Stabilizer

namespace Sabot

open Stabilizer (Evolution StateVector)
open Sabot.Language (Instruction circuit)

-----------------------------------------------------------------------------------------
-- Registers
-----------------------------------------------------------------------------------------

/-- A register of qubits and the vector that it is in. -/
structure Register where
  qubits : Nat
  vector : StateVector (Fin qubits)
  nonzero : vector ≠ 0

namespace Register

/-- Qubits in the state `|0...0>`. -/
noncomputable def fresh (n : Nat) : Register :=
  ⟨n, StateVector.zeroState, StateVector.zeroState_ne_zero⟩

/-- Running instructions on a register gives the outcomes, the register afterwards, and the coins
that are left.
-/
inductive Runs (r : Register) (instructions : List Instruction) (coins : Stream' Bool)
    : List Bool → Register → Stream' Bool → Prop where
  | evolves {outcomes ψ left}
      (evolution : Evolution (circuit r.qubits instructions) r.vector coins outcomes ψ left)
      : Runs r instructions coins outcomes ⟨r.qubits, ψ, evolution.ne_zero r.nonzero⟩ left

end Register

-----------------------------------------------------------------------------------------
-- Commands
-----------------------------------------------------------------------------------------

/-- What clients can ask for, and what else reaches the server. -/
inductive Command where
  | createSystem
  | deleteSystem (systemId : Nat)
  | createState (systemId n : Nat) (instructions : List Instruction)
  | modifyState (systemId stateId : Nat) (instructions : List Instruction)
  | measureState (systemId stateId : Nat) (instructions : List Instruction)
  | deleteState (systemId stateId : Nat)
  | computeResult (systemId n : Nat) (instructions : List Instruction)
  | malformed

inductive Reply where
  | id (value : Nat)
  | done
  | outcomes (values : List Bool)
  | refused

/-- The systems with their registers. -/
abbrev Service := Registry (Registry Register)

namespace Service

/-- One command with its coins. -/
inductive Step (s : Service) (coins : Stream' Bool)
    : Command → Reply → Service → Stream' Bool → Prop where
  | createSystem : Step s coins .createSystem (.id s.next) (s.add .empty) coins
  | deleteSystem {systemId system} (present : s.item systemId = some system)
      : Step s coins (.deleteSystem systemId) .done (s.remove systemId) coins
  | createState {systemId system n instructions outcomes r left}
      (present : s.item systemId = some system)
      (runs : (Register.fresh n).Runs instructions coins outcomes r left)
      : Step s coins (.createState systemId n instructions) (.id system.next)
          (s.set systemId (system.add r)) left
  | modifyState {systemId stateId system instructions outcomes r r' left}
      (present : s.item systemId = some system) (stored : system.item stateId = some r)
      (runs : r.Runs instructions coins outcomes r' left)
      : Step s coins (.modifyState systemId stateId instructions) .done
          (s.set systemId (system.set stateId r')) left
  | measureState {systemId stateId system instructions outcomes r r' left}
      (present : s.item systemId = some system) (stored : system.item stateId = some r)
      (runs : r.Runs instructions coins outcomes r' left)
      : Step s coins (.measureState systemId stateId instructions) (.outcomes outcomes)
          (s.set systemId (system.set stateId r')) left
  | deleteState {systemId stateId system r} (present : s.item systemId = some system)
      (stored : system.item stateId = some r)
      : Step s coins (.deleteState systemId stateId) .done
          (s.set systemId (system.remove stateId)) coins
  | computeResult {systemId system n instructions outcomes r left}
      (present : s.item systemId = some system)
      (runs : (Register.fresh n).Runs instructions coins outcomes r left)
      : Step s coins (.computeResult systemId n instructions) (.outcomes outcomes) s left
  | malformed : Step s coins .malformed .refused s coins

/-- The commands that clients may give: they name what is there, their circuits are on its qubits,
and there are ids left.
-/
def Allows (s : Service) : Command → Prop
  | .createSystem => s.next + 1 < 2 ^ 64
  | .deleteSystem systemId => ∃ system, s.item systemId = some system
  | .createState systemId n instructions =>
      n < 2 ^ 31 ∧ (∀ instruction ∈ instructions, instruction.Within n)
        ∧ ∃ system, s.item systemId = some system ∧ system.next + 1 < 2 ^ 64
  | .modifyState systemId stateId instructions | .measureState systemId stateId instructions =>
      ∃ system r, s.item systemId = some system ∧ system.item stateId = some r
        ∧ ∀ instruction ∈ instructions, instruction.Within r.qubits
  | .deleteState systemId stateId =>
      ∃ system r, s.item systemId = some system ∧ system.item stateId = some r
  | .computeResult systemId n instructions =>
      n < 2 ^ 31 ∧ (∀ instruction ∈ instructions, instruction.Within n)
        ∧ ∃ system, s.item systemId = some system
  | .malformed => True

/-- One command after the other, with the coins of one generator. -/
inductive Session : Service → Stream' Bool → List Command → List Reply → Service → Stream' Bool → Prop
    where
  | done {s coins} : Session s coins [] [] s coins
  | step {s coins command rest reply replies t left u last}
      (step : Step s coins command reply t left) (session : Session t left rest replies u last)
      : Session s coins (command :: rest) (reply :: replies) u last

/-- Each command is allowed when its turn comes, whatever the service has done before. -/
def Admits : Service → Stream' Bool → List Command → Prop
  | _, _, [] => True
  | s, coins, command :: rest =>
      s.Allows command
        ∧ ∀ reply t left, Step s coins command reply t left → Admits t left rest

end Service

end Sabot
