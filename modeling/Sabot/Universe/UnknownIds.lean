import Sabot.Universe.Returning

/-! Calls with the id of a system, a state or a kernel that does not exist. They are documented to
return false, but `edit_item` throws an exception that no caller expects, and `erase` uses the end
of the map.
-/

namespace Sabot.Universe

open Sabot.Language (Byte)
open Sabot.State (StringBuffer)

/-- The calls that look up an id and return whether they succeeded. -/
inductive Lookup where
  | modifyState (systemId stateId : UInt64) (dialect data : List Byte) (lineDelimiter : Byte)
  | measureState (systemId stateId : UInt64) (dialect data : List Byte) (lineDelimiter : Byte)
      (buffer : StringBuffer)
  | deleteState (systemId stateId : UInt64)
  | computeResult (systemId : UInt64) (dialect data : List Byte) (lineDelimiter : Byte)
      (buffer : StringBuffer)
  | deleteSystem (systemId : UInt64)
  | deleteKernel (kernelId : UInt64)

/-- The call, with what it returns. -/
def Lookup.perform : Lookup → Run Universe Bool
  | .modifyState systemId stateId dialect data lineDelimiter =>
      Universe.modifyState systemId stateId dialect data lineDelimiter
  | .measureState systemId stateId dialect data lineDelimiter buffer =>
      Prod.fst <$> Universe.measureState systemId stateId dialect data lineDelimiter buffer
  | .deleteState systemId stateId => Universe.deleteState systemId stateId
  | .computeResult systemId dialect data lineDelimiter buffer =>
      Prod.fst <$> Universe.computeResult systemId dialect data lineDelimiter buffer
  | .deleteSystem systemId => Universe.deleteSystem systemId
  | .deleteKernel kernelId => Universe.deleteKernel kernelId

/-- An id of the call does not exist. -/
def Lookup.Missing (u : Universe) : Lookup → Prop
  | .modifyState systemId stateId _ _ _ | .measureState systemId stateId _ _ _ _
  | .deleteState systemId stateId =>
      ∀ entry, u.quantumSystems.find systemId = some entry → entry.item.states.find stateId = none
  | .computeResult systemId _ _ _ _ | .deleteSystem systemId =>
      u.quantumSystems.find systemId = none
  | .deleteKernel kernelId => u.kernels.find kernelId = none

/-- The call returns false and leaves the systems and states as they were. -/
def Lookup.Reported (u : Universe) (lookup : Lookup) : Prop :=
  ∃ after, lookup.perform u = (.ok false, after) ∧ after.quantumSystems = u.quantumSystems

-----------------------------------------------------------------------------------------
-- No call returns
-----------------------------------------------------------------------------------------

theorem returns_of_map {α β : Type} {f : α → β} {x : Run Universe α} {u : Universe}
    (returns : (f <$> x).Returns u)
    : x.Returns u := by
  obtain ⟨b, t, ran⟩ := returns
  rw [Run.map_apply] at ran
  cases first : x u with
  | mk result after =>
      cases result with
      | ok a => exact ⟨a, after, first⟩
      | error e =>
          rw [first] at ran
          cases ran

/-- A call that returns has found what it names. -/
theorem Lookup.found_of_returns {u : Universe} {lookup : Lookup}
    (returns : lookup.perform.Returns u)
    : ¬lookup.Missing u := by
  intro missing
  cases lookup with
  | modifyState systemId stateId dialect data lineDelimiter =>
      obtain ⟨system, found, program, _, ran⟩ :
          ∃ system, u.quantumSystems.find systemId = some ⟨false, system⟩ ∧ ∃ program,
            compiled u.interpreters dialect data lineDelimiter = .ok program
            ∧ (QuantumSystem.programModifyState program stateId).Returns (system, u.world) := by
        simpa only [perform, Universe.modifyState, editSystem_returns, withProgram_returns]
          using returns
      obtain ⟨state, present, _⟩ := QuantumSystem.programModifyState_returns.mp ran
      rw [missing _ found] at present
      cases present
  | measureState systemId stateId dialect data lineDelimiter buffer =>
      have inner := returns_of_map returns
      obtain ⟨system, found, program, _, ran⟩ :
          ∃ system, u.quantumSystems.find systemId = some ⟨false, system⟩ ∧ ∃ program,
            compiled u.interpreters dialect data lineDelimiter = .ok program
            ∧ (QuantumSystem.programMeasureState program stateId buffer).Returns
              (system, u.world) := by
        simpa only [Universe.measureState, editSystem_returns, withProgram_returns] using inner
      obtain ⟨state, present, _⟩ := QuantumSystem.programMeasureState_returns.mp ran
      rw [missing _ found] at present
      cases present
  | deleteState systemId stateId =>
      obtain ⟨system, entry, found, present, _⟩ := deleteState_returns.mp returns
      rw [missing _ found] at present
      cases present
  | computeResult systemId dialect data lineDelimiter buffer =>
      obtain ⟨system, found, _⟩ := editSystem_returns.mp (returns_of_map returns)
      rw [show u.quantumSystems.find systemId = none from missing] at found
      cases found
  | deleteSystem systemId =>
      obtain ⟨entry, found, _⟩ := deleteSystem_returns.mp returns
      rw [show u.quantumSystems.find systemId = none from missing] at found
      cases found
  | deleteKernel kernelId => exact deleteKernel_returns.mp returns missing

/-- No call reports an id that does not exist. -/
theorem missing_not_reported {u : Universe} {lookup : Lookup} (missing : lookup.Missing u)
    : ¬lookup.Reported u := by
  rintro ⟨after, ran, _⟩
  exact Lookup.found_of_returns ⟨false, after, ran⟩ missing

/-- There is no system 1, and its deletion is not reported. -/
theorem missing_not_reported_one
    : (Lookup.deleteSystem 1).Missing oneSystem ∧ ¬(Lookup.deleteSystem 1).Reported oneSystem := by
  have missing : (Lookup.deleteSystem 1).Missing oneSystem :=
    MsContainer.find_store_of_ne _ _ (by decide)
  exact ⟨missing, missing_not_reported missing⟩

/-- Modifying a state of a missing system throws `std::invalid_argument`. -/
theorem modify_missing_system_throws
    : ¬∀ u lookup, Lookup.Missing u lookup → lookup.Reported u := by
  intro claimed
  have reported := claimed (.new ⟨.const true, .const (some 0)⟩ ⟨.const min, .const min⟩)
    (.modifyState 0 0 [] [] 0) (by simp [Lookup.Missing, Universe.new])
  obtain ⟨after, ran, _⟩ := reported
  rw [Lookup.perform, Universe.modifyState, editSystem_absent (MsContainer.find_new _ _)] at ran
  cases ran

end Sabot.Universe
