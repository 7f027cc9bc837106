import Sabot.Universe.Returning

/-! The requests on systems and states, and everything that one of them can do to the systems. -/

namespace Sabot.Universe

open Sabot.Language (Byte Program)
open Sabot.State (ChpState StringBuffer World)

/-- The text of a request: its dialect, its lines and what separates them. -/
structure Source where
  dialect : List Byte
  data : List Byte
  lineDelimiter : Byte

/-- What compiling the text comes to in a universe. -/
def Source.program (source : Source) (u : Universe) : Except Stop Program :=
  compiled u.interpreters source.dialect source.data source.lineDelimiter

/-- The id of a new system, state or macro, or success with the results. -/
inductive Answer where
  | id (value : UInt64)
  | done (ok : Bool) (results : StringBuffer)

/-- The requests on systems and states. -/
inductive SystemRequest where
  | createSystem (stateType : List Byte)
  | deleteSystem (systemId : UInt64)
  | createState (systemId : UInt64) (source : Source)
  | modifyState (systemId stateId : UInt64) (source : Source)
  | measureState (systemId stateId : UInt64) (source : Source)
  | deleteState (systemId stateId : UInt64)
  | computeResult (systemId : UInt64) (source : Source)

namespace SystemRequest

/-- The operation that a request calls. -/
def perform : SystemRequest → Run Universe Answer
  | .createSystem stateType => .id <$> Universe.createSystem stateType
  | .deleteSystem systemId => (fun ok => .done ok .empty) <$> Universe.deleteSystem systemId
  | .createState systemId s =>
      .id <$> Universe.createState systemId s.dialect s.data s.lineDelimiter
  | .modifyState systemId stateId s =>
      (fun ok => .done ok .empty)
        <$> Universe.modifyState systemId stateId s.dialect s.data s.lineDelimiter
  | .measureState systemId stateId s =>
      (fun (ok, results) => .done ok results)
        <$> Universe.measureState systemId stateId s.dialect s.data s.lineDelimiter .empty
  | .deleteState systemId stateId =>
      (fun ok => .done ok .empty) <$> Universe.deleteState systemId stateId
  | .computeResult systemId s =>
      (fun (ok, results) => .done ok results)
        <$> Universe.computeResult systemId s.dialect s.data s.lineDelimiter .empty

/-- The system whose flag the request takes. -/
def edited : SystemRequest → Option UInt64
  | .createSystem _ | .deleteSystem _ => none
  | .createState systemId _ | .modifyState systemId _ _ | .measureState systemId _ _
  | .deleteState systemId _ | .computeResult systemId _ => some systemId

/-- The state whose flag the request takes. -/
def editedState : SystemRequest → Option UInt64
  | .modifyState _ stateId _ | .measureState _ stateId _ => some stateId
  | _ => none

/-- What modifying or measuring makes of a stored state. -/
def edit (u : Universe) : SystemRequest → ChpState → ChpState
  | .modifyState _ _ source, state =>
      match source.program u with
      | .ok program => (QuantumSystem.modifyItem program (state, u.world)).2.1
      | .error _ => state
  | .measureState _ _ source, state =>
      match source.program u with
      | .ok program => (QuantumSystem.measureItem program .empty (state, u.world)).2.1
      | .error _ => state
  | _, state => state

end SystemRequest

-----------------------------------------------------------------------------------------
-- The effect of one request
-----------------------------------------------------------------------------------------

/-- What a request does to the states of the system whose flag it has. -/
inductive Changes (u : Universe)
    : SystemRequest → Except Stop Answer → MsContainer UInt64 ChpState
      → MsContainer UInt64 ChpState → Prop where
  | fails {request e states} : Changes u request (.error e) states states
  | computes {systemId source ok results states}
      : Changes u (.computeResult systemId source) (.ok (.done ok results)) states states
  | inserts {systemId source program state left states} (compiles : source.program u = .ok program)
      (encodes : State.encodeState program u.world = some (state, left))
      : Changes u (.createState systemId source) (.ok (.id states.keyGenerator)) states
          ({ states with keyGenerator := states.keyGenerator + 1 }.emplace states.keyGenerator
            ⟨false, state⟩)
  | edits {request stateId ok results state states} (names : request.editedState = some stateId)
      (free : states.find stateId = some ⟨false, state⟩)
      : Changes u request (.ok (.done ok results)) states
          (states.store stateId ⟨false, request.edit u state⟩)
  | keepsFlag {request stateId e state states} (names : request.editedState = some stateId)
      (free : states.find stateId = some ⟨false, state⟩)
      : Changes u request (.error e) states (states.store stateId ⟨true, state⟩)
  | deletes {systemId stateId states entry} (present : states.find stateId = some entry)
      : Changes u (.deleteState systemId stateId) (.ok (.done true .empty)) states
          (states.remove stateId)

/-- What a request does to the systems. -/
inductive Effect (u : Universe)
    : SystemRequest → Except Stop Answer → MsContainer UInt64 QuantumSystem → Prop where
  | fails {request e} (takesNoId : ∀ stateType, request ≠ .createSystem stateType)
      : Effect u request (.error e) u.quantumSystems
  | createSystem {stateType}
      : Effect u (.createSystem stateType) (.ok (.id u.quantumSystems.keyGenerator))
          ({ u.quantumSystems with keyGenerator := u.quantumSystems.keyGenerator + 1 }.emplace
            u.quantumSystems.keyGenerator ⟨false, ⟨.new 0⟩⟩)
  | losesId {stateType e}
      : Effect u (.createSystem stateType) (.error e)
          { u.quantumSystems with keyGenerator := u.quantumSystems.keyGenerator + 1 }
  | deleteSystem {systemId entry} (present : u.quantumSystems.find systemId = some entry)
      : Effect u (.deleteSystem systemId) (.ok (.done true .empty))
          (u.quantumSystems.remove systemId)
  | edits {request result systemId system states flag} (names : request.edited = some systemId)
      (free : u.quantumSystems.find systemId = some ⟨false, system⟩)
      (changes : Changes u request result system.states states)
      : Effect u request result (u.quantumSystems.store systemId ⟨flag, ⟨states⟩⟩)

section Effects

variable {α : Type} {u : Universe} {request : SystemRequest} {systemId stateId : UInt64}
  {source : Source} (answer : α → Answer)

/-- Editing a system has the effect of what its function does to the states. -/
theorem editSystem_effect {g : Run (QuantumSystem × Interpreters × World) α}
    (names : request.edited = some systemId)
    (changes : ∀ system result next rest, g (system, u.interpreters, u.world) = (result, next, rest)
      → Changes u request (answer <$> result) system.states next.states)
    : Effect u request ((answer <$> editSystem systemId g) u).1
        ((answer <$> editSystem systemId g) u).2.quantumSystems := by
  have takesNoId (stateType : List Byte) : request ≠ .createSystem stateType := by
    rintro rfl
    cases names
  rw [Run.map_apply]
  cases found : u.quantumSystems.find systemId with
  | none =>
      rw [editSystem_absent found]
      exact .fails takesNoId
  | some entry =>
      obtain ⟨flag, system⟩ := entry
      cases flag with
      | true =>
          rw [editSystem_blocked found]
          exact .fails takesNoId
      | false =>
          cases ran : g (system, u.interpreters, u.world) with
          | mk result rest =>
              obtain ⟨next, interpreters, world⟩ := rest
              have changed := changes system result next _ ran
              cases result with
              | ok a =>
                  rw [editSystem_ok found ran]
                  exact .edits names found changed
              | error e =>
                  rw [editSystem_error found ran]
                  exact .edits names found changed

/-- A text that does not compile changes nothing. -/
theorem withProgram_changes {f : Program → Run (QuantumSystem × World) α}
    (changes : ∀ program, source.program u = .ok program → ∀ system result next left,
      f program (system, u.world) = (result, next, left)
      → Changes u request (answer <$> result) system.states next.states)
    (system : QuantumSystem) (result : Except Stop α) (next : QuantumSystem)
    (rest : Interpreters × World)
    (ran : withProgram source.dialect source.data source.lineDelimiter f
      (system, u.interpreters, u.world) = (result, next, rest))
    : Changes u request (answer <$> result) system.states next.states := by
  cases compiles : source.program u with
  | error e =>
      have fails : ∃ after, withProgram source.dialect source.data source.lineDelimiter f
          (system, u.interpreters, u.world) = (.error e, system, after, u.world) :=
        withProgram_error compiles
      obtain ⟨after, stops⟩ := fails
      rw [stops] at ran
      cases ran
      exact .fails
  | ok program =>
      cases inner : f program (system, u.world) with
      | mk result' rest' =>
          obtain ⟨next', left⟩ := rest'
          obtain ⟨after, whole⟩ := withProgram_ok compiles inner
          rw [whole] at ran
          cases ran
          exact changes program compiles system _ _ _ inner

end Effects

section Systems

open QuantumSystem

variable {u : Universe} {request : SystemRequest} {systemId stateId : UInt64} {source : Source}
  {program : Program} {system next : QuantumSystem} {left : World}

theorem programInsertState_changes (compiles : source.program u = .ok program)
    {result : Except Stop UInt64}
    (ran : programInsertState program (system, u.world) = (result, next, left))
    : Changes u (.createState systemId source) (Answer.id <$> result) system.states
        next.states := by
  rcases returned_cases Prod.fst (State.encodeState program u.world) with
    ⟨⟨state, world⟩, returns, encodes, _⟩ | ⟨stops, _⟩
  · simp only [programInsertState, returns] at ran
    cases ran
    exact .inserts compiles encodes
  · simp only [programInsertState, stops] at ran
    cases ran
    exact .fails

/-- A function that leaves the state alone when it stops is the request's edit when it returns. -/
theorem editState_changes {α : Type} {f : Run (ChpState × World) α} (answer : α → Answer)
    (finishes : ∀ a, ∃ ok results, answer a = .done ok results)
    (names : request.editedState = some stateId)
    (keeps : ∀ state e, (f (state, u.world)).1 = .error e → (f (state, u.world)).2.1 = state)
    (edits : ∀ state, (f (state, u.world)).2.1 = request.edit u state) {result : Except Stop α}
    (ran : editState stateId f (system, u.world) = (result, next, left))
    : Changes u request (answer <$> result) system.states next.states := by
  cases found : system.states.find stateId with
  | none =>
      simp only [editState, MsContainer.editItem_absent found] at ran
      cases ran
      exact .fails
  | some entry =>
      obtain ⟨flag, state⟩ := entry
      cases flag with
      | true =>
          simp only [editState, MsContainer.editItem_blocked found] at ran
          cases ran
          exact .fails
      | false =>
          have kept := keeps state
          have edited := edits state
          cases inner : f (state, u.world) with
          | mk outcome rest =>
              obtain ⟨state', world⟩ := rest
              rw [inner] at kept edited
              cases outcome with
              | error e =>
                  simp only [editState, MsContainer.editItem_error found inner] at ran
                  cases ran
                  obtain rfl : state' = state := kept e rfl
                  exact .keepsFlag names found
              | ok a =>
                  simp only [editState, MsContainer.editItem_ok found inner] at ran
                  cases ran
                  obtain rfl : state' = request.edit u state := edited
                  obtain ⟨ok, results, answered⟩ := finishes a
                  change Changes u request (.ok (answer a)) _ _
                  rw [answered]
                  exact .edits names found

theorem programModifyState_changes (compiles : source.program u = .ok program)
    {result : Except Stop Bool}
    (ran : programModifyState program stateId (system, u.world) = (result, next, left))
    : Changes u (.modifyState systemId stateId source)
        ((fun ok => Answer.done ok .empty) <$> result) system.states next.states := by
  refine editState_changes _ (fun ok => ⟨ok, _, rfl⟩) rfl ?_ ?_ ran
  · intro state e stops
    rcases modifyItem_cases program state u.world with ⟨ok, _, _, _, _, edits⟩ | ⟨undefined, _⟩
    · rw [edits] at stops
      cases stops
    · rw [undefined]
  · intro state
    simp only [SystemRequest.edit, compiles]

theorem programMeasureState_changes (compiles : source.program u = .ok program)
    {result : Except Stop (Bool × StringBuffer)}
    (ran : programMeasureState program stateId .empty (system, u.world) = (result, next, left))
    : Changes u (.measureState systemId stateId source)
        ((fun (ok, results) => Answer.done ok results) <$> result) system.states next.states := by
  refine editState_changes _ ?_ rfl ?_ ?_ ran
  · rintro ⟨ok, results⟩
    exact ⟨ok, results, rfl⟩
  · intro state e stops
    rcases measureItem_cases program .empty state u.world with
      ⟨ok, m, _, _, edits⟩ | ⟨undefined, _⟩
    · rw [edits] at stops
      cases stops
    · rw [undefined]
  · intro state
    simp only [SystemRequest.edit, compiles]

theorem programComputeResult_changes {result : Except Stop (Bool × StringBuffer)}
    (ran : programComputeResult program .empty (system, u.world) = (result, next, left))
    : Changes u (.computeResult systemId source)
        ((fun (ok, results) => Answer.done ok results) <$> result) system.states next.states := by
  have kept : next = system := by
    rcases programComputeResult_cases program .empty system u.world with
      ⟨ok, m, _, _, computes⟩ | ⟨undefined, _⟩
    · rw [computes] at ran
      cases ran
      rfl
    · rw [undefined] at ran
      cases ran
      rfl
  rw [kept]
  cases result with
  | error e => exact .fails
  | ok a => exact .computes

theorem deleteStateElement_changes {result : Except Stop Bool}
    (ran : deleteStateElement stateId (system, u.world) = (result, next, left))
    : Changes u (.deleteState systemId stateId) ((fun ok => Answer.done ok .empty) <$> result)
        system.states next.states := by
  cases found : system.states.find stateId with
  | none =>
      simp only [deleteStateElement, MsContainer.erase, found] at ran
      cases ran
      exact .fails
  | some entry =>
      cases destroyed : entry.item.destroy with
      | error e =>
          simp only [deleteStateElement, MsContainer.erase, found, destroyed] at ran
          cases ran
          exact .fails
      | ok _ =>
          simp only [deleteStateElement, MsContainer.erase, found, destroyed] at ran
          cases ran
          exact .deletes found

end Systems

/-- Everything a request can do to the systems. -/
theorem perform_effect (u : Universe) (request : SystemRequest)
    : Effect u request (request.perform u).1 (request.perform u).2.quantumSystems := by
  cases request with
  | createSystem stateType =>
      rw [SystemRequest.perform, Run.map_apply, createSystem, Run.within]
      cases made : QuantumSystem.new stateType with
      | error e =>
          simp only [MsContainer.insertWith]
          exact .losesId
      | ok system =>
          have empty : system = ⟨.new 0⟩ := by
            unfold QuantumSystem.new at made
            split at made <;> cases made
            rfl
          rw [empty]
          exact .createSystem
  | deleteSystem systemId =>
      rw [SystemRequest.perform, Run.map_apply, deleteSystem, Run.within]
      cases found : u.quantumSystems.find systemId with
      | none =>
          simp only [MsContainer.erase, found]
          exact .fails (fun _ same => by cases same)
      | some entry =>
          cases destroyed : entry.item.destroy with
          | error e =>
              simp only [MsContainer.erase, found, destroyed]
              exact .fails (fun _ same => by cases same)
          | ok _ =>
              simp only [MsContainer.erase, found, destroyed]
              exact .deleteSystem found
  | createState systemId source =>
      refine editSystem_effect _ rfl (withProgram_changes _ ?_)
      exact fun program compiles system result next left => programInsertState_changes compiles
  | modifyState systemId stateId source =>
      refine editSystem_effect _ rfl (withProgram_changes _ ?_)
      exact fun program compiles system result next left => programModifyState_changes compiles
  | measureState systemId stateId source =>
      refine editSystem_effect _ rfl (withProgram_changes _ ?_)
      exact fun program compiles system result next left => programMeasureState_changes compiles
  | deleteState systemId stateId =>
      refine editSystem_effect _ rfl ?_
      intro system result next rest ran
      cases inner : QuantumSystem.deleteStateElement stateId (system, u.world) with
      | mk outcome after =>
          simp only [Run.within, inner] at ran
          cases ran
          exact deleteStateElement_changes inner
  | computeResult systemId source =>
      refine editSystem_effect _ rfl (withProgram_changes _ ?_)
      exact fun program _ system result next left => programComputeResult_changes

end Sabot.Universe
