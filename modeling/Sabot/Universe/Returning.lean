import Sabot.Universe

/-! When the operations of the universe return, and that none of them throws a runtime error. -/

namespace Sabot

open Sabot.Language (Byte Program)
open Sabot.State (ChpState World)

/-- The run stays inside its arrays and releases none of them twice. -/
def Completes {α : Type} (state : α → ChpState) (result : Option α) : Prop :=
  ∃ a, result = some a ∧ (state a).pointers ≠ .freedTwice

theorem returned_completes {α : Type} {state : α → ChpState} {result : Option α} {a : α}
    (ran : result = some a) (once : (state a).pointers ≠ .freedTwice)
    : returned state result = .ok a := by
  rw [ran, returned]
  exact if_neg once

theorem returned_stops {α : Type} {state : α → ChpState} {result : Option α}
    (fails : ¬Completes state result)
    : returned state result = .error .undefined := by
  cases result with
  | none => rfl
  | some a => exact if_pos (not_not.mp (fun once => fails ⟨a, rfl, once⟩))

theorem returned_cases {α : Type} (state : α → ChpState) (result : Option α)
    : (∃ a, returned state result = .ok a ∧ result = some a ∧ Completes state result)
      ∨ returned state result = .error .undefined ∧ ¬Completes state result := by
  by_cases completes : Completes state result
  · obtain ⟨a, ran, once⟩ := completes
    exact Or.inl ⟨a, returned_completes ran once, ran, a, ran, once⟩
  · exact Or.inr ⟨returned_stops completes, completes⟩

theorem compiled_not_runtime (interpreters : Interpreters) (dialect data : List Byte)
    (lineDelimiter : Byte) (what : String)
    : compiled interpreters dialect data lineDelimiter
      ≠ .error (.thrown (.runtimeError what)) := by
  have parses (known : Language.Dialect)
      : Language.parseProgram known data lineDelimiter
        ≠ .error (.thrown (.runtimeError what)) := by
    intro stops
    rcases Language.parseProgram_throws known data lineDelimiter _ stops with h | h <;> cases h
  unfold compiled instantiateDialect
  split
  · split
    · simp
    · exact parses _
  · split
    · exact parses _
    · rename_i fails
      split at fails
      · cases fails
      · cases fails
        simp

theorem compileProgram_quiet (dialect data : List Byte) (lineDelimiter : Byte)
    : (compileProgram dialect data lineDelimiter).Quiet := by
  intro interpreters t what ran
  obtain ⟨left, compiles⟩ := compileProgram_eq data lineDelimiter interpreters dialect
  rw [ran] at compiles
  exact compiled_not_runtime _ _ _ _ _ (Prod.mk.inj compiles).1.symm

namespace Universe

variable {α : Type} {u : Universe} {systemId stateId : UInt64} {dialect data : List Byte}
  {lineDelimiter : Byte} {f : Program → Run (QuantumSystem × World) α} {system : QuantumSystem}
  {interpreters : Interpreters} {world : World}

/-- The function of a text returns when the text compiles and the program's function returns. -/
theorem withProgram_returns
    : (withProgram dialect data lineDelimiter f).Returns (system, interpreters, world)
      ↔ ∃ program, compiled interpreters dialect data lineDelimiter = .ok program
        ∧ (f program).Returns (system, world) := by
  cases result : compiled interpreters dialect data lineDelimiter with
  | error e =>
      have fails : ∃ after, withProgram dialect data lineDelimiter f (system, interpreters, world)
          = (.error e, system, after, world) := withProgram_error result
      obtain ⟨after, stops⟩ := fails
      simp [Run.Returns, stops]
  | ok program =>
      cases ran : f program (system, world) with
      | mk outcome after =>
          obtain ⟨next, left⟩ := after
          obtain ⟨after, whole⟩ := withProgram_ok result ran
          simp [Run.Returns, whole, ran]

theorem withProgram_quiet (quiet : ∀ program, (f program).Quiet)
    : (withProgram dialect data lineDelimiter f).Quiet :=
  (compileProgram_quiet dialect data lineDelimiter).within.bind
    (fun program => (quiet program).within)

theorem editSystem_returns {g : Run (QuantumSystem × Interpreters × World) α}
    : (editSystem systemId g).Returns u
      ↔ ∃ system, u.quantumSystems.find systemId = some ⟨false, system⟩
        ∧ g.Returns (system, u.interpreters, u.world) := by
  rw [editSystem, Run.returns_within, MsContainer.returns_editItem]

/-- A text that compiles is answered for by the program's function. -/
theorem withProgram_result {program : Program}
    (compiles : compiled interpreters dialect data lineDelimiter = .ok program)
    : (withProgram dialect data lineDelimiter f (system, interpreters, world)).1
      = (f program (system, world)).1 := by
  cases ran : f program (system, world) with
  | mk result rest =>
      obtain ⟨next, left⟩ := rest
      obtain ⟨after, whole⟩ := withProgram_ok compiles ran
      rw [whole]

/-- A free system is answered for by its function. -/
theorem editSystem_result {g : Run (QuantumSystem × Interpreters × World) α}
    (free : u.quantumSystems.find systemId = some ⟨false, system⟩)
    : (editSystem systemId g u).1 = (g (system, u.interpreters, u.world)).1 := by
  cases ran : g (system, u.interpreters, u.world) with
  | mk result rest =>
      obtain ⟨next, interpreters, world⟩ := rest
      cases result with
      | ok a => rw [editSystem_ok free ran]
      | error e => rw [editSystem_error free ran]

/-- A macro is compiled when its kernel is there and free and its text compiles. -/
theorem compileMacro_returns {kernelId : UInt64}
    : (compileMacro kernelId dialect data lineDelimiter).Returns u
      ↔ ∃ kernel program, u.kernels.find kernelId = some ⟨false, kernel⟩
        ∧ compiled u.interpreters dialect data lineDelimiter = .ok program := by
  rcases initializeInterpreter_cases dialect u.interpreters with
    ⟨absent, unknown, fails⟩ | ⟨_, left, initialized⟩
  · refine iff_of_false ?_ ?_
    · simp [Run.Returns, compileMacro_unknown fails]
    · simp [compiled, absent, instantiateDialect, unknown]
  · have same : (compileMacro kernelId dialect data lineDelimiter).Returns u
        ↔ (editKernel kernelId (insertCompiled dialect data lineDelimiter)).Returns
            { u with interpreters := left } := by
      simp only [Run.Returns, compileMacro_initialized initialized]
    rw [same, editKernel, Run.returns_within, MsContainer.returns_editItem,
      ← compiled_initialized data lineDelimiter initialized]
    refine exists_congr (fun kernel => ?_)
    rw [exists_and_left]
    refine and_congr_right (fun _ => ?_)
    cases result : compiled left dialect data lineDelimiter with
    | ok program =>
        have inserts : ∃ id next after, insertCompiled dialect data lineDelimiter (kernel, left)
            = (.ok id, next, after) := insertCompiled_ok result
        obtain ⟨id, next, after, ran⟩ := inserts
        exact iff_of_true ⟨id, _, ran⟩ ⟨program, rfl⟩
    | error e =>
        have fails : ∃ after, insertCompiled dialect data lineDelimiter (kernel, left)
            = (.error e, kernel, after) := insertCompiled_error result
        obtain ⟨after, ran⟩ := fails
        simp [Run.Returns, ran]

theorem compileMacro_quiet {kernelId : UInt64}
    : (compileMacro kernelId dialect data lineDelimiter).Quiet := by
  refine Run.Quiet.bind (Run.Quiet.within ?_) (fun _ => (MsContainer.quiet_editItem ?_).within)
  · intro interpreters t what ran
    rcases initializeInterpreter_cases dialect interpreters with ⟨_, _, fails⟩ | ⟨_, left, ok⟩
    · rw [fails] at ran
      cases ran
    · rw [ok] at ran
      cases ran
  · refine (compileProgram_quiet dialect data lineDelimiter).within.bind (fun program => ?_)
    intro s t what ran
    cases ran

theorem editSystem_quiet {g : Run (QuantumSystem × Interpreters × World) α} (quiet : g.Quiet)
    : (editSystem systemId g).Quiet :=
  (MsContainer.quiet_editItem quiet).within

end Universe

namespace QuantumSystem

variable {system : QuantumSystem} {state : ChpState} {world : World} {program : Program}
  {stateId : UInt64}

theorem programInsertState_returns
    : (programInsertState program).Returns (system, world)
      ↔ Completes Prod.fst (State.encodeState program world) := by
  rcases returned_cases Prod.fst (State.encodeState program world) with
    ⟨⟨state, left⟩, returns, _, completes⟩ | ⟨stops, fails⟩
  · exact iff_of_true ⟨_, _, by simp only [programInsertState, returns]; rfl⟩ completes
  · refine iff_of_false ?_ fails
    simp [Run.Returns, programInsertState, stops]

theorem programInsertState_quiet : (programInsertState program).Quiet := by
  rintro ⟨system, world⟩ t what ran
  rcases returned_cases Prod.fst (State.encodeState program world) with
    ⟨⟨state, left⟩, returns, _⟩ | ⟨stops, _⟩
  · simp [programInsertState, returns, MsContainer.insert] at ran
  · simp [programInsertState, stops] at ran

theorem editState_returns {α : Type} {f : Run (ChpState × World) α}
    : (editState stateId f).Returns (system, world)
      ↔ ∃ state, system.states.find stateId = some ⟨false, state⟩ ∧ f.Returns (state, world) := by
  rw [← MsContainer.returns_editItem]
  simp only [Run.Returns, editState]
  constructor
  · rintro ⟨a, t, ran⟩
    exact ⟨a, _, Prod.ext (Prod.mk.inj ran).1 rfl⟩
  · rintro ⟨a, t, ran⟩
    exact ⟨a, (⟨t.1⟩, t.2), by simp only [ran]⟩

theorem editState_result {α : Type} {f : Run (ChpState × World) α}
    (free : system.states.find stateId = some ⟨false, state⟩)
    : (editState stateId f (system, world)).1 = (f (state, world)).1 := by
  cases ran : f (state, world) with
  | mk result rest =>
      obtain ⟨next, left⟩ := rest
      cases result with
      | ok a => simp only [editState, MsContainer.editItem_ok free ran]
      | error e => simp only [editState, MsContainer.editItem_error free ran]

theorem editState_quiet {α : Type} {f : Run (ChpState × World) α} (quiet : f.Quiet)
    : (editState stateId f).Quiet := by
  rintro ⟨system, world⟩ t what ran
  exact MsContainer.quiet_editItem quiet (system.states, world)
    (MsContainer.editItem stateId f (system.states, world)).2 what
    (Prod.ext (Prod.mk.inj ran).1 rfl)

theorem modifyItem_completes {ok : Bool} {next : ChpState} {left : World}
    (ran : State.modifyState state program world = some (ok, next, left))
    (once : next.pointers ≠ .freedTwice)
    : modifyItem program (state, world) = (.ok ok, next, left) := by
  simp only [modifyItem, returned, ran, if_neg once]

/-- A run that stays inside its arrays replaces the state; any other leaves it alone. -/
theorem modifyItem_cases (program : Program) (state : ChpState) (world : World)
    : (∃ ok next left, State.modifyState state program world = some (ok, next, left)
          ∧ next.pointers ≠ .freedTwice
          ∧ modifyItem program (state, world) = (.ok ok, next, left))
      ∨ modifyItem program (state, world) = (.error .undefined, state, world)
          ∧ ¬Completes (fun (_, state, _) => state) (State.modifyState state program world) := by
  by_cases completes : Completes (fun (_, state, _) => state)
      (State.modifyState state program world)
  · obtain ⟨⟨ok, next, left⟩, ran, once⟩ := completes
    exact Or.inl ⟨ok, next, left, ran, once, modifyItem_completes ran once⟩
  · exact Or.inr ⟨by simp only [modifyItem, returned_stops completes], completes⟩

theorem measureItem_completes {buffer : State.StringBuffer} {ok : Bool} {m : State.Machine}
    (ran : State.measureState state program buffer world = some (ok, m))
    (once : m.state.pointers ≠ .freedTwice)
    : measureItem program buffer (state, world) = (.ok (ok, m.buffer), m.state, m.world) := by
  simp only [measureItem, returned, ran, if_neg once]

/-- A run that stays inside its arrays replaces the state; any other leaves it alone. -/
theorem measureItem_cases (program : Program) (buffer : State.StringBuffer) (state : ChpState)
    (world : World)
    : (∃ ok m, State.measureState state program buffer world = some (ok, m)
          ∧ m.state.pointers ≠ .freedTwice
          ∧ measureItem program buffer (state, world) = (.ok (ok, m.buffer), m.state, m.world))
      ∨ measureItem program buffer (state, world) = (.error .undefined, state, world)
          ∧ ¬Completes (fun (_, m) => m.state)
            (State.measureState state program buffer world) := by
  by_cases completes : Completes (fun (_, m) => m.state)
      (State.measureState state program buffer world)
  · obtain ⟨⟨ok, m⟩, ran, once⟩ := completes
    exact Or.inl ⟨ok, m, ran, once, measureItem_completes ran once⟩
  · exact Or.inr ⟨by simp only [measureItem, returned_stops completes], completes⟩

theorem programComputeResult_completes {buffer : State.StringBuffer} {ok : Bool}
    {m : State.Machine} (ran : State.computeResult program buffer world = some (ok, m))
    (once : m.state.pointers ≠ .freedTwice)
    : programComputeResult program buffer (system, world)
      = ((fun _ => (ok, m.buffer)) <$> m.state.destroy, system, m.world) := by
  simp only [programComputeResult, returned, ran, if_neg once]

/-- The temporary state is destroyed after its run, and the stored ones are left alone. -/
theorem programComputeResult_cases (program : Program) (buffer : State.StringBuffer)
    (system : QuantumSystem) (world : World)
    : (∃ ok m, State.computeResult program buffer world = some (ok, m)
          ∧ m.state.pointers ≠ .freedTwice
          ∧ programComputeResult program buffer (system, world)
            = ((fun _ => (ok, m.buffer)) <$> m.state.destroy, system, m.world))
      ∨ programComputeResult program buffer (system, world)
            = (.error .undefined, system, world)
          ∧ ¬Completes (fun (_, m) => m.state) (State.computeResult program buffer world) := by
  by_cases completes : Completes (fun (_, m) => m.state)
      (State.computeResult program buffer world)
  · obtain ⟨⟨ok, m⟩, ran, once⟩ := completes
    exact Or.inl ⟨ok, m, ran, once, programComputeResult_completes ran once⟩
  · exact Or.inr ⟨by simp only [programComputeResult, returned_stops completes], completes⟩

theorem programModifyState_returns
    : (programModifyState program stateId).Returns (system, world)
      ↔ ∃ state, system.states.find stateId = some ⟨false, state⟩
        ∧ Completes (fun (_, state, _) => state) (State.modifyState state program world) := by
  rw [programModifyState, editState_returns]
  refine exists_congr (fun state => and_congr_right (fun _ => ?_))
  rcases modifyItem_cases program state world with
    ⟨ok, next, left, ran, once, edits⟩ | ⟨stops, fails⟩
  · exact iff_of_true ⟨ok, (next, left), edits⟩ ⟨(ok, next, left), ran, once⟩
  · exact iff_of_false (fun ⟨a, t, returns⟩ => by simp [stops] at returns) fails

theorem programModifyState_quiet : (programModifyState program stateId).Quiet := by
  refine editState_quiet ?_
  rintro ⟨state, world⟩ t what ran
  rcases modifyItem_cases program state world with ⟨ok, next, left, _, _, edits⟩ | ⟨stops, _⟩
  · simp [edits] at ran
  · simp [stops] at ran

theorem programMeasureState_returns {buffer : State.StringBuffer}
    : (programMeasureState program stateId buffer).Returns (system, world)
      ↔ ∃ state, system.states.find stateId = some ⟨false, state⟩
        ∧ Completes (fun (_, m) => m.state) (State.measureState state program buffer world) := by
  rw [programMeasureState, editState_returns]
  refine exists_congr (fun state => and_congr_right (fun _ => ?_))
  rcases measureItem_cases program buffer state world with
    ⟨ok, m, ran, once, edits⟩ | ⟨stops, fails⟩
  · exact iff_of_true ⟨(ok, m.buffer), (m.state, m.world), edits⟩ ⟨(ok, m), ran, once⟩
  · exact iff_of_false (fun ⟨a, t, returns⟩ => by simp [stops] at returns) fails

theorem programMeasureState_quiet {buffer : State.StringBuffer}
    : (programMeasureState program stateId buffer).Quiet := by
  refine editState_quiet ?_
  rintro ⟨state, world⟩ t what ran
  rcases measureItem_cases program buffer state world with ⟨ok, m, _, _, edits⟩ | ⟨stops, _⟩
  · simp [edits] at ran
  · simp [stops] at ran

/-- The temporary state can be destroyed only if its pointers are live or null. -/
theorem programComputeResult_returns {buffer : State.StringBuffer}
    : (programComputeResult program buffer).Returns (system, world)
      ↔ ∃ ok m, State.computeResult program buffer world = some (ok, m)
        ∧ m.state.destroy = .ok () := by
  have destroyed {state : ChpState} (sound : state.destroy = .ok ())
      : state.pointers ≠ .freedTwice := by
    intro twice
    simp [ChpState.destroy, twice] at sound
  rcases programComputeResult_cases program buffer system world with
    ⟨ok, m, ran, once, computes⟩ | ⟨stops, fails⟩
  · rw [ran]
    cases ends : m.state.destroy with
    | ok _ => simp [Run.Returns, computes, ends]
    | error e => simp [Run.Returns, computes, ends]
  · refine iff_of_false (by simp [Run.Returns, stops]) ?_
    rintro ⟨ok, m, ran, sound⟩
    exact fails ⟨(ok, m), ran, destroyed sound⟩

theorem programComputeResult_quiet {buffer : State.StringBuffer}
    : (programComputeResult program buffer).Quiet := by
  rintro ⟨system, world⟩ t what ran
  rcases programComputeResult_cases program buffer system world with
    ⟨ok, m, _, _, computes⟩ | ⟨stops, _⟩
  · simp only [computes, ChpState.destroy] at ran
    split at ran <;> simp at ran
  · simp [stops] at ran

theorem deleteStateElement_returns
    : (deleteStateElement stateId).Returns (system, world)
      ↔ ∃ entry, system.states.find stateId = some entry ∧ entry.item.destroy = .ok () := by
  rw [← MsContainer.returns_erase]
  simp only [Run.Returns, deleteStateElement]
  constructor
  · rintro ⟨a, t, ran⟩
    exact ⟨a, _, Prod.ext (Prod.mk.inj ran).1 rfl⟩
  · rintro ⟨a, t, ran⟩
    exact ⟨a, (⟨t⟩, world), by simp only [ran]⟩

theorem deleteStateElement_quiet : (deleteStateElement stateId).Quiet := by
  rintro ⟨system, world⟩ t what ran
  have quiet (state : ChpState) (what : String)
      : state.destroy ≠ .error (.thrown (.runtimeError what)) := by
    rw [ChpState.destroy]
    split <;> simp
  exact MsContainer.quiet_erase quiet system.states
    (MsContainer.erase ChpState.destroy stateId system.states).2 what
    (Prod.ext (Prod.mk.inj ran).1 rfl)

end QuantumSystem

namespace Universe

variable {u : Universe}

theorem createSystem_returns {stateType : List Byte}
    : (createSystem stateType).Returns u ↔ text stateType = chpStateName := by
  rw [createSystem, Run.returns_within, MsContainer.returns_insertWith,
    QuantumSystem.new]
  split <;> simp_all

theorem createSystem_quiet {stateType : List Byte} : (createSystem stateType).Quiet := by
  refine (MsContainer.quiet_insertWith (fun what => ?_)).within
  rw [QuantumSystem.new]
  split <;> simp

theorem deleteSystem_returns {systemId : UInt64}
    : (deleteSystem systemId).Returns u
      ↔ ∃ entry, u.quantumSystems.find systemId = some entry ∧ entry.item.destroy = .ok () := by
  rw [deleteSystem, Run.returns_within, MsContainer.returns_erase]

theorem deleteSystem_quiet {systemId : UInt64} : (deleteSystem systemId).Quiet := by
  refine (MsContainer.quiet_erase (fun system what => ?_)).within
  rw [QuantumSystem.destroy]
  split <;> simp

theorem deleteKernel_returns {kernelId : UInt64}
    : (deleteKernel kernelId).Returns u ↔ u.kernels.find kernelId ≠ none := by
  rw [deleteKernel, Run.returns_within, MsContainer.returns_erase]
  simp [Option.ne_none_iff_exists']

theorem deleteState_returns {systemId stateId : UInt64}
    : (deleteState systemId stateId).Returns u
      ↔ ∃ system entry, u.quantumSystems.find systemId = some ⟨false, system⟩
        ∧ system.states.find stateId = some entry ∧ entry.item.destroy = .ok () := by
  rw [deleteState, editSystem_returns]
  refine exists_congr (fun system => ?_)
  rw [Run.returns_within, QuantumSystem.deleteStateElement_returns, exists_and_left]

section Programs

open QuantumSystem

variable {systemId stateId : UInt64} {dialect data : List Byte} {delimiter : Byte}

theorem createState_quiet : (createState systemId dialect data delimiter).Quiet :=
  editSystem_quiet (withProgram_quiet (fun _ => programInsertState_quiet))

theorem modifyState_quiet : (modifyState systemId stateId dialect data delimiter).Quiet :=
  editSystem_quiet (withProgram_quiet (fun _ => programModifyState_quiet))

theorem measureState_quiet {buffer : State.StringBuffer}
    : (measureState systemId stateId dialect data delimiter buffer).Quiet :=
  editSystem_quiet (withProgram_quiet (fun _ => programMeasureState_quiet))

theorem computeResult_quiet {buffer : State.StringBuffer}
    : (computeResult systemId dialect data delimiter buffer).Quiet :=
  editSystem_quiet (withProgram_quiet (fun _ => programComputeResult_quiet))

end Programs

end Universe

end Sabot
