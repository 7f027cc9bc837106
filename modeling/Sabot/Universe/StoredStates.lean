import Sabot.Universe.Returning
import Sabot.State.ContainedPrograms

/-! What the operations keep of all that is stored: the arrays of a state are those of an
initialisation or none, and every interpreter is one of the dialect `chpext` under its name.
-/

namespace Sabot

open Sabot.Language (Byte Program chpext)
open Sabot.State (ChpState ProgramRuns World)

/-- The system stores states as programs leave them. -/
def QuantumSystem.Formed (system : QuantumSystem) : Prop :=
  system.states.All (fun _ state => state.Formed)

/-- The interpreters are of the dialect that there is, under its name. -/
def Interpreters.Known (interpreters : Interpreters) : Prop :=
  interpreters.All (fun name interpreter => name = chpextName ∧ interpreter.dialect = chpext)

/-- A universe as the operations leave it. -/
structure Universe.Formed (u : Universe) : Prop where
  systems : u.quantumSystems.All (fun _ system => system.Formed)
  interpreters : u.interpreters.Known

theorem Universe.formed_new (world : World) (draws : Randnum.Draws)
    : (Universe.new world draws).Formed :=
  ⟨MsContainer.all_new 0, MsContainer.all_new []⟩

theorem Universe.Formed.state {u : Universe} (formed : u.Formed) {systemId stateId : UInt64}
    {entry : Entry QuantumSystem} {stored : Entry ChpState}
    (found : u.quantumSystems.find systemId = some entry)
    (inside : entry.item.states.find stateId = some stored)
    : stored.item.Formed :=
  formed.systems systemId entry found stateId stored inside

-----------------------------------------------------------------------------------------
-- What comes to an end
-----------------------------------------------------------------------------------------

/-- The pointers of the state are live or null, so that it can be destroyed. -/
def State.ChpState.Whole (state : ChpState) : Prop :=
  state.pointers = .live ∨ state.pointers = .stale 0

theorem State.ChpState.destroy_iff {state : ChpState} : state.destroy = .ok () ↔ state.Whole := by
  by_cases whole : state.Whole
  · exact iff_of_true (if_pos whole) whole
  · refine iff_of_false (fun destroyed => ?_) whole
    cases (if_neg whole).symm.trans destroyed

theorem QuantumSystem.destroy_iff {system : QuantumSystem}
    : system.destroy = .ok ()
      ↔ ∀ stateId entry, system.states.find stateId = some entry → entry.item.Whole := by
  have each (entry : Entry ChpState) : entry.item.destroy.isOk = true ↔ entry.item.Whole := by
    rw [← ChpState.destroy_iff]
    cases entry.item.destroy <;> simp [Except.isOk, Except.toBool]
  simp only [QuantumSystem.destroy, MsContainer.all_entries_iff, each, ite_eq_left_iff,
    reduceCtorEq, imp_false, not_not]

section Programs

variable {program : Program} {state : ChpState} {world : World}

theorem encodeState_completes
    : Completes Prod.fst (State.encodeState program world)
      ↔ ∃ ok m, State.runProgram .allocated program ⟨.fresh, .empty, world⟩ = some (ok, m)
          ∧ m.state.pointers ≠ .freedTwice := by
  constructor
  · rintro ⟨⟨state, left⟩, encodes, once⟩
    obtain ⟨⟨ok, m⟩, ran, same⟩ := Option.bind_eq_some_iff.mp encodes
    cases same
    exact ⟨ok, m, ran, once⟩
  · rintro ⟨ok, m, ran, once⟩
    exact ⟨(m.state, m.world), Option.bind_eq_some_iff.mpr ⟨_, ran, rfl⟩, once⟩

theorem modifyState_completes
    : Completes (fun (_, state, _) => state) (State.modifyState state program world)
      ↔ ∃ ok m, State.runProgram .allocated program ⟨state, .empty, world⟩ = some (ok, m)
          ∧ m.state.pointers ≠ .freedTwice := by
  constructor
  · rintro ⟨⟨ok, state, left⟩, modifies, once⟩
    obtain ⟨⟨ok, m⟩, ran, same⟩ := Option.bind_eq_some_iff.mp modifies
    cases same
    exact ⟨ok, m, ran, once⟩
  · rintro ⟨ok, m, ran, once⟩
    exact ⟨(ok, m.state, m.world), Option.bind_eq_some_iff.mpr ⟨_, ran, rfl⟩, once⟩

theorem measureState_completes
    : Completes (fun (_, m) => m.state) (State.measureState state program .empty world)
      ↔ ∃ ok m, State.runProgram .allocated program ⟨state, .empty, world⟩ = some (ok, m)
          ∧ m.state.pointers ≠ .freedTwice := by
  simp [Completes, State.measureState]

end Programs

-----------------------------------------------------------------------------------------
-- Interpreters
-----------------------------------------------------------------------------------------

theorem instantiateDialect_ok {name : List Byte} {dialect : Language.Dialect}
    (made : instantiateDialect name = .ok dialect)
    : text name = chpextName ∧ dialect = chpext := by
  rw [instantiateDialect] at made
  split at made
  · rename_i known
    cases made
    exact ⟨known, rfl⟩
  · cases made

theorem initializeInterpreter_keeps (dialect : List Byte)
    : (initializeInterpreter dialect).Keeps Interpreters.Known := by
  intro interpreters known
  cases present : interpreters.find (text dialect) with
  | some entry =>
      rw [initializeInterpreter_present present]
      exact known
  | none =>
      cases makes : instantiateDialect dialect with
      | ok made =>
          rw [initializeInterpreter_known present makes]
          exact MsContainer.All.store known (instantiateDialect_ok makes)
      | error e =>
          rw [initializeInterpreter_unknown present makes]
          exact known

theorem compileProgram_keeps (dialect data : List Byte) (lineDelimiter : Byte)
    : (compileProgram dialect data lineDelimiter).Keeps Interpreters.Known := by
  refine (initializeInterpreter_keeps dialect).bind fun _ => ?_
  refine Run.Keeps.within (MsContainer.keeps_editItem
    (P := fun name interpreter => name = chpextName ∧ interpreter.dialect = chpext)
    (Q := fun _ => True) (fun _ holds => holds)) ?_ ?_
  · exact fun _ known => ⟨known, trivial⟩
  · exact fun _ _ _ kept => kept.1

/-- What is compiled holds a list of instructions. -/
theorem compiled_holds {interpreters : Interpreters} {dialect data : List Byte}
    {lineDelimiter : Byte} {program : Program}
    (compiles : compiled interpreters dialect data lineDelimiter = .ok program)
    : ∃ instructions, program.instructions.Holds instructions := by
  unfold compiled at compiles
  split at compiles
  · split at compiles
    · cases compiles
    · exact Language.parseProgram_holds compiles
  · split at compiles
    · exact Language.parseProgram_holds compiles
    · cases compiles

-----------------------------------------------------------------------------------------
-- Quantum systems
-----------------------------------------------------------------------------------------

namespace QuantumSystem

variable (program : Program)

theorem programInsertState_keeps
    : (programInsertState program).Keeps (fun parts => parts.1.Formed) := by
  rintro ⟨system, world⟩ formed
  rcases returned_cases Prod.fst (State.encodeState program world) with
    ⟨⟨state, left⟩, returns, encodes, _⟩ | ⟨stops, _⟩
  · simp only [programInsertState, returns]
    obtain ⟨⟨ok, m⟩, ran, same⟩ := Option.bind_eq_some_iff.mp encodes
    cases same
    have created := State.runProgram_formed State.ChpState.Formed.fresh ran
    exact MsContainer.keeps_insert (fun _ => created) system.states formed
  · simp only [programInsertState, stops]
    exact formed

theorem editState_keeps {α : Type} (stateId : UInt64) {f : Run (ChpState × World) α}
    (keeps : f.Keeps (fun parts => parts.1.Formed))
    : (editState stateId f).Keeps (fun parts => parts.1.Formed) := by
  rintro ⟨system, world⟩ formed
  have edits : (MsContainer.editItem stateId f).Keeps
      (fun parts => parts.1.All (fun _ state => state.Formed) ∧ True) :=
    MsContainer.keeps_editItem (P := fun _ state => state.Formed) (Q := fun _ => True)
      (fun parts holds => ⟨keeps parts holds.1, trivial⟩)
  exact (edits (system.states, world) ⟨formed, trivial⟩).1

theorem modifyItem_keeps : (modifyItem program).Keeps (fun parts => parts.1.Formed) := by
  rintro ⟨state, world⟩ formed
  rcases modifyItem_cases program state world with ⟨ok, next, left, ran, _, edits⟩ | ⟨stops, _⟩
  · rw [edits]
    obtain ⟨⟨went, m⟩, inner, same⟩ := Option.bind_eq_some_iff.mp ran
    cases same
    exact State.runProgram_formed formed inner
  · rw [stops]
    exact formed

theorem measureItem_keeps (buffer : State.StringBuffer)
    : (measureItem program buffer).Keeps (fun parts => parts.1.Formed) := by
  rintro ⟨state, world⟩ formed
  rcases measureItem_cases program buffer state world with ⟨ok, m, ran, _, edits⟩ | ⟨stops, _⟩
  · rw [edits]
    exact State.runProgram_formed formed ran
  · rw [stops]
    exact formed

theorem programComputeResult_keeps (buffer : State.StringBuffer)
    : (programComputeResult program buffer).Keeps (fun parts => parts.1.Formed) := by
  rintro ⟨system, world⟩ formed
  rcases programComputeResult_cases program buffer system world with
    ⟨ok, m, _, _, computes⟩ | ⟨stops, _⟩
  · rw [computes]
    exact formed
  · rw [stops]
    exact formed

omit program in
theorem deleteStateElement_keeps (stateId : UInt64)
    : (deleteStateElement stateId).Keeps (fun parts => parts.1.Formed) := by
  rintro ⟨system, world⟩ formed
  exact MsContainer.keeps_erase system.states formed

end QuantumSystem

-----------------------------------------------------------------------------------------
-- Operations
-----------------------------------------------------------------------------------------

namespace Universe

section Operations

variable {α : Type} (systemId stateId kernelId : UInt64) (dialect data : List Byte)
  (lineDelimiter : Byte) (buffer : State.StringBuffer)

theorem editSystem_keeps {f : Run (QuantumSystem × Interpreters × World) α}
    (keeps : f.Keeps (fun parts => parts.1.Formed ∧ parts.2.1.Known))
    : (editSystem systemId f).Keeps Formed := by
  refine Run.Keeps.within (MsContainer.keeps_editItem (P := fun _ system => system.Formed)
    (Q := fun rest => rest.1.Known) keeps) ?_ ?_
  · exact fun u formed => ⟨formed.systems, formed.interpreters⟩
  · exact fun u parts _ kept => ⟨kept.1, kept.2⟩

variable {dialect data lineDelimiter}

theorem withProgram_keeps {f : Program → Run (QuantumSystem × World) α}
    (keeps : ∀ program, (f program).Keeps (fun parts => parts.1.Formed))
    : (withProgram dialect data lineDelimiter f).Keeps
        (fun parts => parts.1.Formed ∧ parts.2.1.Known) := by
  refine Run.Keeps.bind ?_ fun program => ?_
  · refine (compileProgram_keeps dialect data lineDelimiter).within ?_ ?_
    · exact fun parts formed => formed.2
    · exact fun parts interpreters formed known => ⟨formed.1, known⟩
  · refine (keeps program).within ?_ ?_
    · exact fun parts formed => formed.1
    · exact fun parts next formed kept => ⟨kept, formed.2⟩

theorem createState_keeps : (createState systemId dialect data lineDelimiter).Keeps Formed :=
  editSystem_keeps systemId (withProgram_keeps QuantumSystem.programInsertState_keeps)

theorem modifyState_keeps
    : (modifyState systemId stateId dialect data lineDelimiter).Keeps Formed :=
  editSystem_keeps systemId (withProgram_keeps fun program =>
    QuantumSystem.editState_keeps stateId (QuantumSystem.modifyItem_keeps program))

theorem measureState_keeps
    : (measureState systemId stateId dialect data lineDelimiter buffer).Keeps Formed :=
  editSystem_keeps systemId (withProgram_keeps fun program =>
    QuantumSystem.editState_keeps stateId (QuantumSystem.measureItem_keeps program buffer))

theorem computeResult_keeps
    : (computeResult systemId dialect data lineDelimiter buffer).Keeps Formed :=
  editSystem_keeps systemId (withProgram_keeps fun program =>
    QuantumSystem.programComputeResult_keeps program buffer)

theorem deleteState_keeps : (deleteState systemId stateId).Keeps Formed := by
  refine editSystem_keeps systemId ((QuantumSystem.deleteStateElement_keeps stateId).within ?_ ?_)
  · exact fun parts formed => formed.1
  · exact fun parts next formed kept => ⟨kept, formed.2⟩

theorem createSystem_keeps (stateType : List Byte) : (createSystem stateType).Keeps Formed := by
  refine Run.Keeps.within (MsContainer.keeps_insertWith (P := fun _ system => system.Formed) ?_)
    (fun _ formed => formed.systems) (fun _ _ formed kept => ⟨kept, formed.interpreters⟩)
  intro key system made
  unfold QuantumSystem.new at made
  split at made
  · cases made
    exact MsContainer.all_new 0
  · cases made

theorem deleteSystem_keeps : (deleteSystem systemId).Keeps Formed :=
  Run.Keeps.within MsContainer.keeps_erase (fun _ formed => formed.systems)
    (fun _ _ formed kept => ⟨kept, formed.interpreters⟩)

theorem compileMacro_keeps : (compileMacro kernelId dialect data lineDelimiter).Keeps Formed := by
  refine Run.Keeps.bind ?_ fun _ => ?_
  · refine (initializeInterpreter_keeps dialect).within ?_ ?_
    · exact fun u formed => formed.interpreters
    · exact fun u interpreters formed known => ⟨formed.systems, known⟩
  · refine Run.Keeps.within (MsContainer.keeps_editItem (P := fun _ _ => True)
      (Q := fun interpreters => interpreters.Known) ?_) ?_ ?_
    · refine Run.Keeps.bind ?_ fun program => ?_
      · refine (compileProgram_keeps dialect data lineDelimiter).within ?_ ?_
        · exact fun parts formed => formed.2
        · exact fun parts interpreters formed known => ⟨formed.1, known⟩
      · exact fun parts formed => formed
    · exact fun u formed => ⟨fun _ _ _ => trivial, formed.interpreters⟩
    · exact fun u parts formed kept => ⟨formed.systems, kept.2⟩

theorem createKernel_keeps : createKernel.Keeps Formed :=
  fun _ formed => ⟨formed.systems, formed.interpreters⟩

theorem deleteKernel_keeps : (deleteKernel kernelId).Keeps Formed :=
  fun _ formed => ⟨formed.systems, formed.interpreters⟩

end Operations

end Universe

end Sabot
