import Sabot.Language.Assembly
import Sabot.State.Simulation
import Sabot.Universe.Returning

/-! A circuit gives the same results whether it is run by one request or split over several. -/

namespace Sabot.State

open Sabot.Language (Instruction Program)

-----------------------------------------------------------------------------------------
-- Runs do not depend on what was written before
-----------------------------------------------------------------------------------------

/-- Everything but a measurement leaves the buffer alone. -/
theorem step_silent (d : Discipline) {instruction : Instruction}
    (silent : isMeasure instruction = false) (m : Machine) (buffer : StringBuffer)
    : step d { m with buffer := buffer } instruction
      = (step d m instruction).map (fun (ok, next) => (ok, { next with buffer := buffer })) := by
  obtain ⟨bytecode, operands⟩ := instruction
  cases bytecode with
  | measure => cases silent
  | _ => simp [step, Option.map_bind]

/-- A measurement adds its outcome to whatever the buffer holds. -/
theorem step_measure (d : Discipline) (operands : List.Vector Language.Operand _) (m : Machine)
    : step d m ⟨.measure, operands⟩
      = (measure d operands.head.toNat m.world.coins m.state).bind (fun (outcome, state, coins) =>
          (m.buffer.add [character outcome]).map (fun buffer =>
            (true, ⟨state, buffer, { m.world with coins := coins }⟩))) := by
  simp [step, character, Option.map_eq_bind]

/-- `next` is what the machine becomes when it writes `out`, and with any other buffer it becomes
the same and writes the same.
-/
def Writes (run : Machine → Option (Bool × Machine)) (m : Machine) (ok : Bool) (next : Machine)
    (out : List UInt8) : Prop :=
  ∀ buffer written, buffer.Holds written
    → ∃ grown : StringBuffer, grown.Holds (written ++ out)
      ∧ run { m with buffer := buffer } = some (ok, { next with buffer := grown })

theorem step_writes (d : Discipline) {m next : Machine} {instruction : Instruction} {ok : Bool}
    (ran : step d m instruction = some (ok, next))
    : ∃ out, Writes (step d · instruction) m ok next out := by
  cases silent : isMeasure instruction with
  | false =>
      refine ⟨[], fun buffer written holds => ⟨buffer, by simpa using holds, ?_⟩⟩
      exact (step_silent d silent m buffer).trans (by rw [ran]; rfl)
  | true =>
      obtain ⟨bytecode, operands⟩ := instruction
      obtain rfl : bytecode = .measure := by simpa [isMeasure] using silent
      rw [step_measure, Option.bind_eq_some_iff] at ran
      obtain ⟨⟨outcome, state, coins⟩, measured, added⟩ := ran
      obtain ⟨old, _, same⟩ := Option.map_eq_some_iff.mp added
      cases same
      refine ⟨[character outcome], fun buffer written holds => ?_⟩
      obtain ⟨grown, grows, holdsG⟩ := holds.add [character outcome]
      refine ⟨grown, holdsG, ?_⟩
      refine (step_measure d operands _).trans ?_
      simp only [measured, Option.bind_some, grows, Option.map_some]

/-- A whole run writes the same, whatever the buffer held at its start. -/
theorem runInstructions_writes (d : Discipline) {instructions : List Instruction}
    {m next : Machine} {ok : Bool}
    (ran : runInstructions d instructions m = some (ok, next))
    : ∃ out, Writes (runInstructions d instructions) m ok next out := by
  induction instructions generalizing m with
  | nil =>
      cases ran
      exact ⟨[], fun buffer written holds => ⟨buffer, by simpa using holds, rfl⟩⟩
  | cons instruction rest ih =>
      simp only [runInstructions, Option.bind_eq_bind, Option.bind_eq_some_iff] at ran
      obtain ⟨⟨ok', middle⟩, stepped, later⟩ := ran
      obtain ⟨first, writesFirst⟩ := step_writes d stepped
      cases ok' with
      | false =>
          cases later
          refine ⟨first, fun buffer written holds => ?_⟩
          obtain ⟨grown, holdsG, ranG⟩ := writesFirst buffer written holds
          exact ⟨grown, holdsG, by simp [runInstructions, ranG]⟩
      | true =>
          obtain ⟨second, writesSecond⟩ := ih later
          refine ⟨first ++ second, fun buffer written holds => ?_⟩
          obtain ⟨grown, holdsG, ranG⟩ := writesFirst buffer written holds
          obtain ⟨last, holdsL, ranL⟩ := writesSecond grown _ holdsG
          refine ⟨last, by rwa [← List.append_assoc], ?_⟩
          simp [runInstructions, ranG, ranL]

-----------------------------------------------------------------------------------------
-- Splitting a run
-----------------------------------------------------------------------------------------

/-- A circuit of `n` qubits runs through, and from its middle the second part gives the same
state and the same results, whether the first part's results were kept or not.
-/
theorem run_split {n : Nat} (small : n < 2 ^ 31) {rest second : List Instruction}
    (withinRest : ∀ instruction ∈ rest, instruction.Within n)
    (withinSecond : ∀ instruction ∈ second, instruction.Within n)
    {world : World} (granted : Granted world.grants)
    : ∃ middle final out₁ out₂, ∃ buffer : StringBuffer,
        runInstructions .allocated (Instruction.init n :: rest) ⟨ChpState.fresh, .empty, world⟩
          = some (true, middle)
        ∧ middle.buffer.Holds out₁
        ∧ runInstructions .allocated (Instruction.init n :: rest ++ second)
            ⟨ChpState.fresh, .empty, world⟩ = some (true, final)
        ∧ final.buffer.Holds (out₁ ++ out₂)
        ∧ runInstructions .allocated second ⟨middle.state, .empty, middle.world⟩
            = some (true, { final with buffer := buffer })
        ∧ buffer.Holds out₂
        ∧ middle.state.pointers = .live ∧ final.state.pointers = .live := by
  have empty : (.empty : StringBuffer).Holds [] := ManagedContainer.empty_holds (by decide)
  obtain ⟨start, ranInit, running, _⟩ := runInstructions_init small .allocated rest
    (m := ⟨ChpState.fresh, .empty, world⟩) granted empty
  obtain ⟨_, middle, ranRest, runningM, _⟩ := runInstructions_simulates running .allocated withinRest
  obtain ⟨_, last, ranSecond, runningL, _⟩ :=
    runInstructions_simulates runningM .allocated withinSecond
  obtain ⟨out₂, writes⟩ := runInstructions_writes .allocated ranSecond
  -- The same run of the second part, once behind the first results and once on an empty buffer.
  obtain ⟨grown, holdsG, ranG⟩ := writes middle.buffer _ runningM.buffer
  obtain ⟨buffer, holdsB, ranB⟩ := writes .empty [] empty
  have whole : { last with buffer := grown } = last := by
    have := ranG.symm.trans ranSecond
    simpa using this
  have live {m : Machine} {written : List UInt8} (running : Running n m written)
      : m.state.pointers = .live := running.sound.layout.live
  refine ⟨middle, last, _, out₂, buffer, by rw [ranInit, ranRest], runningM.buffer, ?_, ?_, ranB,
    by simpa using holdsB, live runningM, live runningL⟩
  · rw [runInstructions_append, ranInit, ranRest]
    simpa using ranSecond
  · rw [← whole]
    exact holdsG

end Sabot.State

namespace Sabot.Language

/-- Two texts joined by a delimiter are the text of all their instructions. -/
theorem assembly_append (lineDelimiter : Byte) {first second : List Instruction}
    (some₁ : first ≠ []) (some₂ : second ≠ [])
    : assembly lineDelimiter first false ++ lineDelimiter :: assembly lineDelimiter second false
      = assembly lineDelimiter (first ++ second) false := by
  induction first with
  | nil => exact absurd rfl some₁
  | cons instruction rest ih =>
      cases rest with
      | nil =>
          obtain ⟨next, more, rfl⟩ := List.exists_cons_of_ne_nil some₂
          simp [assembly]
      | cons next more =>
          have tail := ih (by simp)
          simp only [assembly, List.map_cons, List.cons_append, intercalate_cons_cons] at tail ⊢
          simpa using tail

end Sabot.Language

namespace Sabot.QuantumSystem

open Sabot.Language (Program)
open Sabot.State (ChpState StringBuffer World)

variable {system : QuantumSystem} {program : Program} {world left : World} {state : ChpState}

theorem programInsertState_live (numbered : system.states.Numbered)
    (ran : State.encodeState program world = some (state, left)) (live : state.pointers = .live)
    : programInsertState program (system, world)
      = (.ok system.states.keyGenerator,
          ⟨{ system.states with keyGenerator := system.states.keyGenerator + 1 }.store
            system.states.keyGenerator ⟨false, state⟩⟩, left) := by
  have returns : returned Prod.fst (State.encodeState program world) = .ok (state, left) :=
    returned_completes ran (by simp [live])
  simp only [programInsertState, returns, numbered.insert]

variable {stateId : UInt64} (free : system.states.find stateId = some ⟨false, state⟩)
include free

theorem programMeasureState_live {buffer : StringBuffer} {ok : Bool} {m : State.Machine}
    (ran : State.measureState state program buffer world = some (ok, m))
    (live : m.state.pointers = .live)
    : programMeasureState program stateId buffer (system, world)
      = (.ok (ok, m.buffer), ⟨system.states.store stateId ⟨false, m.state⟩⟩, m.world) := by
  have edited : measureItem program buffer (state, world)
      = (.ok (ok, m.buffer), m.state, m.world) :=
    measureItem_completes ran (by simp [live])
  simp only [programMeasureState, editState, MsContainer.editItem_ok free edited]

theorem programModifyState_live {ok : Bool} {next : ChpState}
    (ran : State.modifyState state program world = some (ok, next, left))
    (live : next.pointers = .live)
    : programModifyState program stateId (system, world)
      = (.ok ok, ⟨system.states.store stateId ⟨false, next⟩⟩, left) := by
  have edited : modifyItem program (state, world) = (.ok ok, next, left) :=
    modifyItem_completes ran (by simp [live])
  simp only [programModifyState, editState, MsContainer.editItem_ok free edited]

omit free in
theorem programComputeResult_live {buffer : StringBuffer} {ok : Bool} {m : State.Machine}
    (ran : State.computeResult program buffer world = some (ok, m))
    (live : m.state.pointers = .live)
    : programComputeResult program buffer (system, world)
      = (.ok (ok, m.buffer), system, m.world) := by
  have destroyed : m.state.destroy = .ok () := if_pos (Or.inl live)
  rw [programComputeResult_completes ran (by simp [live]), destroyed]
  rfl

end Sabot.QuantumSystem

namespace Sabot.Universe

open Sabot.Language (Byte Instruction Program Delimits assembly chpext cString parseProgram)
open Sabot.State (ChpState Granted StringBuffer World)

-----------------------------------------------------------------------------------------
-- Requests in a row
-----------------------------------------------------------------------------------------

/-- The interpreter of `chpext` is free, or there is none yet. -/
def Speaks (interpreters : Interpreters) : Prop :=
  ∀ entry, interpreters.find chpextName = some entry → entry = ⟨false, ⟨chpext⟩⟩

/-- The interpreter compiles, and is free again afterwards. -/
theorem compileProgram_speaks {interpreters : Interpreters} (speaks : Speaks interpreters)
    {dialect data : List Byte} (named : text dialect = chpextName) {lineDelimiter : Byte}
    {program : Program} (parsed : parseProgram chpext data lineDelimiter = .ok program)
    : ∃ left, compileProgram dialect data lineDelimiter interpreters = (.ok program, left)
        ∧ Speaks left := by
  have knows : interpreters.find (text dialect) = some ⟨false, ⟨chpext⟩⟩
      ∨ interpreters.find (text dialect) = none ∧ instantiateDialect dialect = .ok chpext := by
    cases present : interpreters.find (text dialect) with
    | some entry =>
        rw [named] at present
        exact Or.inl (congrArg some (speaks entry present))
    | none => exact Or.inr ⟨rfl, if_pos named⟩
  obtain ⟨left, compiles, found⟩ := compileProgram_ok data lineDelimiter knows parsed
  refine ⟨left, compiles, fun entry present => ?_⟩
  rcases found chpextName entry present with old | ⟨_, new⟩
  · exact speaks entry old
  · exact new

/-- A request on a free system whose text parses and whose program's function returns. -/
theorem editSystem_speaks {α : Type} {u : Universe} {systemId : UInt64} {system next : QuantumSystem}
    (free : u.quantumSystems.find systemId = some ⟨false, system⟩) (speaks : Speaks u.interpreters)
    {dialect data : List Byte} (named : text dialect = chpextName) {lineDelimiter : Byte}
    {program : Program} (parsed : parseProgram chpext data lineDelimiter = .ok program)
    {f : Program → Run (QuantumSystem × World) α} {a : α} {left : World}
    (ran : f program (system, u.world) = (.ok a, next, left))
    : ∃ interpreters, Speaks interpreters
        ∧ editSystem systemId (withProgram dialect data lineDelimiter f) u
          = (.ok a, {
              u with
              quantumSystems := u.quantumSystems.store systemId ⟨false, next⟩
              interpreters := interpreters
              world := left }) := by
  obtain ⟨interpreters, compiles, speaksI⟩ := compileProgram_speaks speaks named parsed
  exact ⟨interpreters, speaksI, editSystem_compiled free compiles ran⟩

/-- Splitting a circuit over requests does not change it. `compute_result` on two texts joined by
the delimiter returns the results of the first text followed by those that `measure_state` returns
for the second, on the state that `create_state` has made of the first; and the stored state is the
one `compute_result` ends with, also when `modify_state` is called in place of `measure_state`.
-/
theorem requests_split {n : Nat} (small : n < 2 ^ 31) {rest second : List Instruction}
    (withinRest : ∀ instruction ∈ rest, instruction.Within n)
    (withinSecond : ∀ instruction ∈ second, instruction.Within n)
    (nonempty : second ≠ []) {lineDelimiter : Byte} (delimits : Delimits lineDelimiter)
    {u : Universe} {systemId : UInt64} {system : QuantumSystem}
    (free : u.quantumSystems.find systemId = some ⟨false, system⟩)
    (numbered : system.states.Numbered) (speaks : Speaks u.interpreters)
    (granted : Granted u.world.grants) {dialect : List Byte} (named : text dialect = chpextName)
    (after₁ after₂ after : List Byte)
    : let t₁ := assembly lineDelimiter (Instruction.init n :: rest) false
      let t₂ := assembly lineDelimiter second false
      ∃ program₁ m₁ program m stateId u₁ out₁ out₂,
        parseProgram chpext (cString t₁ after₁) lineDelimiter = .ok program₁
        ∧ State.computeResult program₁ .empty u.world = some (true, m₁)
        ∧ m₁.buffer.Holds out₁
        ∧ parseProgram chpext (cString (t₁ ++ lineDelimiter :: t₂) after) lineDelimiter
          = .ok program
        ∧ State.computeResult program .empty u.world = some (true, m)
        ∧ (∃ u', computeResult systemId dialect (cString (t₁ ++ lineDelimiter :: t₂) after)
            lineDelimiter .empty u = (.ok (true, m.buffer), u'))
        ∧ m.buffer.Holds (out₁ ++ out₂)
        ∧ createState systemId dialect (cString t₁ after₁) lineDelimiter u = (.ok stateId, u₁)
        ∧ (∃ results u₂, measureState systemId stateId dialect (cString t₂ after₂) lineDelimiter
            .empty u₁ = (.ok (true, results), u₂)
          ∧ results.Holds out₂ ∧ u₂.tableau systemId stateId = some m.state)
        ∧ ∃ u₃, modifyState systemId stateId dialect (cString t₂ after₂) lineDelimiter u₁
            = (.ok true, u₃)
          ∧ u₃.tableau systemId stateId = some m.state := by
  intro t₁ t₂
  obtain ⟨middle, final, out₁, out₂, results, ranFirst, holdsFirst, ranWhole, holdsWhole,
    ranSecond, holdsSecond, liveMiddle, liveFinal⟩ :=
    State.run_split small withinRest withinSecond granted
  -- The three texts parse to the programs of their instructions.
  obtain ⟨program₁, parsed₁, stored₁⟩ := Language.parseProgram_of_assembly delimits [] (by simp)
    (Instruction.init n :: rest) false (by simp) after₁
  obtain ⟨program₂, parsed₂, stored₂⟩ := Language.parseProgram_of_assembly delimits [] (by simp)
    second false (by simp) after₂
  obtain ⟨program, parsed, storedWhole⟩ := Language.parseProgram_of_assembly delimits [] (by simp)
    (Instruction.init n :: rest ++ second) false (by simp) after
  rw [← Language.assembly_append lineDelimiter (by simp) nonempty] at parsed
  rw [← State.runProgram_eq .allocated stored₁] at ranFirst
  rw [← State.runProgram_eq .allocated storedWhole] at ranWhole
  rw [← State.runProgram_eq .allocated stored₂] at ranSecond
  have computed : State.computeResult program .empty u.world = some (true, final) := ranWhole
  obtain ⟨_, _, computes⟩ := editSystem_speaks free speaks named parsed
    (f := fun program => QuantumSystem.programComputeResult program .empty)
    (QuantumSystem.programComputeResult_live computed liveFinal)
  -- `create_state` stores the state in the middle under the next id.
  have encoded : State.encodeState program₁ u.world = some (middle.state, middle.world) := by
    simp [State.encodeState, ranFirst]
  let stateId := system.states.keyGenerator
  let states := { system.states with keyGenerator := stateId + 1 }.store stateId
    ⟨false, middle.state⟩
  obtain ⟨u₁, created, free₁, speaks₁, world₁⟩ : ∃ u₁ : Universe,
      createState systemId dialect (cString t₁ after₁) lineDelimiter u = (.ok stateId, u₁)
      ∧ u₁.quantumSystems.find systemId = some ⟨false, ⟨states⟩⟩
      ∧ Speaks u₁.interpreters ∧ u₁.world = middle.world := by
    obtain ⟨_, speaksI, created⟩ := editSystem_speaks free speaks named parsed₁
      (QuantumSystem.programInsertState_live numbered encoded liveMiddle)
    exact ⟨_, created, MsContainer.find_store _ _, speaksI, rfl⟩
  -- The requests on the stored state find it free, and the interpreter too.
  have held : states.find stateId = some ⟨false, middle.state⟩ := MsContainer.find_store _ _
  have measured : State.measureState middle.state program₂ .empty u₁.world
      = some (true, { final with buffer := results }) := by
    rw [world₁]
    exact ranSecond
  have modified : State.modifyState middle.state program₂ u₁.world
      = some (true, final.state, final.world) := by
    simp [State.modifyState, world₁, ranSecond]
  obtain ⟨_, _, measures⟩ := editSystem_speaks free₁ speaks₁ named parsed₂
    (f := fun program => QuantumSystem.programMeasureState program stateId .empty)
    (QuantumSystem.programMeasureState_live (m := { final with buffer := results }) held measured
      liveFinal)
  obtain ⟨_, _, modifies⟩ := editSystem_speaks free₁ speaks₁ named parsed₂
    (f := fun program => QuantumSystem.programModifyState program stateId)
    (QuantumSystem.programModifyState_live held modified liveFinal)
  refine ⟨program₁, middle, program, final, stateId, u₁, out₁, out₂, parsed₁, ranFirst, holdsFirst,
    parsed, computed, ⟨_, computes⟩, holdsWhole, created,
    ⟨results, _, measures, holdsSecond, ?_⟩, _, modifies, ?_⟩
  · simp [tableau]
  · simp [tableau]

/-- A Bell pair, with one qubit measured by each of two requests. -/
theorem requests_split_bell
    : ∃ stateId u₁ out₁ out₂,
        (∃ results u', computeResult 0 (chpextName ++ [0])
            (cString (assembly 10 [Instruction.init 2, ⟨.hadamard, .cons 0 .nil⟩,
                ⟨.measure, .cons 0 .nil⟩] false
              ++ 10 :: assembly 10 [⟨.cnot, .cons 0 (.cons 1 .nil)⟩,
                ⟨.measure, .cons 1 .nil⟩] false) [])
            10 .empty oneSystem = (.ok (true, results), u') ∧ results.Holds (out₁ ++ out₂))
        ∧ createState 0 (chpextName ++ [0])
            (cString (assembly 10 [Instruction.init 2, ⟨.hadamard, .cons 0 .nil⟩,
              ⟨.measure, .cons 0 .nil⟩] false) []) 10 oneSystem = (.ok stateId, u₁)
        ∧ ∃ results u₂, measureState 0 stateId (chpextName ++ [0])
            (cString (assembly 10 [⟨.cnot, .cons 0 (.cons 1 .nil)⟩,
              ⟨.measure, .cons 1 .nil⟩] false) [])
            10 .empty u₁ = (.ok (true, results), u₂) ∧ results.Holds out₂ := by
  have free : oneSystem.quantumSystems.find 0 = some ⟨false, ⟨.new 0⟩⟩ := MsContainer.find_store _ _
  have delimits : Delimits 10 := ⟨by decide, by decide⟩
  have within₁ : ∀ instruction ∈ ([⟨.hadamard, .cons 0 .nil⟩, ⟨.measure, .cons 0 .nil⟩]
      : List Instruction), instruction.Within 2 := by
    decide
  have within₂ : ∀ instruction ∈ ([⟨.cnot, .cons 0 (.cons 1 .nil)⟩, ⟨.measure, .cons 1 .nil⟩]
      : List Instruction), instruction.Within 2 := by
    decide
  obtain ⟨_, _, _, m, stateId, u₁, out₁, out₂, _, _, _, _, _, ⟨u', computes⟩, holds, created,
    ⟨results, u₂, measures, holds₂, _⟩, _⟩ :=
    requests_split (by decide) within₁ within₂ (by simp) delimits free
      (by intro key used; simp at used)
      (by intro entry found; simp [oneSystem, Universe.new] at found) (fun _ _ => rfl)
      (show text (chpextName ++ [0]) = chpextName from rfl) [] [] []
  exact ⟨stateId, u₁, out₁, out₂, ⟨m.buffer, u', computes, holds⟩, created, results, u₂, measures,
    holds₂⟩

end Sabot.Universe
