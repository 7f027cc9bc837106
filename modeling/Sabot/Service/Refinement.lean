import Sabot.Service
import Sabot.Universe.Requests
import Sabot.Universe.Splitting

/-! The universe implements the service: its containers are the registries, each stored tableau
stabilizes the vector of its register, and every request does what its command does.
-/

namespace Sabot

-----------------------------------------------------------------------------------------
-- Containers as registries
-----------------------------------------------------------------------------------------

namespace MsContainer

variable {ι α : Type} {R : Entry ι → α → Prop} {c : MsContainer UInt64 ι} {r : Registry α}
  {key : UInt64} {entry : Entry ι} {a old : α}

/-- The container holds the items of the registry, each under its number. -/
structure Implements (R : Entry ι → α → Prop) (c : MsContainer UInt64 ι) (r : Registry α)
    : Prop where
  next : c.keyGenerator.toNat = r.next
  items : ∀ key, Option.Rel R (c.find key) (r.item key.toNat)

theorem implements_new : (new 0 : MsContainer UInt64 ι).Implements R .empty where
  next := rfl
  items key := by
    rw [find_new]
    exact .none

theorem Implements.found (implements : c.Implements R r) (present : r.item key.toNat = some a)
    : ∃ entry, c.find key = some entry ∧ R entry a := by
  have related := implements.items key
  rw [present] at related
  cases found : c.find key with
  | none =>
      rw [found] at related
      cases related
  | some entry =>
      rw [found] at related
      cases related with
      | some related => exact ⟨entry, rfl, related⟩

theorem Implements.stored (implements : c.Implements R r) (found : c.find key = some entry)
    : ∃ a, r.item key.toNat = some a ∧ R entry a := by
  have related := implements.items key
  rw [found] at related
  cases present : r.item key.toNat with
  | none =>
      rw [present] at related
      cases related
  | some a =>
      rw [present] at related
      cases related with
      | some related => exact ⟨a, rfl, related⟩

theorem Implements.numbered (implements : c.Implements R r) : c.Numbered := by
  intro key used
  obtain ⟨entry, found⟩ := Option.ne_none_iff_exists'.mp used
  obtain ⟨a, present, _⟩ := implements.stored found
  rw [implements.next]
  exact Registry.lt_next present

theorem Implements.add (implements : c.Implements R r) (room : r.next + 1 < 2 ^ 64)
    (related : R entry a)
    : ({ c with keyGenerator := c.keyGenerator + 1 }.store c.keyGenerator entry).Implements R
        (r.add a) where
  next := by
    have next := implements.next
    simp only [store, UInt64.toNat_add, Registry.next_add]
    rw [next, Nat.mod_eq_of_lt (by simpa using room)]
    rfl
  items key := by
    by_cases same : key = c.keyGenerator
    · rw [same, find_store, implements.next, Registry.item_add]
      exact .some related
    · have ne : key.toNat ≠ r.next := by
        rw [← implements.next]
        exact fun equal => same (UInt64.toNat_inj.mp equal)
      rw [find_store_of_ne _ _ same, Registry.item_add_of_ne ne]
      exact implements.items key

theorem Implements.set (implements : c.Implements R r) (present : r.item key.toNat = some old)
    (related : R entry a)
    : (c.store key entry).Implements R (r.set key.toNat a) where
  next := implements.next
  items other := by
    by_cases same : other = key
    · rw [same, find_store, Registry.item_set present]
      exact .some related
    · rw [find_store_of_ne _ _ same,
        Registry.item_set_of_ne (fun equal => same (UInt64.toNat_inj.mp equal))]
      exact implements.items other

theorem Implements.remove (implements : c.Implements R r) (key : UInt64)
    : (c.remove key).Implements R (r.remove key.toNat) where
  next := implements.next
  items other := by
    by_cases same : other = key
    · rw [same, find_remove, Registry.item_remove]
      exact .none
    · rw [find_remove_of_ne _ same,
        Registry.item_remove_of_ne (fun equal => same (UInt64.toNat_inj.mp equal))]
      exact implements.items other

end MsContainer

namespace Universe

open Stabilizer (Evolution StateVector Tableau)
open Sabot.Language (Byte Instruction Program chpext parseProgram)
open Sabot.State (ChpState Granted Machine Running Sound StringBuffer World character)

-----------------------------------------------------------------------------------------
-- Registers
-----------------------------------------------------------------------------------------

/-- A stored state that is not in use stabilizes the vector of a register. -/
structure HoldsRegister (entry : Entry ChpState) (r : Register) : Prop where
  free : entry.flag = false
  sound : Sound r.qubits entry.item
  valid : (entry.item.tableau r.qubits).Valid
  stabilizes : (entry.item.tableau r.qubits).Stabilizes r.vector

/-- A run of the machine is one of the register that it starts with. -/
theorem runs_register {r : Register} {m : Machine} (running : Running r.qubits m [])
    (stabilizes : (m.state.tableau r.qubits).Stabilizes r.vector)
    {instructions : List Instruction}
    (within : ∀ instruction ∈ instructions, instruction.Within r.qubits)
    : ∃ outcomes next r', State.runInstructions .allocated instructions m = some (true, next)
        ∧ next.buffer.Holds (outcomes.map character)
        ∧ next.world.grants = m.world.grants
        ∧ r.Runs instructions m.world.coins outcomes r' next.world.coins
        ∧ HoldsRegister ⟨false, next.state⟩ r' := by
  obtain ⟨outcomes, next, ran, runningN, grants, evolves⟩ :=
    State.runInstructions_simulates running .allocated within
  obtain ⟨φ, evolution, stabilizesN⟩ := evolves r.vector stabilizes
  exact ⟨outcomes, next, _, ran, runningN.buffer, grants, .evolves evolution, rfl, runningN.sound,
    runningN.valid, stabilizesN⟩

/-- A program on a stored state runs its instructions on the register. -/
theorem HoldsRegister.runProgram {entry : Entry ChpState} {r : Register}
    (holds : HoldsRegister entry r) {program : Program} {instructions : List Instruction}
    (stored : program.instructions.Holds instructions)
    (within : ∀ instruction ∈ instructions, instruction.Within r.qubits) (world : World)
    : ∃ outcomes m r', State.runProgram .allocated program ⟨entry.item, .empty, world⟩
          = some (true, m)
        ∧ m.buffer.Holds (outcomes.map character) ∧ m.world.grants = world.grants
        ∧ r.Runs instructions world.coins outcomes r' m.world.coins
        ∧ HoldsRegister ⟨false, m.state⟩ r' := by
  rw [State.runProgram_eq .allocated stored]
  exact runs_register (m := ⟨entry.item, .empty, world⟩)
    ⟨holds.sound, holds.valid, ManagedContainer.empty_holds (by decide)⟩ holds.stabilizes within

/-- A program that starts with `init n` runs the rest on fresh qubits. -/
theorem runProgram_fresh {n : Nat} (small : n < 2 ^ 31) {program : Program}
    {instructions : List Instruction}
    (stored : program.instructions.Holds (Instruction.init n :: instructions))
    (within : ∀ instruction ∈ instructions, instruction.Within n) {world : World}
    (granted : Granted world.grants)
    : ∃ outcomes m r', State.runProgram .allocated program ⟨ChpState.fresh, .empty, world⟩
          = some (true, m)
        ∧ m.buffer.Holds (outcomes.map character) ∧ m.world.grants = world.grants.drop 5
        ∧ (Register.fresh n).Runs instructions world.coins outcomes r' m.world.coins
        ∧ HoldsRegister ⟨false, m.state⟩ r' := by
  obtain ⟨start, ranInit, running, fresh, _, worldS⟩ :=
    State.runInstructions_init small .allocated instructions
      (m := ⟨ChpState.fresh, .empty, world⟩) granted (ManagedContainer.empty_holds (by decide))
  have zero : (start.state.tableau n).Stabilizes StateVector.zeroState := by
    rw [fresh]
    exact Tableau.initial_stabilizes
  obtain ⟨outcomes, m, r', ran, buffer, grants, runs, holds⟩ :=
    runs_register (r := Register.fresh n) running zero within
  refine ⟨outcomes, m, r', ?_, buffer, by rw [grants, worldS], by rwa [worldS] at runs, holds⟩
  rw [State.runProgram_eq .allocated stored, ranInit, ran]

theorem HoldsRegister.live {entry : Entry ChpState} {r : Register} (holds : HoldsRegister entry r)
    : entry.item.pointers = .live :=
  holds.sound.layout.live

-----------------------------------------------------------------------------------------
-- Requests and commands
-----------------------------------------------------------------------------------------

/-- A free system has the registers of a system of the service. -/
structure HoldsSystem (entry : Entry QuantumSystem) (system : Registry Register) : Prop where
  free : entry.flag = false
  states : entry.item.states.Implements HoldsRegister system

/-- The universe has the systems of the service, an interpreter of `chpext` that is not in use or
none, and all the memory that it asks for.
-/
structure Serves (u : Universe) (s : Service) : Prop where
  systems : u.quantumSystems.Implements HoldsSystem s
  speaks : Speaks u.interpreters
  memory : ∀ k, (u.world.grants.get k).isSome

/-- The text is in the dialect `chpext` and parses to the instructions. -/
structure Source.Spells (source : Source) (instructions : List Instruction) : Prop where
  named : text source.dialect = chpextName
  parses
    : ∃ program, parseProgram Language.chpext source.data source.lineDelimiter = .ok program
      ∧ program.instructions.Holds instructions

/-- The request gives the command. -/
inductive Gives : SystemRequest → Command → Prop where
  | createSystem {stateType} (named : text stateType = chpStateName)
      : Gives (.createSystem stateType) .createSystem
  | deleteSystem {systemId} : Gives (.deleteSystem systemId) (.deleteSystem systemId.toNat)
  | createState {systemId source n instructions}
      (spells : source.Spells (Instruction.init n :: instructions))
      : Gives (.createState systemId source) (.createState systemId.toNat n instructions)
  | modifyState {systemId stateId source instructions} (spells : source.Spells instructions)
      : Gives (.modifyState systemId stateId source)
          (.modifyState systemId.toNat stateId.toNat instructions)
  | measureState {systemId stateId source instructions} (spells : source.Spells instructions)
      : Gives (.measureState systemId stateId source)
          (.measureState systemId.toNat stateId.toNat instructions)
  | deleteState {systemId stateId}
      : Gives (.deleteState systemId stateId) (.deleteState systemId.toNat stateId.toNat)
  | computeResult {systemId source n instructions}
      (spells : source.Spells (Instruction.init n :: instructions))
      : Gives (.computeResult systemId source) (.computeResult systemId.toNat n instructions)

/-- The answer is the reply. -/
inductive Says : Answer → Reply → Prop where
  | id {value} : Says (.id value) (.id value.toNat)
  | done : Says (.done true .empty) .done
  | outcomes {buffer values} (holds : buffer.Holds (values.map character))
      : Says (.done true buffer) (.outcomes values)

/-- The request answers what the service replies, and both have the same systems and coins left. -/
def Refines (u : Universe) (s : Service) (request : SystemRequest) (command : Command) : Prop :=
  ∃ answer u' reply t, request.perform u = (.ok answer, u') ∧ Says answer reply
    ∧ s.Step u.world.coins command reply t u'.world.coins ∧ Serves u' t

section Requests

variable {u : Universe} {s : Service} {systemId stateId : UInt64} {system : Registry Register}

theorem Serves.found (serves : Serves u s) (present : s.item systemId.toNat = some system)
    : ∃ quantumSystem, u.quantumSystems.find systemId = some ⟨false, quantumSystem⟩
        ∧ quantumSystem.states.Implements HoldsRegister system := by
  obtain ⟨⟨flag, quantumSystem⟩, found, holds⟩ := serves.systems.found present
  obtain rfl : flag = false := holds.free
  exact ⟨quantumSystem, found, holds.states⟩

theorem Serves.granted (serves : Serves u s) : Granted u.world.grants :=
  fun k _ => serves.memory k

/-- A request with a text, whose program leaves the system with other registers. -/
theorem Serves.editSystem (serves : Serves u s) (present : s.item systemId.toNat = some system)
    {quantumSystem next : QuantumSystem}
    (free : u.quantumSystems.find systemId = some ⟨false, quantumSystem⟩) {source : Source}
    (named : text source.dialect = chpextName) {program : Program}
    (parsed : parseProgram chpext source.data source.lineDelimiter = .ok program) {α : Type}
    {f : Program → Run (QuantumSystem × World) α} {a : α} {left : World}
    (ran : f program (quantumSystem, u.world) = (.ok a, next, left))
    {system' : Registry Register} (states : next.states.Implements HoldsRegister system')
    (memory : ∀ k, (left.grants.get k).isSome)
    : ∃ u', Universe.editSystem systemId
          (withProgram source.dialect source.data source.lineDelimiter f) u = (.ok a, u')
        ∧ u'.world = left ∧ Serves u' (s.set systemId.toNat system') := by
  obtain ⟨interpreters, speaks, edits⟩ := editSystem_speaks free serves.speaks named parsed ran
  exact ⟨_, edits, rfl, serves.systems.set present ⟨rfl, states⟩, speaks, memory⟩

theorem drop_isSome {grants : Stream' (Option Int)} (memory : ∀ k, (grants.get k).isSome)
    (count k : Nat)
    : ((grants.drop count).get k).isSome := by
  rw [Stream'.get_drop]
  exact memory _

theorem createSystem_refines (serves : Serves u s) (room : s.next + 1 < 2 ^ 64)
    {stateType : List Byte} (named : text stateType = chpStateName)
    : Refines u s (.createSystem stateType) .createSystem := by
  have made : QuantumSystem.new stateType = .ok ⟨.new 0⟩ := if_pos named
  let key := u.quantumSystems.keyGenerator
  let systems := { u.quantumSystems with keyGenerator := key + 1 }.store key ⟨false, ⟨.new 0⟩⟩
  have creates : SystemRequest.perform (.createSystem stateType) u
      = (.ok (.id key), { u with quantumSystems := systems }) := by
    have inserts : MsContainer.insertWith (.ok ⟨.new 0⟩) u.quantumSystems = (.ok key, systems) :=
      serves.systems.numbered.insert _
    rw [SystemRequest.perform, Run.map_apply, createSystem, Run.within, made, inserts]
    rfl
  refine ⟨_, _, _, _, creates, .id, ?_,
    serves.systems.add room ⟨rfl, MsContainer.implements_new⟩, serves.speaks, serves.memory⟩
  rw [serves.systems.next]
  exact .createSystem

theorem deleteSystem_refines (serves : Serves u s) (present : s.item systemId.toNat = some system)
    : Refines u s (.deleteSystem systemId) (.deleteSystem systemId.toNat) := by
  obtain ⟨quantumSystem, found, states⟩ := serves.found present
  have destroyed : quantumSystem.destroy = .ok () :=
    if_pos (MsContainer.all_entries_iff.mpr fun key entry stored => by
      obtain ⟨r, _, holds⟩ := states.stored stored
      rw [ChpState.destroy, if_pos (Or.inl holds.live)]
      rfl)
  have deletes : SystemRequest.perform (.deleteSystem systemId) u
      = (.ok (.done true .empty),
          { u with quantumSystems := u.quantumSystems.remove systemId }) := by
    rw [SystemRequest.perform, Run.map_apply, deleteSystem, Run.within]
    simp only [MsContainer.erase, found, destroyed]
    rfl
  exact ⟨_, _, _, _, deletes, .done, .deleteSystem present, serves.systems.remove systemId,
    serves.speaks, serves.memory⟩

theorem createState_refines (serves : Serves u s) (present : s.item systemId.toNat = some system)
    (room : system.next + 1 < 2 ^ 64) {n : Nat} (small : n < 2 ^ 31)
    {instructions : List Instruction} (within : ∀ instruction ∈ instructions, instruction.Within n)
    {source : Source} (spells : source.Spells (Instruction.init n :: instructions))
    : Refines u s (.createState systemId source)
        (.createState systemId.toNat n instructions) := by
  obtain ⟨quantumSystem, free, states⟩ := serves.found present
  obtain ⟨program, parsed, stored⟩ := spells.parses
  obtain ⟨outcomes, m, r, ran, _, grants, runs, holds⟩ :=
    runProgram_fresh small stored within serves.granted
  have encoded : State.encodeState program u.world = some (m.state, m.world) := by
    simp [State.encodeState, ran]
  have inserts := QuantumSystem.programInsertState_live states.numbered encoded holds.live
  obtain ⟨u', creates, world, servesU⟩ := serves.editSystem present free spells.named parsed
    inserts (states.add room holds) (by rw [grants]; exact drop_isSome serves.memory 5)
  refine ⟨.id quantumSystem.states.keyGenerator, u', .id system.next, _, ?_, ?_, ?_, servesU⟩
  · rw [SystemRequest.perform, Run.map_apply, createState, creates]
    rfl
  · rw [← states.next]
    exact .id
  · rw [world]
    exact .createState present runs

theorem modifyState_refines (serves : Serves u s) (present : s.item systemId.toNat = some system)
    {r : Register} (stored : system.item stateId.toNat = some r) {instructions : List Instruction}
    (within : ∀ instruction ∈ instructions, instruction.Within r.qubits) {source : Source}
    (spells : source.Spells instructions)
    : Refines u s (.modifyState systemId stateId source)
        (.modifyState systemId.toNat stateId.toNat instructions) := by
  obtain ⟨quantumSystem, free, states⟩ := serves.found present
  obtain ⟨⟨flag, state⟩, found, holds⟩ := states.found stored
  obtain rfl : flag = false := holds.free
  obtain ⟨program, parsed, written⟩ := spells.parses
  obtain ⟨outcomes, m, r', ran, _, grants, runs, holdsM⟩ := holds.runProgram written within u.world
  have modified : State.modifyState state program u.world = some (true, m.state, m.world) := by
    simp [State.modifyState, ran]
  have modifies := QuantumSystem.programModifyState_live found modified holdsM.live
  obtain ⟨u', edits, world, servesU⟩ := serves.editSystem present free spells.named parsed
    (f := fun program => QuantumSystem.programModifyState program stateId) modifies
    (states.set stored holdsM) (by rw [grants]; exact serves.memory)
  refine ⟨_, u', _, _, ?_, .done, ?_, servesU⟩
  · rw [SystemRequest.perform, Run.map_apply, modifyState, edits]
    rfl
  · rw [world]
    exact .modifyState present stored runs

theorem measureState_refines (serves : Serves u s) (present : s.item systemId.toNat = some system)
    {r : Register} (stored : system.item stateId.toNat = some r) {instructions : List Instruction}
    (within : ∀ instruction ∈ instructions, instruction.Within r.qubits) {source : Source}
    (spells : source.Spells instructions)
    : Refines u s (.measureState systemId stateId source)
        (.measureState systemId.toNat stateId.toNat instructions) := by
  obtain ⟨quantumSystem, free, states⟩ := serves.found present
  obtain ⟨⟨flag, state⟩, found, holds⟩ := states.found stored
  obtain rfl : flag = false := holds.free
  obtain ⟨program, parsed, written⟩ := spells.parses
  obtain ⟨outcomes, m, r', ran, buffer, grants, runs, holdsM⟩ :=
    holds.runProgram written within u.world
  have measures := QuantumSystem.programMeasureState_live found
    (show State.measureState state program .empty u.world = some (true, m) from ran) holdsM.live
  obtain ⟨u', edits, world, servesU⟩ := serves.editSystem present free spells.named parsed
    (f := fun program => QuantumSystem.programMeasureState program stateId .empty) measures
    (states.set stored holdsM) (by rw [grants]; exact serves.memory)
  refine ⟨_, u', _, _, ?_, .outcomes buffer, ?_, servesU⟩
  · rw [SystemRequest.perform, Run.map_apply, measureState, edits]
    rfl
  · rw [world]
    exact .measureState present stored runs

theorem computeResult_refines (serves : Serves u s) (present : s.item systemId.toNat = some system)
    {n : Nat} (small : n < 2 ^ 31) {instructions : List Instruction}
    (within : ∀ instruction ∈ instructions, instruction.Within n) {source : Source}
    (spells : source.Spells (Instruction.init n :: instructions))
    : Refines u s (.computeResult systemId source)
        (.computeResult systemId.toNat n instructions) := by
  obtain ⟨quantumSystem, free, states⟩ := serves.found present
  obtain ⟨program, parsed, stored⟩ := spells.parses
  obtain ⟨outcomes, m, r, ran, buffer, grants, runs, holds⟩ :=
    runProgram_fresh small stored within serves.granted
  have computes : QuantumSystem.programComputeResult program .empty (quantumSystem, u.world)
      = (.ok (true, m.buffer), quantumSystem, m.world) :=
    QuantumSystem.programComputeResult_live ran holds.live
  obtain ⟨u', edits, world, servesU⟩ := serves.editSystem present free spells.named parsed
    (f := fun program => QuantumSystem.programComputeResult program .empty) computes states
    (by rw [grants]; exact drop_isSome serves.memory 5)
  rw [Registry.set_self present] at servesU
  refine ⟨_, u', _, _, ?_, .outcomes buffer, ?_, servesU⟩
  · rw [SystemRequest.perform, Run.map_apply, computeResult, edits]
    rfl
  · rw [world]
    exact .computeResult present runs

theorem deleteState_refines (serves : Serves u s) (present : s.item systemId.toNat = some system)
    {r : Register} (stored : system.item stateId.toNat = some r)
    : Refines u s (.deleteState systemId stateId)
        (.deleteState systemId.toNat stateId.toNat) := by
  obtain ⟨quantumSystem, free, states⟩ := serves.found present
  obtain ⟨entry, found, holds⟩ := states.found stored
  have destroyed : entry.item.destroy = .ok () := if_pos (Or.inl holds.live)
  have erases : QuantumSystem.deleteStateElement stateId (quantumSystem, u.world)
      = (.ok true, ⟨quantumSystem.states.remove stateId⟩, u.world) := by
    simp only [QuantumSystem.deleteStateElement, MsContainer.erase, found, destroyed]
  let states' := quantumSystem.states.remove stateId
  let u' : Universe := {
    u with quantumSystems := u.quantumSystems.store systemId ⟨false, ⟨states'⟩⟩ }
  have deletes : deleteState systemId stateId u = (.ok true, u') :=
    editSystem_ok free (by simp only [Run.within, erases]; rfl)
  refine ⟨_, u', _, _, ?_, .done, .deleteState present stored,
    serves.systems.set present ⟨rfl, states.remove stateId⟩, serves.speaks, serves.memory⟩
  rw [SystemRequest.perform, Run.map_apply, deletes]
  rfl

/-- Every request that gives an allowed command refines it. -/
theorem perform_refines (serves : Serves u s) {request : SystemRequest} {command : Command}
    (gives : Gives request command) (allows : s.Allows command)
    : Refines u s request command := by
  cases gives with
  | createSystem named => exact createSystem_refines serves allows named
  | deleteSystem =>
      obtain ⟨system, present⟩ := allows
      exact deleteSystem_refines serves present
  | createState spells =>
      obtain ⟨small, within, system, present, room⟩ := allows
      exact createState_refines serves present room small within spells
  | modifyState spells =>
      obtain ⟨system, r, present, stored, within⟩ := allows
      exact modifyState_refines serves present stored within spells
  | measureState spells =>
      obtain ⟨system, r, present, stored, within⟩ := allows
      exact measureState_refines serves present stored within spells
  | deleteState =>
      obtain ⟨system, r, present, stored⟩ := allows
      exact deleteState_refines serves present stored
  | computeResult spells =>
      obtain ⟨small, within, system, present⟩ := allows
      exact computeResult_refines serves present small within spells

end Requests

end Universe

end Sabot
