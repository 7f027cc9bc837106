import Sabot.Universe.Requests
import Sabot.Workers.Pool

/-! The requests as several workers run them at once: every operation of `ms_container` and of the
universe as a sequence of atomic steps on what the workers share.
-/

namespace Sabot.Universe

open Sabot.Language (Byte Program parseProgram)
open Sabot.State (ChpState StringBuffer World)
open Workers (Code atomically)

-----------------------------------------------------------------------------------------
-- The shared state
-----------------------------------------------------------------------------------------

/-- The lists that are guarded by a mutex. -/
inductive ListId where
  | systems
  | states (systemId : UInt64)
  | interpreters
deriving DecidableEq

/-- The items that are guarded by a flag. -/
inductive Item where
  | system (systemId : UInt64)
  | state (systemId stateId : UInt64)
  | interpreter (name : List Byte)
deriving DecidableEq

def Item.list : Item → ListId
  | .system _ => .systems
  | .state systemId _ => .states systemId
  | .interpreter _ => .interpreters

/-- A `boost::shared_mutex`: who has locked it shared, and who exclusively. -/
structure SharedMutex (W : Type) where
  readers : Finset W
  writer : Option W

/-- An interpreter and where it is allocated. -/
structure Object where
  address : Nat
  interpreter : Interpreter

/-- A request with the coins and the memory that it draws. -/
abbrev Call := SystemRequest × World

/-- What the workers share. The flags are kept beside the containers, one for each item, and the
flags inside of them are not used. What is only written to tell the story of a run is the workers
whose function is running on an item, the order in which requests took effect, and the
interpreters that parsed, each with the dialect that was asked for.
-/
structure Shared (W : Type) where
  systems : MsContainer UInt64 QuantumSystem
  interpreters : MsContainer (List Byte) Object
  allocated : Nat
  mutex : ListId → SharedMutex W
  flag : Item → Bool
  inside : Item → Finset W
  order : List (W × Call × Answer)
  parsed : List (List Byte × Object)

/-- Nothing has been created yet. -/
def Shared.new (W : Type) : Shared W where
  systems := .new 0
  interpreters := .new []
  allocated := 0
  mutex _ := ⟨∅, none⟩
  flag _ := false
  inside _ := ∅
  order := []
  parsed := []

/-- How code fails: an operation stops, an item is not found, or an item that was found is used
after it has been erased.
-/
inductive Failure where
  | stopped (e : Stop)
  | missing (item : Item)
  | dangling (item : Item)

abbrev Task (W α : Type) := Code (Shared W) Failure α

namespace Shared

variable {W : Type} (s : Shared W)

/-- The item is in its container. -/
def present : Item → Bool
  | .system systemId => (s.systems.find systemId).isSome
  | .state systemId stateId =>
      (s.systems.find systemId).any (fun entry => (entry.item.states.find stateId).isSome)
  | .interpreter name => (s.interpreters.find name).isSome

/-- The flag of a new item is clear; that of an item which is there already is not touched. -/
def clearNew (item : Item) : Item → Bool :=
  if s.present item then s.flag else Function.update s.flag item false

/-- A request takes effect. -/
def commit (w : W) (call : Call) (answer : Answer) (systems : MsContainer UInt64 QuantumSystem)
    : Shared W :=
  { s with systems := systems, order := s.order ++ [(w, call, answer)] }

end Shared

-----------------------------------------------------------------------------------------
-- Locks and flags
-----------------------------------------------------------------------------------------

section Locks

variable {W α : Type} [DecidableEq W] (w : W) (list : ListId) (item : Item)

/-- The constructor of `boost::shared_lock`. It may pass a writer that waits for the mutex, which
`boost::shared_mutex` does not let it do: what holds of all runs holds of those without this, and
that some worker may always go on is proved of workers that pass nobody.
-/
def lockShared : Task W Unit :=
  atomically (fun s => (s.mutex list).writer = none) (fun s =>
    let mutex := s.mutex list
    .ok ((), {
      s with
      mutex := Function.update s.mutex list { mutex with readers := insert w mutex.readers } }))

def unlockShared : Task W Unit :=
  atomically (fun _ => True) (fun s =>
    let mutex := s.mutex list
    .ok ((), {
      s with
      mutex := Function.update s.mutex list { mutex with readers := mutex.readers.erase w } }))

/-- The constructor of `boost::unique_lock`. -/
def lock : Task W Unit :=
  atomically (fun s => (s.mutex list).writer = none ∧ (s.mutex list).readers = ∅) (fun s =>
    .ok ((), {
      s with mutex := Function.update s.mutex list { s.mutex list with writer := some w } }))

def unlock : Task W Unit :=
  atomically (fun _ => True) (fun s =>
    .ok ((), {
      s with mutex := Function.update s.mutex list { s.mutex list with writer := none } }))

omit [DecidableEq W] in
/-- `std::map::find`, and the exception for an item that is not there. -/
def find : Task W Unit :=
  atomically (fun _ => True) (fun s =>
    if s.present item then .ok ((), s) else .error (.missing item))

/-- Spin until `test_and_set` finds the flag clear. The function on the item runs from here. -/
def testAndSet : Task W Unit :=
  atomically (fun s => s.flag item = false) (fun s =>
    if s.present item then
      .ok ((), {
        s with
        flag := Function.update s.flag item true
        inside := Function.update s.inside item (insert w (s.inside item)) })
    else .error (.dangling item))

def clear : Task W Unit :=
  atomically (fun _ => True) (fun s =>
    if s.present item then
      .ok ((), {
        s with
        flag := Function.update s.flag item false
        inside := Function.update s.inside item ((s.inside item).erase w) })
    else .error (.dangling item))

/-- `ms_container::edit_item` with a function that takes steps of its own. -/
def editItem (function : Task W α) : Task W α := do
  lockShared w item.list
  find item
  testAndSet w item
  let a ← function
  clear w item
  unlockShared w item.list
  return a

/-- The operations of `ms_container` that lock the list exclusively do so for one step. -/
def exclusively (step : Task W α) : Task W α := do
  lock w list
  let a ← step
  unlock list
  return a

end Locks

-----------------------------------------------------------------------------------------
-- Compilation
-----------------------------------------------------------------------------------------

section Compilation

variable {W α : Type} [DecidableEq W] (w : W)

/-- Go on with a value, unless the operation stopped. -/
def proceed (result : Except Stop α) : Task W α :=
  match result with
  | .ok a => .ret a
  | .error e => .fail (.stopped e)

/-- `ms_container::count` on the interpreters. -/
def countInterpreters (name : List Byte) : Task W Nat := do
  lockShared w .interpreters
  let count ← atomically (fun _ => True) (fun s => .ok (s.interpreters.count name, s))
  unlockShared w .interpreters
  return count

/-- `new language::interpreter`. -/
def allocate (interpreter : Interpreter) : Task W Object :=
  atomically (fun _ => True) (fun s =>
    .ok (⟨s.allocated, interpreter⟩, { s with allocated := s.allocated + 1 }))

/-- `ms_container::insert` on the interpreters, which keeps an interpreter that is there. -/
def insertInterpreter (name : List Byte) (object : Object) : Task W Unit :=
  exclusively w .interpreters (atomically (fun _ => True) (fun s =>
    .ok ((), {
      s with
      interpreters := s.interpreters.emplace name ⟨false, object⟩
      flag := s.clearNew (.interpreter name) })))

/-- `universe::initialize_interpreter`. The lock is released between counting and inserting. -/
def initializeInterpreterTask (dialect : List Byte) : Task W Unit := do
  let count ← countInterpreters w (text dialect)
  if count = 0 then
    let interpreter ← proceed (Interpreter.new dialect)
    let object ← allocate interpreter
    insertInterpreter w (text dialect) object

/-- The function on an interpreter that parses a text. -/
def parse (source : Source) : Task W Program :=
  atomically (fun _ => True) (fun s =>
    match s.interpreters.find (text source.dialect) with
    | none => .error (.dangling (.interpreter (text source.dialect)))
    | some entry =>
        match parseProgram entry.item.interpreter.dialect source.data source.lineDelimiter with
        | .ok program =>
            .ok (program, { s with parsed := s.parsed ++ [(source.dialect, entry.item)] })
        | .error e => .error (.stopped e))

/-- `universe::compile_program`. -/
def compileProgramTask (source : Source) : Task W Program := do
  initializeInterpreterTask w source.dialect
  editItem w (.interpreter (text source.dialect)) (parse source)

end Compilation

-----------------------------------------------------------------------------------------
-- Requests
-----------------------------------------------------------------------------------------

section Requests

variable {W α : Type} [DecidableEq W] (w : W) (call : Call) (systemId stateId : UInt64)

/-- Change the list of systems, and take effect with it. -/
def onSystems (f : Run (MsContainer UInt64 QuantumSystem) α) (answer : α → Answer)
    (flag : α → Shared W → Item → Bool)
    : Task W Answer :=
  atomically (fun _ => True) (fun s =>
    match f s.systems with
    | (.ok a, systems) =>
        .ok (answer a, { s.commit w call (answer a) systems with flag := flag a s })
    | (.error e, _) => .error (.stopped e))

/-- Change a system, and take effect with it. -/
def onItem (f : Run (QuantumSystem × World) α) (answer : α → Answer)
    (flag : α → Shared W → Item → Bool)
    : Task W Answer :=
  atomically (fun _ => True) (fun s =>
    match s.systems.find systemId with
    | none => .error (.dangling (.system systemId))
    | some entry =>
        match f (entry.item, call.2) with
        | (.ok a, system, _) =>
            .ok (answer a, {
              s.commit w call (answer a) (s.systems.store systemId ⟨entry.flag, system⟩) with
              flag := flag a s })
        | (.error e, _) => .error (.stopped e))

/-- Run a function on a stored state, and take effect with it. -/
def onStored (f : Run (ChpState × World) α) (answer : α → Answer) : Task W Answer :=
  atomically (fun _ => True) (fun s =>
    match s.systems.find systemId with
    | none => .error (.dangling (.system systemId))
    | some entry =>
        match entry.item.states.find stateId with
        | none => .error (.dangling (.state systemId stateId))
        | some stored =>
            match f (stored.item, call.2) with
            | (.ok a, state, _) =>
                .ok (answer a, s.commit w call (answer a) (s.systems.store systemId
                  ⟨entry.flag, ⟨entry.item.states.store stateId ⟨stored.flag, state⟩⟩⟩))
            | (.error e, _) => .error (.stopped e))

/-- What a worker runs for a request. -/
def task : SystemRequest → Task W Answer
  | .createSystem stateType =>
      exclusively w .systems
        (onSystems w call (MsContainer.insertWith (QuantumSystem.new stateType)) .id
          (fun id s => s.clearNew (.system id)))
  | .deleteSystem systemId =>
      exclusively w .systems
        (onSystems w call (MsContainer.erase QuantumSystem.destroy systemId)
          (fun ok => .done ok .empty) (fun _ s => s.flag))
  | .createState systemId source =>
      editItem w (.system systemId) do
        let program ← compileProgramTask w source
        -- The state is encoded before the list of states is locked.
        let (state, _) ← proceed (returned Prod.fst (State.encodeState program call.2))
        exclusively w (.states systemId)
          (onItem w call systemId (insertEncoded state) .id
            (fun id s => s.clearNew (.state systemId id)))
  | .modifyState systemId stateId source =>
      editItem w (.system systemId) do
        let program ← compileProgramTask w source
        editItem w (.state systemId stateId)
          (onStored w call systemId stateId (QuantumSystem.modifyItem program)
            (fun ok => .done ok .empty))
  | .measureState systemId stateId source =>
      editItem w (.system systemId) do
        let program ← compileProgramTask w source
        editItem w (.state systemId stateId)
          (onStored w call systemId stateId (QuantumSystem.measureItem program .empty)
            (fun (ok, results) => .done ok results))
  | .deleteState systemId stateId =>
      editItem w (.system systemId)
        (exclusively w (.states systemId)
          (onItem w call systemId (QuantumSystem.deleteStateElement stateId)
            (fun ok => .done ok .empty) (fun _ s => s.flag)))
  | .computeResult systemId source =>
      editItem w (.system systemId) do
        let program ← compileProgramTask w source
        onItem w call systemId (QuantumSystem.programComputeResult program .empty)
          (fun (ok, results) => .done ok results) (fun _ s => s.flag)
where
  /-- `ms_container::insert` of a state that has been encoded. -/
  insertEncoded (state : ChpState) : Run (QuantumSystem × World) UInt64 := fun (system, world) =>
    match MsContainer.insert state system.states with
    | (result, states) => (result, ⟨states⟩, world)

end Requests

/-- The pool of workers that take requests with their draws. -/
abbrev WorkerPool (W : Type) := Workers.Pool W (Shared W) Failure Call Answer

/-- Any number of steps of any workers. -/
def WorkerPool.Reaches {W : Type} [DecidableEq W] : WorkerPool W → WorkerPool W → Prop :=
  Workers.Pool.Reaches (fun w call => task w call call.1)

/-- All workers are idle, and nothing has been created. -/
def WorkerPool.start (W : Type) : WorkerPool W := ⟨Shared.new W, fun _ => none, []⟩

end Sabot.Universe
