import Sabot.Language.Interpreter
import Sabot.MsContainer
import Sabot.Randnum.Generator
import Sabot.State.RunProgram

/-! The universe: quantum systems with their states, interpreters and kernels, and the operations
that the actions call. A `const char*` is the list of bytes from the pointer on.
-/

namespace Sabot

open Sabot.Language (Byte Dialect Program chpext parseProgram)
open Sabot.State (ChpState StringBuffer World)

-----------------------------------------------------------------------------------------
-- Factories
-----------------------------------------------------------------------------------------

/-- The C string at a pointer. -/
def text (pointer : List Byte) : List Byte := pointer.takeWhile (fun c => c != 0)

/-- The name under which the dialect `chpext` is registered. -/
def chpextName : List Byte := [99, 104, 112, 101, 120, 116]

/-- The name under which the state type `chp_state` is registered. -/
def chpStateName : List Byte := [99, 104, 112, 95, 115, 116, 97, 116, 101]

/-- Instantiate a dialect from its name. -/
def instantiateDialect (name : List Byte) : Except Stop Dialect :=
  if text name = chpextName then .ok chpext else .error (.thrown .exception)

-----------------------------------------------------------------------------------------
-- Quantum systems
-----------------------------------------------------------------------------------------

/-- A quantum system of the state type `chp_state`, with its states. -/
structure QuantumSystem where
  states : MsContainer UInt64 ChpState

/-- The constructor of `quantum_system`, which instantiates the state type from its name. -/
def QuantumSystem.new (stateType : List Byte) : Except Stop QuantumSystem :=
  if text stateType = chpStateName then .ok ⟨.new 0⟩
  else .error (.thrown (.invalidArgument "name not found."))

/-- The destructor of `_chp_state` releases what the pointers hold. -/
def State.ChpState.destroy (state : ChpState) : Except Stop Unit :=
  if state.pointers = .live ∨ state.pointers = .stale 0 then .ok () else .error .undefined

/-- The destructor of `quantum_system` destroys all its states. -/
def QuantumSystem.destroy (system : QuantumSystem) : Except Stop Unit :=
  if system.states.entries.all (fun _ entry => entry.item.destroy.isOk) then .ok ()
  else .error .undefined

/-- What a run on a state comes to; an access outside of the arrays or a second release of one is
undefined.
-/
def returned {α : Type} (state : α → ChpState) (result : Option α) : Except Stop α :=
  match result with
  | some a => if (state a).pointers = .freedTwice then .error .undefined else .ok a
  | none => .error .undefined

namespace QuantumSystem

variable (program : Program)

/-- Insert a state with a given program. -/
def programInsertState : Run (QuantumSystem × World) UInt64 := fun (system, world) =>
  match returned Prod.fst (State.encodeState program world) with
  | .error e => (.error e, system, world)
  | .ok (state, world) =>
      match MsContainer.insert state system.states with
      | (result, states) => (result, ⟨states⟩, world)

/-- Run a function on a stored state. -/
def editState {α : Type} (stateId : UInt64) (f : Run (ChpState × World) α)
    : Run (QuantumSystem × World) α := fun (system, world) =>
  match MsContainer.editItem stateId f (system.states, world) with
  | (result, states, world) => (result, ⟨states⟩, world)

/-- The function that modifies a stored state. -/
def modifyItem : Run (ChpState × World) Bool := fun (state, world) =>
  match returned (fun (_, state, _) => state) (State.modifyState state program world) with
  | .error e => (.error e, state, world)
  | .ok (ok, state, world) => (.ok ok, state, world)

/-- The function that measures a stored state. -/
def measureItem (buffer : StringBuffer) : Run (ChpState × World) (Bool × StringBuffer) :=
  fun (state, world) =>
    match returned (fun (_, m) => m.state) (State.measureState state program buffer world) with
    | .error e => (.error e, state, world)
    | .ok (ok, m) => (.ok (ok, m.buffer), m.state, m.world)

/-- Modify a state with a given program. -/
def programModifyState (stateId : UInt64) : Run (QuantumSystem × World) Bool :=
  editState stateId (modifyItem program)

/-- Measure a state with a given program. -/
def programMeasureState (stateId : UInt64) (buffer : StringBuffer)
    : Run (QuantumSystem × World) (Bool × StringBuffer) :=
  editState stateId (measureItem program buffer)

/-- Compute the result of a program on a temporary state, which is destroyed afterwards. -/
def programComputeResult (buffer : StringBuffer)
    : Run (QuantumSystem × World) (Bool × StringBuffer) := fun (system, world) =>
  match returned (fun (_, m) => m.state) (State.computeResult program buffer world) with
  | .error e => (.error e, system, world)
  | .ok (ok, m) => ((fun _ => (ok, m.buffer)) <$> m.state.destroy, system, m.world)

/-- Delete a state. -/
def deleteStateElement (stateId : UInt64) : Run (QuantumSystem × World) Bool :=
  fun (system, world) =>
    match MsContainer.erase ChpState.destroy stateId system.states with
    | (result, states) => (result, ⟨states⟩, world)

end QuantumSystem

-----------------------------------------------------------------------------------------
-- Interpreters and kernels
-----------------------------------------------------------------------------------------

/-- An interpreter of a dialect. -/
structure Interpreter where
  dialect : Dialect

def Interpreter.new (dialectName : List Byte) : Except Stop Interpreter :=
  (fun dialect => ⟨dialect⟩) <$> instantiateDialect dialectName

/-- A kernel with its compiled programs. -/
structure Kernel where
  macros : MsContainer UInt64 Program

def Kernel.new : Kernel := ⟨.new 0⟩

def Kernel.insertMacro (program : Program) : Run Kernel UInt64 :=
  Run.within Kernel.macros (fun macros _ => ⟨macros⟩) (MsContainer.insert program)

abbrev Interpreters := MsContainer (List Byte) Interpreter

/-- The singleton that holds everything, and what it draws from outside. -/
structure Universe where
  quantumSystems : MsContainer UInt64 QuantumSystem
  interpreters : Interpreters
  kernels : MsContainer UInt64 Kernel
  world : World
  draws : Randnum.Draws

/-- The constructor of the universe. -/
def Universe.new (world : World) (draws : Randnum.Draws) : Universe where
  quantumSystems := .new 0
  interpreters := .new []
  kernels := .new 0
  world := world
  draws := draws

/-- The state that is stored under a system and a state id. -/
def Universe.tableau (u : Universe) (systemId stateId : UInt64) : Option ChpState := do
  let system ← u.quantumSystems.find systemId
  let state ← system.item.states.find stateId
  return state.item

/-- A universe with one system, which has no states. -/
def Universe.oneSystem : Universe :=
  { Universe.new ⟨.const true, .const (some 0)⟩
      ⟨.const (fun lower _ => lower), .const (fun lower _ => lower)⟩ with
    quantumSystems := (MsContainer.new 0).store 0 ⟨false, ⟨.new 0⟩⟩ }

/-- Construct an interpreter for a dialect that has none. -/
def initializeInterpreter (dialect : List Byte) : Run Interpreters Unit := fun interpreters =>
  if interpreters.count (text dialect) = 0 then
    match Interpreter.new dialect with
    | .ok interpreter => (.ok (), (MsContainer.insertAt (text dialect) interpreter interpreters).2)
    | .error e => (.error e, interpreters)
  else (.ok (), interpreters)

/-- Compile a program and return it. -/
def compileProgram (dialect data : List Byte) (lineDelimiter : Byte) : Run Interpreters Program := do
  initializeInterpreter dialect
  Run.within (fun interpreters => (interpreters, ())) (fun (interpreters, _) _ => interpreters)
    (MsContainer.editItem (text dialect) fun (interpreter, r) =>
      (parseProgram interpreter.dialect data lineDelimiter, interpreter, r))

-----------------------------------------------------------------------------------------
-- Operations
-----------------------------------------------------------------------------------------

namespace Universe

variable {α : Type}

/-- The function of a system operation sees the system, the interpreters and the world. -/
def editSystem (systemId : UInt64) (f : Run (QuantumSystem × Interpreters × World) α)
    : Run Universe α :=
  Run.within (fun u => (u.quantumSystems, u.interpreters, u.world))
    (fun (systems, interpreters, world) u =>
      { u with quantumSystems := systems, interpreters := interpreters, world := world })
    (MsContainer.editItem systemId f)

/-- Compile a program and pass it on to the system. -/
def withProgram (dialect data : List Byte) (lineDelimiter : Byte)
    (f : Program → Run (QuantumSystem × World) α)
    : Run (QuantumSystem × Interpreters × World) α := do
  let program ← Run.within (fun (_, interpreters, _) => interpreters)
    (fun interpreters (system, _, world) => (system, interpreters, world))
    (compileProgram dialect data lineDelimiter)
  Run.within (fun (system, _, world) => (system, world))
    (fun (system, world) (_, interpreters, _) => (system, interpreters, world)) (f program)

/-- The function of a kernel operation sees the kernel and the interpreters. -/
def editKernel (kernelId : UInt64) (f : Run (Kernel × Interpreters) α) : Run Universe α :=
  Run.within (fun u => (u.kernels, u.interpreters))
    (fun (kernels, interpreters) u => { u with kernels := kernels, interpreters := interpreters })
    (MsContainer.editItem kernelId f)

/-- Compile a macro and insert it into the kernel. -/
def insertCompiled (dialect data : List Byte) (lineDelimiter : Byte)
    : Run (Kernel × Interpreters) UInt64 := do
  let program ← Run.within Prod.snd (fun interpreters (kernel, _) => (kernel, interpreters))
    (compileProgram dialect data lineDelimiter)
  Run.within Prod.fst (fun kernel (_, interpreters) => (kernel, interpreters))
    (Kernel.insertMacro program)

/-- Compile a macro, insert it into the kernel, and return its id. -/
def compileMacro (kernelId : UInt64) (dialect data : List Byte) (lineDelimiter : Byte)
    : Run Universe UInt64 := do
  Run.within interpreters (fun interpreters u => { u with interpreters := interpreters })
    (initializeInterpreter dialect)
  editKernel kernelId (insertCompiled dialect data lineDelimiter)

def createKernel : Run Universe UInt64 :=
  Run.within kernels (fun kernels u => { u with kernels := kernels })
    (MsContainer.insertWith (.ok Kernel.new))

def deleteKernel (kernelId : UInt64) : Run Universe Bool :=
  Run.within kernels (fun kernels u => { u with kernels := kernels })
    (MsContainer.erase (fun _ => .ok ()) kernelId)

/-- Create a system with a state type given by its name. -/
def createSystem (stateType : List Byte) : Run Universe UInt64 :=
  Run.within quantumSystems (fun systems u => { u with quantumSystems := systems })
    (MsContainer.insertWith (QuantumSystem.new stateType))

/-- Delete a quantum system. -/
def deleteSystem (systemId : UInt64) : Run Universe Bool :=
  Run.within quantumSystems (fun systems u => { u with quantumSystems := systems })
    (MsContainer.erase QuantumSystem.destroy systemId)

section Operations

-- The handlers for `std::out_of_range` are left out: nothing that they enclose throws it.
variable (systemId : UInt64) (stateId : UInt64) (dialect data : List Byte) (lineDelimiter : Byte)
  (buffer : StringBuffer)

/-- Create a state within a quantum system and return its id. -/
def createState : Run Universe UInt64 :=
  editSystem systemId (withProgram dialect data lineDelimiter QuantumSystem.programInsertState)

/-- Modify an existing state. -/
def modifyState : Run Universe Bool :=
  editSystem systemId (withProgram dialect data lineDelimiter
    (fun program => QuantumSystem.programModifyState program stateId))

/-- Measure a state; the results are added to the buffer. -/
def measureState : Run Universe (Bool × StringBuffer) :=
  editSystem systemId (withProgram dialect data lineDelimiter
    (fun program => QuantumSystem.programMeasureState program stateId buffer))

/-- Delete a state within a quantum system. -/
def deleteState : Run Universe Bool :=
  editSystem systemId (Run.within (fun (system, _, world) => (system, world))
    (fun (system, world) (_, interpreters, _) => (system, interpreters, world))
    (QuantumSystem.deleteStateElement stateId))

/-- Compute the result of a program without storing a state. -/
def computeResult : Run Universe (Bool × StringBuffer) :=
  editSystem systemId (withProgram dialect data lineDelimiter
    (fun program => QuantumSystem.programComputeResult program buffer))

end Operations

end Universe

-----------------------------------------------------------------------------------------
-- Compilation
-----------------------------------------------------------------------------------------

/-- What compiling comes to: the interpreter of the dialect parses the text, one that is made
for a dialect that has none yet.
-/
def compiled (interpreters : Interpreters) (dialect data : List Byte) (lineDelimiter : Byte)
    : Except Stop Program :=
  match interpreters.find (text dialect) with
  | some entry =>
      if entry.flag then .error .blocked else parseProgram entry.item.dialect data lineDelimiter
  | none =>
      match instantiateDialect dialect with
      | .ok known => parseProgram known data lineDelimiter
      | .error e => .error e

section Compilation

variable {interpreters : Interpreters} {dialect : List Byte}

theorem initializeInterpreter_present {entry : Entry Interpreter}
    (present : interpreters.find (text dialect) = some entry)
    : initializeInterpreter dialect interpreters = (.ok (), interpreters) := by
  simp [initializeInterpreter, MsContainer.count, present]

theorem initializeInterpreter_known {known : Dialect}
    (absent : interpreters.find (text dialect) = none)
    (makes : instantiateDialect dialect = .ok known)
    : initializeInterpreter dialect interpreters
      = (.ok (), interpreters.store (text dialect) ⟨false, ⟨known⟩⟩) := by
  simp [initializeInterpreter, MsContainer.count, absent, Interpreter.new, makes,
    MsContainer.insertAt, MsContainer.emplace_of_none interpreters _ absent]

theorem initializeInterpreter_unknown {e : Stop}
    (absent : interpreters.find (text dialect) = none)
    (fails : instantiateDialect dialect = .error e)
    : initializeInterpreter dialect interpreters = (.error e, interpreters) := by
  simp [initializeInterpreter, MsContainer.count, absent, Interpreter.new, fails]

/-- The interpreters before and after an initialisation that succeeds: an interpreter that was
there is kept, and else one of the dialect is added.
-/
theorem initializeInterpreter_ok {left : Interpreters}
    (initialized : initializeInterpreter dialect interpreters = (.ok (), left))
    : (∃ entry, interpreters.find (text dialect) = some entry ∧ left = interpreters)
      ∨ ∃ known, interpreters.find (text dialect) = none ∧ instantiateDialect dialect = .ok known
        ∧ left = interpreters.store (text dialect) ⟨false, ⟨known⟩⟩ := by
  cases present : interpreters.find (text dialect) with
  | some entry =>
      rw [initializeInterpreter_present present] at initialized
      exact Or.inl ⟨entry, rfl, (Prod.mk.inj initialized).2.symm⟩
  | none =>
      cases makes : instantiateDialect dialect with
      | ok known =>
          rw [initializeInterpreter_known present makes] at initialized
          exact Or.inr ⟨known, rfl, rfl, (Prod.mk.inj initialized).2.symm⟩
      | error e =>
          rw [initializeInterpreter_unknown present makes] at initialized
          cases initialized

/-- A dialect is known if there is an interpreter for it or one can be made. -/
theorem initializeInterpreter_cases (dialect : List Byte) (interpreters : Interpreters)
    : (interpreters.find (text dialect) = none ∧ text dialect ≠ chpextName
        ∧ initializeInterpreter dialect interpreters = (.error (.thrown .exception), interpreters))
      ∨ ((interpreters.find (text dialect) ≠ none ∨ text dialect = chpextName)
        ∧ ∃ left, initializeInterpreter dialect interpreters = (.ok (), left)) := by
  cases present : interpreters.find (text dialect) with
  | some entry => exact Or.inr ⟨Or.inl (by simp), _, initializeInterpreter_present present⟩
  | none =>
      by_cases known : text dialect = chpextName
      · have makes : instantiateDialect dialect = .ok Language.chpext := if_pos known
        exact Or.inr ⟨Or.inr known, _, initializeInterpreter_known present makes⟩
      · have fails : instantiateDialect dialect = .error (.thrown .exception) := if_neg known
        exact Or.inl ⟨rfl, known, initializeInterpreter_unknown present fails⟩

variable (data : List Byte) (lineDelimiter : Byte)

/-- Initialising beforehand makes no difference to what is compiled. -/
theorem compiled_initialized {left : Interpreters}
    (initialized : initializeInterpreter dialect interpreters = (.ok (), left))
    : compiled left dialect data lineDelimiter
      = compiled interpreters dialect data lineDelimiter := by
  rcases initializeInterpreter_ok initialized with ⟨_, _, rfl⟩ | ⟨known, absent, makes, rfl⟩
  · rfl
  · simp [compiled, absent, makes]

/-- Once there is an interpreter, it is run on the text. -/
theorem compileProgram_parses {start : Interpreters} {entry : Entry Interpreter}
    (initialized : initializeInterpreter dialect start = (.ok (), interpreters))
    (present : interpreters.find (text dialect) = some entry)
    : ∃ left, compileProgram dialect data lineDelimiter start
        = (if entry.flag then .error .blocked
            else parseProgram entry.item.dialect data lineDelimiter, left) := by
  rw [compileProgram, Run.bind_ok initialized]
  obtain ⟨flag, interpreter⟩ := entry
  cases flag with
  | true =>
      exact ⟨interpreters, by simp [Run.within, MsContainer.editItem, present]⟩
  | false =>
      cases parsed : parseProgram interpreter.dialect data lineDelimiter with
      | ok program =>
          refine ⟨interpreters.store (text dialect) ⟨false, interpreter⟩, ?_⟩
          simp [Run.within, MsContainer.editItem, present, parsed]
      | error e =>
          refine ⟨interpreters.store (text dialect) ⟨true, interpreter⟩, ?_⟩
          simp [Run.within, MsContainer.editItem, present, parsed]

/-- Compiling returns what the interpreters before it say. -/
theorem compileProgram_eq (interpreters : Interpreters) (dialect : List Byte)
    : ∃ left, compileProgram dialect data lineDelimiter interpreters
        = (compiled interpreters dialect data lineDelimiter, left) := by
  cases present : interpreters.find (text dialect) with
  | some entry =>
      rw [compiled, present]
      exact compileProgram_parses data lineDelimiter (initializeInterpreter_present present) present
  | none =>
      cases makes : instantiateDialect dialect with
      | ok known =>
          rw [compiled, present]
          simp only [makes]
          exact compileProgram_parses data lineDelimiter
            (initializeInterpreter_known present makes) (MsContainer.find_store _ _)
      | error e =>
          refine ⟨interpreters, ?_⟩
          rw [compiled, present]
          simp only [makes]
          exact Run.bind_error (initializeInterpreter_unknown present makes) _

/-- A text that parses leaves no interpreter in use: one of the dialect is free afterwards, and
the others are as before.
-/
theorem compileProgram_ok {known : Dialect} {program : Program}
    (knows : interpreters.find (text dialect) = some ⟨false, ⟨known⟩⟩
      ∨ interpreters.find (text dialect) = none ∧ instantiateDialect dialect = .ok known)
    (parsed : parseProgram known data lineDelimiter = .ok program)
    : ∃ left, compileProgram dialect data lineDelimiter interpreters = (.ok program, left)
        ∧ ∀ name entry, left.find name = some entry
          → interpreters.find name = some entry ∨ name = text dialect ∧ entry = ⟨false, ⟨known⟩⟩ := by
  have initialized : ∃ start, initializeInterpreter dialect interpreters = (.ok (), start)
      ∧ start.find (text dialect) = some ⟨false, ⟨known⟩⟩
      ∧ ∀ name, name ≠ text dialect → start.find name = interpreters.find name := by
    rcases knows with present | ⟨absent, makes⟩
    · exact ⟨_, initializeInterpreter_present present, present, fun _ _ => rfl⟩
    · exact ⟨_, initializeInterpreter_known absent makes, MsContainer.find_store _ _,
        fun _ ne => MsContainer.find_store_of_ne _ _ ne⟩
  obtain ⟨start, ranInit, present, others⟩ := initialized
  refine ⟨start.store (text dialect) ⟨false, ⟨known⟩⟩, ?_, fun name entry found => ?_⟩
  · rw [compileProgram, Run.bind_ok ranInit]
    simp [Run.within, MsContainer.editItem, present, parsed]
  · by_cases same : name = text dialect
    · rw [same, MsContainer.find_store] at found
      exact Or.inr ⟨same, (Option.some.inj found).symm⟩
    · rw [MsContainer.find_store_of_ne _ _ same, others name same] at found
      exact Or.inl found

end Compilation

namespace Universe

variable {α : Type} {u : Universe} {systemId : UInt64}

theorem editSystem_absent {f : Run (QuantumSystem × Interpreters × World) α}
    (absent : u.quantumSystems.find systemId = none)
    : editSystem systemId f u = (.error (.thrown (.invalidArgument "not found")), u) := by
  simp only [editSystem, Run.within, MsContainer.editItem_absent absent]

theorem editSystem_blocked {f : Run (QuantumSystem × Interpreters × World) α}
    {system : QuantumSystem} (held : u.quantumSystems.find systemId = some ⟨true, system⟩)
    : editSystem systemId f u = (.error .blocked, u) := by
  simp only [editSystem, Run.within, MsContainer.editItem_blocked held]

/-- When the function stops, the system keeps its flag. -/
theorem editSystem_error {f : Run (QuantumSystem × Interpreters × World) α}
    {system next : QuantumSystem} {interpreters : Interpreters} {world : World} {e : Stop}
    (free : u.quantumSystems.find systemId = some ⟨false, system⟩)
    (ran : f (system, u.interpreters, u.world) = (.error e, next, interpreters, world))
    : editSystem systemId f u
      = (.error e, {
          u with
          quantumSystems := u.quantumSystems.store systemId ⟨true, next⟩
          interpreters := interpreters
          world := world }) := by
  simp only [editSystem, Run.within, MsContainer.editItem_error free ran]

theorem editSystem_ok {f : Run (QuantumSystem × Interpreters × World) α}
    {system next : QuantumSystem} {interpreters : Interpreters} {world : World} {a : α}
    (free : u.quantumSystems.find systemId = some ⟨false, system⟩)
    (ran : f (system, u.interpreters, u.world) = (.ok a, next, interpreters, world))
    : editSystem systemId f u
      = (.ok a, {
          u with
          quantumSystems := u.quantumSystems.store systemId ⟨false, next⟩
          interpreters := interpreters
          world := world }) := by
  simp only [editSystem, Run.within, MsContainer.editItem_ok free ran]

variable {dialect data : List Byte} {lineDelimiter : Byte}
  {f : Program → Run (QuantumSystem × World) α} {system next : QuantumSystem}
  {interpreters : Interpreters} {world left : World}

/-- A text that does not compile stops the function before it touches the system. -/
theorem withProgram_error {e : Stop}
    (fails : compiled interpreters dialect data lineDelimiter = .error e)
    : ∃ after, withProgram dialect data lineDelimiter f (system, interpreters, world)
        = (.error e, system, after, world) := by
  obtain ⟨after, ran⟩ := compileProgram_eq data lineDelimiter interpreters dialect
  rw [fails] at ran
  exact ⟨after, Run.bind_error (by simp only [Run.within, ran]) _⟩

/-- A text that compiles is passed on. -/
theorem withProgram_ok {program : Program} {result : Except Stop α}
    (compiles : compiled interpreters dialect data lineDelimiter = .ok program)
    (ran : f program (system, world) = (result, next, left))
    : ∃ after, withProgram dialect data lineDelimiter f (system, interpreters, world)
        = (result, next, after, left) := by
  obtain ⟨after, ranCompile⟩ := compileProgram_eq data lineDelimiter interpreters dialect
  rw [compiles] at ranCompile
  refine ⟨after, (Run.bind_ok (a := program) (t := (system, after, world)) ?_ _).trans ?_⟩
  · simp only [Run.within, ranCompile]
  · simp only [Run.within, ran]

/-- A request on a free system whose text compiles and whose program's function returns. -/
theorem editSystem_compiled {program : Program} {a : α}
    (free : u.quantumSystems.find systemId = some ⟨false, system⟩)
    (compiles : compileProgram dialect data lineDelimiter u.interpreters
      = (.ok program, interpreters))
    (ran : f program (system, u.world) = (.ok a, next, left))
    : editSystem systemId (withProgram dialect data lineDelimiter f) u
      = (.ok a, {
          u with
          quantumSystems := u.quantumSystems.store systemId ⟨false, next⟩
          interpreters := interpreters
          world := left }) := by
  refine editSystem_ok free ((Run.bind_ok (a := program) (t := (system, interpreters, u.world)) ?_
    _).trans ?_)
  · simp only [Run.within, compiles]
  · simp only [Run.within, ran]

variable {kernelId : UInt64} {kernel : Kernel}

theorem editKernel_absent {f : Run (Kernel × Interpreters) α}
    (absent : u.kernels.find kernelId = none)
    : editKernel kernelId f u = (.error (.thrown (.invalidArgument "not found")), u) := by
  simp only [editKernel, Run.within, MsContainer.editItem_absent absent]

theorem editKernel_blocked {f : Run (Kernel × Interpreters) α}
    (held : u.kernels.find kernelId = some ⟨true, kernel⟩)
    : editKernel kernelId f u = (.error .blocked, u) := by
  simp only [editKernel, Run.within, MsContainer.editItem_blocked held]

theorem editKernel_error {f : Run (Kernel × Interpreters) α} {next : Kernel} {e : Stop}
    (free : u.kernels.find kernelId = some ⟨false, kernel⟩)
    (ran : f (kernel, u.interpreters) = (.error e, next, interpreters))
    : editKernel kernelId f u
      = (.error e, {
          u with
          kernels := u.kernels.store kernelId ⟨true, next⟩
          interpreters := interpreters }) := by
  simp only [editKernel, Run.within, MsContainer.editItem_error free ran]

theorem insertCompiled_error {e : Stop}
    (fails : compiled interpreters dialect data lineDelimiter = .error e)
    : ∃ after, insertCompiled dialect data lineDelimiter (kernel, interpreters)
        = (.error e, kernel, after) := by
  obtain ⟨after, ran⟩ := compileProgram_eq data lineDelimiter interpreters dialect
  rw [fails] at ran
  exact ⟨after, Run.bind_error (by simp only [Run.within, ran]) _⟩

/-- A macro that compiles is inserted, which cannot fail. -/
theorem insertCompiled_ok {program : Program}
    (compiles : compiled interpreters dialect data lineDelimiter = .ok program)
    : ∃ id next after, insertCompiled dialect data lineDelimiter (kernel, interpreters)
        = (.ok id, next, after) := by
  obtain ⟨after, ran⟩ := compileProgram_eq data lineDelimiter interpreters dialect
  rw [compiles] at ran
  refine ⟨kernel.macros.keyGenerator, (Kernel.insertMacro program kernel).2, after,
    (Run.bind_ok (a := program) (t := (kernel, after)) ?_ _).trans ?_⟩
  · simp only [Run.within, ran]
  · rfl

/-- Compiling a macro first makes sure of the interpreter, then edits the kernel. -/
theorem compileMacro_initialized
    (initialized : initializeInterpreter dialect u.interpreters = (.ok (), interpreters))
    : compileMacro kernelId dialect data lineDelimiter u
      = editKernel kernelId (insertCompiled dialect data lineDelimiter)
          { u with interpreters := interpreters } :=
  Run.bind_ok (a := ()) (by simp only [Run.within, initialized]) _

theorem compileMacro_unknown {e : Stop}
    (fails : initializeInterpreter dialect u.interpreters = (.error e, interpreters))
    : compileMacro kernelId dialect data lineDelimiter u
      = (.error e, { u with interpreters := interpreters }) :=
  Run.bind_error (by simp only [Run.within, fails]) _

end Universe

end Sabot
