import Sabot.Universe.Requests

/-! What a request leaves behind that fails because something it names does not exist. The flag of
every item whose function was running stays set, so only failures before the first flag are clean.
-/

namespace Sabot.Universe

open Sabot.Language (Byte Program)
open Sabot.State (ChpState StringBuffer World)

-----------------------------------------------------------------------------------------
-- Requests
-----------------------------------------------------------------------------------------

/-- The requests that compile a text. -/
inductive Request where
  | createState (systemId : UInt64) (source : Source)
  | modifyState (systemId stateId : UInt64) (source : Source)
  | measureState (systemId stateId : UInt64) (source : Source)
  | computeResult (systemId : UInt64) (source : Source)
  | compileMacro (kernelId : UInt64) (source : Source)

def Request.source : Request → Source
  | .createState _ source | .modifyState _ _ source | .measureState _ _ source
  | .computeResult _ source | .compileMacro _ source => source

/-- The operation that a request calls. -/
def Request.perform : Request → Run Universe Answer
  | .createState systemId s =>
      .id <$> Universe.createState systemId s.dialect s.data s.lineDelimiter
  | .modifyState systemId stateId s =>
      (fun ok => .done ok .empty)
        <$> Universe.modifyState systemId stateId s.dialect s.data s.lineDelimiter
  | .measureState systemId stateId s =>
      (fun (ok, results) => .done ok results)
        <$> Universe.measureState systemId stateId s.dialect s.data s.lineDelimiter .empty
  | .computeResult systemId s =>
      (fun (ok, results) => .done ok results)
        <$> Universe.computeResult systemId s.dialect s.data s.lineDelimiter .empty
  | .compileMacro kernelId s =>
      .id <$> Universe.compileMacro kernelId s.dialect s.data s.lineDelimiter

-----------------------------------------------------------------------------------------
-- Clean failures
-----------------------------------------------------------------------------------------

/-- The request ends in an exception or a false result. -/
def Failed : Except Stop Answer → Prop
  | .error (.thrown _) => True
  | .ok (.done false _) => True
  | _ => False

/-- The dialect or an opcode of the text does not exist. -/
def Source.Unknown (source : Source) (interpreters : Interpreters) : Prop :=
  ∃ e, compiled interpreters source.dialect source.data source.lineDelimiter
    = .error (.thrown e)

/-- The dialect, an opcode, the system, the state or the kernel does not exist. -/
def Request.NamesMissing (u : Universe) : Request → Prop
  | .createState systemId source | .computeResult systemId source =>
      u.quantumSystems.find systemId = none ∨ source.Unknown u.interpreters
  | .modifyState systemId stateId source | .measureState systemId stateId source =>
      u.quantumSystems.find systemId = none ∨ source.Unknown u.interpreters
        ∨ ∃ entry, u.quantumSystems.find systemId = some entry
          ∧ entry.item.states.find stateId = none
  | .compileMacro kernelId source =>
      u.kernels.find kernelId = none ∨ source.Unknown u.interpreters

/-- No flag is set in any container. -/
structure Free (u : Universe) : Prop where
  systems : u.quantumSystems.Free
  states : ∀ id entry, u.quantumSystems.find id = some entry → entry.item.states.Free
  interpreters : u.interpreters.Free
  kernels : u.kernels.Free
  macros : ∀ id entry, u.kernels.find id = some entry → entry.item.macros.Free

/-- The universe is as before, except that the requested dialect may have got an interpreter:
the same live ids, the same tableaux, no coin drawn and nothing allocated, and no flag is set.
-/
structure Restored (dialect : List Byte) (u u' : Universe) : Prop where
  systems : ∀ id, (u'.quantumSystems.find id).isSome = (u.quantumSystems.find id).isSome
  states
    : ∀ id entry entry', u.quantumSystems.find id = some entry
      → u'.quantumSystems.find id = some entry'
      → ∀ key, (entry'.item.states.find key).map Entry.item
        = (entry.item.states.find key).map Entry.item
  kernels : ∀ id, (u'.kernels.find id).isSome = (u.kernels.find id).isSome
  interpreters : ∀ name, name ≠ text dialect
    → (u'.interpreters.find name).isSome = (u.interpreters.find name).isSome
  world : u'.world = u.world
  free : u'.Free

/-- If the request fails because something it names does not exist, the universe is restored. -/
def FailsAtomically (u : Universe) (request : Request) : Prop :=
  request.NamesMissing u → Failed (request.perform u).1
    → Restored request.source.dialect u (request.perform u).2

-----------------------------------------------------------------------------------------
-- Where requests fail
-----------------------------------------------------------------------------------------

/-- The request fails before it sets a flag: the system or the kernel does not exist, or the
dialect of a macro, which is looked up first.
-/
def Request.FailsOutside (u : Universe) : Request → Prop
  | .createState systemId _ | .computeResult systemId _ | .modifyState systemId _ _
  | .measureState systemId _ _ =>
      u.quantumSystems.find systemId = none
  | .compileMacro kernelId source =>
      u.interpreters.find (text source.dialect) = none ∧ text source.dialect ≠ chpextName
        ∨ u.kernels.find kernelId = none

/-- The request fails while it holds the flag of its system or kernel: these exist and are free,
but the dialect, an opcode or the state does not exist.
-/
def Request.FailsInside (u : Universe) : Request → Prop
  | .createState systemId source | .computeResult systemId source =>
      ∃ system, u.quantumSystems.find systemId = some ⟨false, system⟩
        ∧ source.Unknown u.interpreters
  | .modifyState systemId stateId source | .measureState systemId stateId source =>
      ∃ system, u.quantumSystems.find systemId = some ⟨false, system⟩
        ∧ (source.Unknown u.interpreters
          ∨ system.states.find stateId = none
            ∧ ∃ program, compiled u.interpreters source.dialect source.data source.lineDelimiter
              = .ok program)
  | .compileMacro kernelId source =>
      (u.interpreters.find (text source.dialect) ≠ none ∨ text source.dialect = chpextName)
        ∧ ∃ kernel, u.kernels.find kernelId = some ⟨false, kernel⟩
          ∧ source.Unknown u.interpreters

/-- Nothing changed: the universe is restored when it was free. -/
theorem restored_self (dialect : List Byte) (u : Universe) : Restored dialect u u ↔ u.Free := by
  constructor
  · exact Restored.free
  · intro free
    refine {
      systems := fun _ => rfl
      states := ?_
      kernels := fun _ => rfl
      interpreters := fun _ _ => rfl
      world := rfl
      free := free
    }
    intro id entry entry' before after key
    rw [before] at after
    rw [Option.some.inj after]

section System

variable {α : Type} {u : Universe} {systemId : UInt64} {source : Source} {system : QuantumSystem}
  {f : Program → Run (QuantumSystem × World) α}

/-- The operation of a system request. -/
def onSystem (systemId : UInt64) (source : Source) (f : Program → Run (QuantumSystem × World) α)
    (answer : α → Answer) : Run Universe Answer :=
  answer <$> editSystem systemId
    (withProgram source.dialect source.data source.lineDelimiter f)

variable (answer : α → Answer)

theorem onSystem_absent (absent : u.quantumSystems.find systemId = none)
    : onSystem systemId source f answer u
      = (.error (.thrown (.invalidArgument "not found")), u) := by
  rw [onSystem, Run.map_apply, editSystem_absent absent]
  rfl

theorem onSystem_blocked (held : u.quantumSystems.find systemId = some ⟨true, system⟩)
    : onSystem systemId source f answer u = (.error .blocked, u) := by
  rw [onSystem, Run.map_apply, editSystem_blocked held]
  rfl

/-- What stops the function leaves the flag of the system set. -/
theorem onSystem_stopped (free : u.quantumSystems.find systemId = some ⟨false, system⟩)
    {e : Stop} {next : QuantumSystem} {after : Interpreters} {left : World}
    (stops : withProgram source.dialect source.data source.lineDelimiter f
      (system, u.interpreters, u.world) = (.error e, next, after, left))
    : ∃ u', onSystem systemId source f answer u = (.error e, u') ∧ ¬u'.Free := by
  refine ⟨_, by rw [onSystem, Run.map_apply, editSystem_error free stops]; rfl, ?_⟩
  intro cleared
  have held := cleared.systems systemId ⟨true, next⟩ (MsContainer.find_store _ _)
  cases held

theorem onSystem_not_compiled (free : u.quantumSystems.find systemId = some ⟨false, system⟩)
    {e : Stop}
    (fails : compiled u.interpreters source.dialect source.data source.lineDelimiter = .error e)
    : ∃ u', onSystem systemId source f answer u = (.error e, u') ∧ ¬u'.Free := by
  obtain ⟨after, stops⟩ := withProgram_error (f := f) fails
  exact onSystem_stopped answer free stops

/-- A text that does not compile, but not for want of its dialect or an opcode, makes the request
wait or is undefined.
-/
theorem onSystem_not_compiles (free : u.quantumSystems.find systemId = some ⟨false, system⟩)
    (known : ¬source.Unknown u.interpreters)
    (unreached : ¬∃ program,
      compiled u.interpreters source.dialect source.data source.lineDelimiter = .ok program)
    : ¬Failed (onSystem systemId source f answer u).1 := by
  cases result : compiled u.interpreters source.dialect source.data source.lineDelimiter with
  | ok program => exact absurd ⟨program, result⟩ unreached
  | error e =>
      obtain ⟨u', ran, _⟩ := onSystem_not_compiled (f := f) answer free result
      rw [ran]
      cases e with
      | thrown e => exact absurd ⟨e, result⟩ known
      | undefined => exact id
      | blocked => exact id

end System

section Kernel

variable {u : Universe} {interpreters : Interpreters} {dialect : List Byte}

/-- A new interpreter is free, and the requested dialect may get one. -/
theorem restored_initialized
    (initialized : initializeInterpreter dialect u.interpreters = (.ok (), interpreters))
    : Restored dialect u { u with interpreters := interpreters } ↔ u.Free := by
  have kept (name : List Byte) (other : name ≠ text dialect)
      : interpreters.find name = u.interpreters.find name := by
    rcases initializeInterpreter_ok initialized with ⟨_, _, rfl⟩ | ⟨_, _, _, rfl⟩
    · rfl
    · exact MsContainer.find_store_of_ne _ _ other
  have flags : interpreters.Free ↔ u.interpreters.Free := by
    rcases initializeInterpreter_ok initialized with ⟨_, _, rfl⟩ | ⟨_, absent, _, rfl⟩
    · rfl
    · constructor
      · intro free name entry found
        by_cases same : name = text dialect
        · rw [same, absent] at found
          cases found
        · exact free name entry ((MsContainer.find_store_of_ne _ _ same).trans found)
      · intro free name entry found
        rw [MsContainer.find_store_eq] at found
        split at found
        · rw [← Option.some.inj found]
        · exact free name entry found
  constructor
  · intro restored
    have free := restored.free
    exact ⟨free.systems, free.states, flags.mp free.interpreters, free.kernels, free.macros⟩
  · intro free
    have same := (restored_self dialect u).mpr free
    refine {
      systems := fun _ => rfl
      states := same.states
      kernels := fun _ => rfl
      interpreters := fun name other => by rw [kept name other]
      world := rfl
      free := ⟨free.systems, free.states, flags.mpr free.interpreters, free.kernels, free.macros⟩
    }

end Kernel

-----------------------------------------------------------------------------------------
-- When failures are atomic
-----------------------------------------------------------------------------------------

variable {u : Universe} {request : Request}

/-- A failure before the first flag changes nothing but the interpreters. -/
theorem failsAtomically_of_outside (outside : request.FailsOutside u)
    : FailsAtomically u request ↔ u.Free := by
  have unchanged {dialect : List Byte} {outcome : Except Stop Answer × Universe} {e : Exn}
      (names : request.NamesMissing u) (performs : request.perform u = outcome)
      (dialectEq : request.source.dialect = dialect)
      (ends : outcome.1 = .error (.thrown e)) (leaves : Restored dialect u outcome.2 ↔ u.Free)
      : FailsAtomically u request ↔ u.Free := by
    rw [FailsAtomically, performs, ends, dialectEq, leaves]
    simp [names, Failed]
  cases request with
  | createState systemId source =>
      exact unchanged (Or.inl outside) (onSystem_absent .id outside) rfl rfl (restored_self _ u)
  | computeResult systemId source =>
      exact unchanged (Or.inl outside) (onSystem_absent _ outside) rfl rfl (restored_self _ u)
  | modifyState systemId stateId source =>
      exact unchanged (Or.inl outside) (onSystem_absent _ outside) rfl rfl (restored_self _ u)
  | measureState systemId stateId source =>
      exact unchanged (Or.inl outside) (onSystem_absent _ outside) rfl rfl (restored_self _ u)
  | compileMacro kernelId source =>
      have performs := Run.map_apply Answer.id
        (Universe.compileMacro kernelId source.dialect source.data source.lineDelimiter) u
      rcases initializeInterpreter_cases source.dialect u.interpreters with
        ⟨absent, unknown, fails⟩ | ⟨known, left, initialized⟩
      · have missing : source.Unknown u.interpreters := by
          refine ⟨.exception, ?_⟩
          simp [compiled, absent, instantiateDialect, unknown]
        rw [compileMacro_unknown fails] at performs
        exact unchanged (Or.inr missing) performs rfl rfl (restored_self _ u)
      · have absent : u.kernels.find kernelId = none := by
          rcases outside with ⟨absent, unknown⟩ | absent
          · rcases known with present | same
            · exact absurd absent present
            · exact absurd same unknown
          · exact absent
        rw [compileMacro_initialized initialized, editKernel_absent (by exact absent)] at performs
        exact unchanged (Or.inl absent) performs rfl rfl (restored_initialized initialized)

/-- A program cannot be run on a state that does not exist. -/
theorem editState_absent {α : Type} {system : QuantumSystem} {stateId : UInt64}
    (absent : system.states.find stateId = none) (f : Run (ChpState × World) α) (world : World)
    : QuantumSystem.editState stateId f (system, world)
      = (.error (.thrown (.invalidArgument "not found")), system, world) := by
  simp only [QuantumSystem.editState, MsContainer.editItem_absent absent]

/-- A failure inside the function of the system or kernel leaves its flag set. -/
theorem failsAtomically_of_inside (inside : request.FailsInside u) : ¬FailsAtomically u request := by
  have left {e : Exn} {u' : Universe} (names : request.NamesMissing u)
      (performs : request.perform u = (.error (.thrown e), u')) (held : ¬u'.Free)
      : ¬FailsAtomically u request := by
    rw [FailsAtomically, performs]
    exact fun atomic => held (atomic names trivial).free
  cases request with
  | createState systemId source =>
      obtain ⟨system, free, e, unknown⟩ := inside
      obtain ⟨u', performs, held⟩ := onSystem_not_compiled .id free unknown
      exact left (Or.inr ⟨e, unknown⟩) performs held
  | computeResult systemId source =>
      obtain ⟨system, free, e, unknown⟩ := inside
      obtain ⟨u', performs, held⟩ := onSystem_not_compiled _ free unknown
      exact left (Or.inr ⟨e, unknown⟩) performs held
  | modifyState systemId stateId source =>
      obtain ⟨system, free, ⟨e, unknown⟩ | ⟨absent, program, compiles⟩⟩ := inside
      · obtain ⟨u', performs, held⟩ := onSystem_not_compiled _ free unknown
        exact left (Or.inr (Or.inl ⟨e, unknown⟩)) performs held
      · obtain ⟨after, stops⟩ := withProgram_ok
          (f := fun program => QuantumSystem.programModifyState program stateId) compiles
          (editState_absent absent _ u.world)
        obtain ⟨u', performs, held⟩ := onSystem_stopped _ free stops
        exact left (Or.inr (Or.inr ⟨_, free, absent⟩)) performs held
  | measureState systemId stateId source =>
      obtain ⟨system, free, ⟨e, unknown⟩ | ⟨absent, program, compiles⟩⟩ := inside
      · obtain ⟨u', performs, held⟩ := onSystem_not_compiled _ free unknown
        exact left (Or.inr (Or.inl ⟨e, unknown⟩)) performs held
      · obtain ⟨after, stops⟩ := withProgram_ok
          (f := fun program => QuantumSystem.programMeasureState program stateId .empty) compiles
          (editState_absent absent _ u.world)
        obtain ⟨u', performs, held⟩ := onSystem_stopped _ free stops
        exact left (Or.inr (Or.inr ⟨_, free, absent⟩)) performs held
  | compileMacro kernelId source =>
      obtain ⟨known, kernel, free, e, unknown⟩ := inside
      rcases initializeInterpreter_cases source.dialect u.interpreters with
        ⟨absent, other, _⟩ | ⟨_, interpreters, initialized⟩
      · rcases known with present | same
        · exact absurd absent present
        · exact absurd same other
      · have fails := compiled_initialized source.data source.lineDelimiter initialized
        rw [unknown] at fails
        have refused : ∃ after, insertCompiled source.dialect source.data source.lineDelimiter
            (kernel, interpreters) = (.error (.thrown e), kernel, after) := insertCompiled_error fails
        obtain ⟨after, stops⟩ := refused
        have performs := Run.map_apply Answer.id
          (Universe.compileMacro kernelId source.dialect source.data source.lineDelimiter) u
        rw [compileMacro_initialized initialized, editKernel_error (by exact free) stops] at performs
        refine left (Or.inr ⟨e, unknown⟩) performs ?_
        intro cleared
        have held := cleared.kernels kernelId ⟨true, kernel⟩ (MsContainer.find_store _ _)
        cases held

/-- A system that exists is free or makes the request wait. -/
theorem onSystem_waits {α : Type} {systemId : UInt64} {source : Source}
    {f : Program → Run (QuantumSystem × World) α} (answer : α → Answer)
    (present : u.quantumSystems.find systemId ≠ none)
    : (∃ system, u.quantumSystems.find systemId = some ⟨false, system⟩)
      ∨ ¬Failed (onSystem systemId source f answer u).1 := by
  obtain ⟨⟨flag, system⟩, found⟩ := Option.ne_none_iff_exists'.mp present
  cases flag with
  | false => exact Or.inl ⟨system, found⟩
  | true =>
      rw [onSystem_blocked answer found]
      exact Or.inr id

/-- Without either failure the request does not fail for want of something it names. -/
theorem failsAtomically_of_neither (outside : ¬request.FailsOutside u)
    (inside : ¬request.FailsInside u)
    : FailsAtomically u request := by
  intro names failed
  exfalso
  cases request with
  | createState systemId source =>
      rcases names with absent | unknown
      · exact outside absent
      · rcases onSystem_waits .id outside with ⟨system, free⟩ | waits
        · exact inside ⟨system, free, unknown⟩
        · exact waits failed
  | computeResult systemId source =>
      rcases names with absent | unknown
      · exact outside absent
      · rcases onSystem_waits _ outside with ⟨system, free⟩ | waits
        · exact inside ⟨system, free, unknown⟩
        · exact waits failed
  | modifyState systemId stateId source =>
      rcases onSystem_waits _ outside with ⟨system, free⟩ | waits
      · rcases names with absent | unknown | ⟨entry, found, absent⟩
        · exact outside absent
        · exact inside ⟨system, free, Or.inl unknown⟩
        · rw [free] at found
          obtain rfl := Option.some.inj found
          exact onSystem_not_compiles _ free
            (fun unknown => inside ⟨system, free, Or.inl unknown⟩)
            (fun compiles => inside ⟨system, free, Or.inr ⟨absent, compiles⟩⟩) failed
      · exact waits failed
  | measureState systemId stateId source =>
      rcases onSystem_waits _ outside with ⟨system, free⟩ | waits
      · rcases names with absent | unknown | ⟨entry, found, absent⟩
        · exact outside absent
        · exact inside ⟨system, free, Or.inl unknown⟩
        · rw [free] at found
          obtain rfl := Option.some.inj found
          exact onSystem_not_compiles _ free
            (fun unknown => inside ⟨system, free, Or.inl unknown⟩)
            (fun compiles => inside ⟨system, free, Or.inr ⟨absent, compiles⟩⟩) failed
      · exact waits failed
  | compileMacro kernelId source =>
      rcases initializeInterpreter_cases source.dialect u.interpreters with
        ⟨absent, unknown, _⟩ | ⟨known, interpreters, initialized⟩
      · exact outside (Or.inl ⟨absent, unknown⟩)
      · have present : u.kernels.find kernelId ≠ none := fun absent => outside (Or.inr absent)
        obtain ⟨⟨flag, kernel⟩, found⟩ := Option.ne_none_iff_exists'.mp present
        cases flag with
        | false =>
            rcases names with absent | unknown
            · exact present absent
            · exact inside ⟨known, kernel, found, unknown⟩
        | true =>
            have performs := Run.map_apply Answer.id
              (Universe.compileMacro kernelId source.dialect source.data source.lineDelimiter) u
            rw [compileMacro_initialized initialized, editKernel_blocked (by exact found)]
              at performs
            change Failed ((Answer.id <$> Universe.compileMacro kernelId source.dialect
              source.data source.lineDelimiter) u).1 at failed
            rw [performs] at failed
            exact failed

/-- A request that fails because something it names does not exist leaves the universe as it was
exactly when no such failure occurs inside the function of its system or kernel, and, where it
occurs before, no flag had been left set.
-/
theorem failsAtomically_iff (u : Universe) (request : Request)
    : FailsAtomically u request
      ↔ ¬request.FailsInside u ∧ (request.FailsOutside u → u.Free) := by
  by_cases outside : request.FailsOutside u
  · rw [failsAtomically_of_outside outside]
    refine ⟨fun free => ⟨fun inside => ?_, fun _ => free⟩, fun condition => condition.2 outside⟩
    exact failsAtomically_of_inside inside ((failsAtomically_of_outside outside).mpr free)
  · by_cases inside : request.FailsInside u
    · exact iff_of_false (failsAtomically_of_inside inside) (fun condition => condition.1 inside)
    · exact iff_of_true (failsAtomically_of_neither outside inside)
        ⟨inside, fun out => absurd out outside⟩

theorem oneSystem_free : oneSystem.Free := by
  have only (id : UInt64) (entry : Entry QuantumSystem)
      (found : oneSystem.quantumSystems.find id = some entry) : entry = ⟨false, ⟨.new 0⟩⟩ := by
    simp only [oneSystem, MsContainer.find_store_eq, MsContainer.find_new] at found
    split at found
    · exact (Option.some.inj found).symm
    · cases found
  refine {
    systems := fun id entry found => by rw [only id entry found]
    states := ?_
    interpreters := fun name entry found => by simp [oneSystem, Universe.new] at found
    kernels := fun id entry found => by simp [oneSystem, Universe.new] at found
    macros := fun id entry found => by simp [oneSystem, Universe.new] at found
  }
  intro id entry found key state stored
  rw [only id entry found] at stored
  simp at stored

/-- `create_state` with the text `q 0` throws, and its system stays locked. -/
theorem unknown_opcode_keeps_flag : ¬∀ u request, u.Free → FailsAtomically u request := by
  intro claimed
  refine failsAtomically_of_inside ?_ (claimed oneSystem
    (.createState 0 ⟨chpextName ++ [0], [113, 32, 48, 0], 10⟩) oneSystem_free)
  exact ⟨⟨.new 0⟩, MsContainer.find_store _ _, .exception, rfl⟩

end Sabot.Universe
