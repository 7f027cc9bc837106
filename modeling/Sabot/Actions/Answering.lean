import Sabot.Actions.Process
import Sabot.Randnum.Returning
import Sabot.Universe.StoredStates

/-! What an action needs to answer, with every failure reported. A program that fails is reported by
two of the four actions that run one.
-/

namespace Sabot.Actions

open Sabot.Language (Byte Program)
open Sabot.State (ChpState Pointers ProgramRuns World)
open Sabot.Net (Numbers Request Response)
open Sabot.Randnum (Doubles Draws)

/-- The allocator grants an array of words. -/
def GrantsArray (count : UInt64) (u : Universe) : Prop :=
  (State.allocate count.toNat u.world.grants).1.isSome

/-- The parameters of the actions that compile a text, from `index` on. -/
def HasText (request : Request) (index : Nat) (dialect data : List Byte)
    (delimiter : UInt64) : Prop :=
  request.string index = .ok dialect ∧ request.string (index + 1) = .ok data
    ∧ request.unsigned (index + 2) = .ok delimiter

/-- The state that a request runs its program on: a new one, or one that is there and free. -/
inductive RunsOn (request : Request) (u : Universe) : Action → ChpState → Program → Prop where
  | createState {systemId dialect data delimiter system program}
      (systemIdIs : request.unsigned 0 = .ok systemId)
      (text : HasText request 1 dialect data delimiter)
      (free : u.quantumSystems.find systemId = some ⟨false, system⟩)
      (compiles : compiled u.interpreters dialect data (lineDelimiter delimiter) = .ok program)
      : RunsOn request u .createState .fresh program
  | modifyState {systemId stateId dialect data delimiter system program state}
      (systemIdIs : request.unsigned 0 = .ok systemId) (stateIdIs : request.unsigned 1 = .ok stateId)
      (text : HasText request 2 dialect data delimiter)
      (free : u.quantumSystems.find systemId = some ⟨false, system⟩)
      (compiles : compiled u.interpreters dialect data (lineDelimiter delimiter) = .ok program)
      (stored : system.states.find stateId = some ⟨false, state⟩)
      : RunsOn request u .modifyState state program
  | measureState {systemId stateId dialect data delimiter system program state}
      (systemIdIs : request.unsigned 0 = .ok systemId) (stateIdIs : request.unsigned 1 = .ok stateId)
      (text : HasText request 2 dialect data delimiter)
      (free : u.quantumSystems.find systemId = some ⟨false, system⟩)
      (compiles : compiled u.interpreters dialect data (lineDelimiter delimiter) = .ok program)
      (stored : system.states.find stateId = some ⟨false, state⟩)
      : RunsOn request u .measureState state program
  | computeResult {systemId dialect data delimiter system program}
      (systemIdIs : request.unsigned 0 = .ok systemId)
      (text : HasText request 1 dialect data delimiter)
      (free : u.quantumSystems.find systemId = some ⟨false, system⟩)
      (compiles : compiled u.interpreters dialect data (lineDelimiter delimiter) = .ok program)
      : RunsOn request u .computeResult .fresh program

/-- The run of the request's program comes to an end as stated. -/
def RunEnds (request : Request) (u : Universe) (action : Action) (ends : Bool → Pointers → Prop)
    : Prop :=
  ∃ state program ok m, RunsOn request u action state program
    ∧ State.runProgram .allocated program ⟨state, .empty, u.world⟩ = some (ok, m)
    ∧ ends ok m.state.pointers

/-- What the run of an action's program has to come to. Creating and modifying do not report a
program that fails; the state that a result is computed on is destroyed.
-/
def Action.Demands : Action → Bool → Pointers → Prop
  | .createState, ok, pointers | .modifyState, ok, pointers => ok = true ∧ pointers ≠ .freedTwice
  | .computeResult, _, pointers => pointers = .live ∨ pointers = .stale 0
  | _, _, pointers => pointers ≠ .freedTwice

/-- What an action needs to return without a failure or to throw a runtime error: parameters of its
types, a live and free item under each id, a known dialect and known opcodes, a program that stays
inside its arrays and comes to what it has to, and the memory it asks for.
-/
def Action.Answerable (doubles : Doubles) (numbers : Numbers) (request : Request) (u : Universe)
    (action : Action) : Prop :=
  match action with
  | .getUniformInteger =>
      ∃ count, request.unsigned 0 = .ok count ∧ GrantsArray count u
        ∧ (count.toNat = 0 ∨ ∃ lower, request.unsigned 1 = .ok lower
          ∧ ∃ upper, request.unsigned 2 = .ok upper ∧ lower ≤ upper)
  | .getUniformReal =>
      ∃ count, request.unsigned 0 = .ok count ∧ GrantsArray count u
        ∧ (count.toNat = 0 ∨ ∃ lower, request.double numbers 1 = .ok lower
          ∧ ∃ upper, request.double numbers 2 = .ok upper ∧ doubles.le lower upper = true)
  | .getWeightedInteger =>
      ∃ size, request.unsigned 1 = .ok size ∧ ∃ weights, request.doubles numbers 2 = .ok weights
        ∧ ∃ count, request.unsigned 0 = .ok count ∧ GrantsArray count u
        ∧ (count.toNat = 0 ∨ Randnum.Weighs doubles weights size.toNat
          ∧ ∀ k < count.toNat,
            Randnum.Selects doubles weights size.toNat (u.draws.reals.get k))
  | .createKernel => True
  | .deleteKernel => ∃ kernelId, request.unsigned 0 = .ok kernelId ∧ u.kernels.find kernelId ≠ none
  | .compileMacro =>
      ∃ kernelId, request.unsigned 0 = .ok kernelId
        ∧ ∃ dialect data delimiter, HasText request 1 dialect data delimiter
        ∧ ∃ kernel program, u.kernels.find kernelId = some ⟨false, kernel⟩
        ∧ compiled u.interpreters dialect data (lineDelimiter delimiter) = .ok program
  | .createSystem =>
      ∃ stateType, request.string 0 = .ok stateType ∧ text stateType = chpStateName
  | .deleteSystem =>
      ∃ systemId, request.unsigned 0 = .ok systemId
        ∧ ∃ entry, u.quantumSystems.find systemId = some entry
        ∧ ∀ stateId stored, entry.item.states.find stateId = some stored → stored.item.Whole
  | .deleteState =>
      ∃ systemId, request.unsigned 0 = .ok systemId ∧ ∃ stateId, request.unsigned 1 = .ok stateId
        ∧ ∃ system entry, u.quantumSystems.find systemId = some ⟨false, system⟩
        ∧ system.states.find stateId = some entry ∧ entry.item.Whole
  | .createState | .modifyState | .measureState | .computeResult =>
      ∃ state program, RunsOn request u action state program
        ∧ ProgramRuns action.Demands program state u.world.grants

section Parameters

variable (request : Request) (index : Nat) (what : String)

theorem unsigned_quiet : request.unsigned index ≠ .error (.thrown (.runtimeError what)) := by
  rw [Request.unsigned]
  split <;> simp

theorem string_quiet : request.string index ≠ .error (.thrown (.runtimeError what)) := by
  rw [Request.string]
  split <;> simp

omit request index in
theorem read_quiet (numbers : Numbers) (value : Net.Json)
    : numbers.read value ≠ .error (.thrown (.runtimeError what)) := by
  rw [Numbers.read]
  split <;> simp

theorem double_quiet (numbers : Numbers)
    : request.double numbers index ≠ .error (.thrown (.runtimeError what)) := by
  rw [Request.double]
  split
  · exact read_quiet what numbers _
  · simp

theorem doubles_quiet (numbers : Numbers)
    : request.doubles numbers index ≠ .error (.thrown (.runtimeError what)) := by
  rw [Request.doubles]
  split
  · rename_i items found
    clear found
    induction items with
    | nil => simp [pure, Except.pure]
    | cons item rest ih =>
        have first := read_quiet what numbers item
        rw [List.mapM_cons]
        cases value : numbers.read item with
        | error e => simpa [bind, Except.bind, value] using first
        | ok bits =>
            cases later : rest.mapM numbers.read with
            | ok values => simp [bind, Except.bind, pure, Except.pure]
            | error e => simpa [bind, Except.bind, later] using ih
  · simp

end Parameters

section Process

variable {doubles : Doubles} {numbers : Numbers} {request : Request} {u : Universe}

theorem newArray_returns {count : UInt64}
    : (newArray count.toNat).Returns u ↔ GrantsArray count u := by
  rw [GrantsArray, Run.Returns, newArray]
  cases answer : State.allocate count.toNat u.world.grants with
  | mk content grants => cases content <;> simp

theorem newArray_quiet (count : Nat) : (newArray count).Quiet := by
  intro u t what ran
  rw [newArray] at ran
  split at ran <;> cases ran

theorem onDraws_quiet {α : Type} {x : Run Draws α} (quiet : x.Quiet) : (onDraws x).Quiet :=
  quiet.within

/-- The array is allocated, which keeps the draws, and then filled. -/
theorem drawArray_answers {count : Except Stop UInt64}
    (quietCount : ∀ what, count ≠ .error (.thrown (.runtimeError what)))
    {draw : Run Draws UInt64} (quiet : draw.Quiet) {result : List UInt64 → Net.Result}
    : (drawArray count draw result).Answers u
      ↔ ∃ value, count = .ok value ∧ GrantsArray value u
        ∧ (Randnum.drawMany draw value.toNat).Returns u.draws := by
  rw [drawArray, Run.answers_ofExcept_bind quietCount]
  refine exists_congr (fun value => and_congr_right (fun _ => ?_))
  rw [Run.answers_bind (newArray_quiet value.toNat), ← newArray_returns]
  have draws {t : Universe} (ran : newArray value.toNat u = (.ok (), t)) : t.draws = u.draws := by
    rw [newArray] at ran
    split at ran
    · exact (congrArg Universe.draws (Prod.mk.inj ran).2).symm
    · cases ran
  have filled {t : Universe}
      : (do
          let values ← onDraws (Randnum.drawMany draw value.toNat)
          return response (result values)).Answers t
        ↔ (Randnum.drawMany draw value.toNat).Returns t.draws := by
    rw [Run.answers_bind_always (onDraws_quiet (Randnum.drawMany_quiet quiet _))
      (fun _ _ => Or.inl (Run.returns_pure _ _)), onDraws, Run.returns_within]
  constructor
  · rintro ⟨_, t, ran, answers⟩
    have returns := filled.mp answers
    rw [draws ran] at returns
    exact ⟨⟨_, t, ran⟩, returns⟩
  · rintro ⟨⟨_, t, ran⟩, returns⟩
    refine ⟨(), t, ran, filled.mpr ?_⟩
    rw [draws ran]
    exact returns

/-- A response is made of what a quiet operation returns. -/
theorem responds {α : Type} {x : Run Universe α} (quiet : x.Quiet) {result : α → Net.Result}
    : (do return response (result (← x))).Answers u ↔ x.Returns u :=
  Run.answers_bind_always quiet (fun _ _ => Or.inl (Run.returns_pure _ _))

/-- A false result is turned into a runtime error. -/
theorem responds_or_throws {x : Run Universe (Bool × State.StringBuffer)} (quiet : x.Quiet)
    {what : String}
    : (do
        let (result, buffer) ← x
        if !result then Run.ofExcept (.error (.thrown (.runtimeError what)))
        else return response (.buffer buffer)).Answers u ↔ x.Returns u := by
  refine Run.answers_bind_always quiet ?_
  rintro ⟨result, buffer⟩ t
  cases result with
  | true => exact Or.inl (Run.returns_pure _ _)
  | false => exact Or.inr ⟨what, t, rfl⟩

/-- The text parameters are read first. -/
theorem text_answers (index : Nat) {f : List Byte → List Byte → UInt64 → Run Universe Response}
    {needs : List Byte → List Byte → UInt64 → Prop}
    (each : ∀ dialect data delimiter,
      (f dialect data delimiter).Answers u ↔ needs dialect data delimiter)
    : (do
        let dialect ← Run.ofExcept (request.string index)
        let data ← Run.ofExcept (request.string (index + 1))
        let delimiter ← Run.ofExcept (request.unsigned (index + 2))
        f dialect data delimiter).Answers u
      ↔ ∃ dialect data delimiter, HasText request index dialect data delimiter
        ∧ needs dialect data delimiter := by
  simp only [Run.answers_ofExcept_bind (string_quiet request _),
    Run.answers_ofExcept_bind (unsigned_quiet request _), HasText, each]
  constructor
  · rintro ⟨dialect, hd, data, ht, delimiter, hl, answers⟩
    exact ⟨dialect, data, delimiter, ⟨hd, ht, hl⟩, answers⟩
  · rintro ⟨dialect, data, delimiter, ⟨hd, ht, hl⟩, answers⟩
    exact ⟨dialect, hd, data, ht, delimiter, hl, answers⟩

/-- The actions that run a program answer when the run stays inside the arrays and leaves pointers
that can be stored or destroyed.
-/
theorem createState_answers
    : (Action.createState.process doubles numbers request).Answers u
      ↔ RunEnds request u .createState (fun _ => Action.createState.Demands true) := by
  have reads : (Action.createState.process doubles numbers request).Answers u
      ↔ ∃ systemId, request.unsigned 0 = .ok systemId
        ∧ ∃ dialect data delimiter, HasText request 1 dialect data delimiter
        ∧ (Universe.createState systemId dialect data (lineDelimiter delimiter)).Returns u := by
    rw [Action.process, Run.answers_ofExcept_bind (unsigned_quiet request 0)]
    exact exists_congr (fun systemId => and_congr_right (fun _ =>
      text_answers 1 (fun _ _ _ => responds Universe.createState_quiet)))
  simp only [reads, Universe.createState, Universe.editSystem_returns,
    Universe.withProgram_returns, QuantumSystem.programInsertState_returns, encodeState_completes]
  constructor
  · rintro ⟨_, names, _, _, _, text, _, free, program, compiles, ok, m, ran, once⟩
    exact ⟨_, program, ok, m, .createState names text free compiles, ran, rfl, once⟩
  · rintro ⟨_, program, ok, m, on, ran, _, once⟩
    cases on with
    | createState names text free compiles =>
        exact ⟨_, names, _, _, _, text, _, free, program, compiles, ok, m, ran, once⟩

theorem modifyState_answers
    : (Action.modifyState.process doubles numbers request).Answers u
      ↔ RunEnds request u .modifyState (fun _ => Action.modifyState.Demands true) := by
  have reads : (Action.modifyState.process doubles numbers request).Answers u
      ↔ ∃ systemId, request.unsigned 0 = .ok systemId ∧ ∃ stateId, request.unsigned 1 = .ok stateId
        ∧ ∃ dialect data delimiter, HasText request 2 dialect data delimiter
        ∧ (Universe.modifyState systemId stateId dialect data
            (lineDelimiter delimiter)).Returns u := by
    simp only [Action.process, Run.answers_ofExcept_bind (unsigned_quiet request _)]
    refine exists_congr (fun systemId => and_congr_right (fun _ => ?_))
    exact exists_congr (fun stateId => and_congr_right (fun _ =>
      text_answers 2 (fun _ _ _ => responds Universe.modifyState_quiet)))
  simp only [reads, Universe.modifyState, Universe.editSystem_returns,
    Universe.withProgram_returns, QuantumSystem.programModifyState_returns, modifyState_completes]
  constructor
  · rintro ⟨_, names, _, inside, _, _, _, text, _, free, program, compiles, _, stored, ok, m, ran,
      once⟩
    exact ⟨_, program, ok, m, .modifyState names inside text free compiles stored, ran, rfl, once⟩
  · rintro ⟨_, program, ok, m, on, ran, _, once⟩
    cases on with
    | modifyState names inside text free compiles stored =>
        exact ⟨_, names, _, inside, _, _, _, text, _, free, program, compiles, _, stored, ok, m, ran,
          once⟩

theorem measureState_answers
    : (Action.measureState.process doubles numbers request).Answers u
      ↔ RunEnds request u .measureState (fun _ => Action.measureState.Demands true) := by
  have reads : (Action.measureState.process doubles numbers request).Answers u
      ↔ ∃ systemId, request.unsigned 0 = .ok systemId ∧ ∃ stateId, request.unsigned 1 = .ok stateId
        ∧ ∃ dialect data delimiter, HasText request 2 dialect data delimiter
        ∧ (Universe.measureState systemId stateId dialect data (lineDelimiter delimiter)
            .empty).Returns u := by
    simp only [Action.process, Run.answers_ofExcept_bind (unsigned_quiet request _)]
    refine exists_congr (fun systemId => and_congr_right (fun _ => ?_))
    exact exists_congr (fun stateId => and_congr_right (fun _ =>
      text_answers 2 (fun _ _ _ => responds_or_throws Universe.measureState_quiet)))
  simp only [reads, Universe.measureState, Universe.editSystem_returns,
    Universe.withProgram_returns, QuantumSystem.programMeasureState_returns,
    measureState_completes]
  constructor
  · rintro ⟨_, names, _, inside, _, _, _, text, _, free, program, compiles, _, stored, ok, m, ran,
      once⟩
    exact ⟨_, program, ok, m, .measureState names inside text free compiles stored, ran, once⟩
  · rintro ⟨_, program, ok, m, on, ran, once⟩
    cases on with
    | measureState names inside text free compiles stored =>
        exact ⟨_, names, _, inside, _, _, _, text, _, free, program, compiles, _, stored, ok, m, ran,
          once⟩

theorem computeResult_answers
    : (Action.computeResult.process doubles numbers request).Answers u
      ↔ RunEnds request u .computeResult (fun _ => Action.computeResult.Demands true) := by
  have reads : (Action.computeResult.process doubles numbers request).Answers u
      ↔ ∃ systemId, request.unsigned 0 = .ok systemId
        ∧ ∃ dialect data delimiter, HasText request 1 dialect data delimiter
        ∧ (Universe.computeResult systemId dialect data (lineDelimiter delimiter)
            .empty).Returns u := by
    rw [Action.process, Run.answers_ofExcept_bind (unsigned_quiet request 0)]
    exact exists_congr (fun systemId => and_congr_right (fun _ =>
      text_answers 1 (fun _ _ _ => responds_or_throws Universe.computeResult_quiet)))
  simp only [reads, Universe.computeResult, Universe.editSystem_returns,
    Universe.withProgram_returns, QuantumSystem.programComputeResult_returns,
    State.ChpState.destroy_iff]
  constructor
  · rintro ⟨_, names, _, _, _, text, _, free, program, compiles, ok, m, ran, whole⟩
    exact ⟨_, program, ok, m, .computeResult names text free compiles, ran, whole⟩
  · rintro ⟨_, program, ok, m, on, ran, whole⟩
    cases on with
    | computeResult names text free compiles =>
        exact ⟨_, names, _, _, _, text, _, free, program, compiles, ok, m, ran, whole⟩

/-- The program that a request has run on a state fails. -/
def ProgramFails (request : Request) (u : Universe) (action : Action) : Prop :=
  RunEnds request u action (fun ok _ => ok = false)

theorem HasText.unique {index : Nat} {dialect dialect' data data' : List Byte}
    {delimiter delimiter' : UInt64} (text : HasText request index dialect data delimiter)
    (text' : HasText request index dialect' data' delimiter')
    : dialect = dialect' ∧ data = data' ∧ delimiter = delimiter' := by
  obtain ⟨dialectIs, dataIs, delimiterIs⟩ := text
  obtain ⟨dialectIs', dataIs', delimiterIs'⟩ := text'
  exact ⟨Except.ok.inj (dialectIs.symm.trans dialectIs'),
    Except.ok.inj (dataIs.symm.trans dataIs'),
    Except.ok.inj (delimiterIs.symm.trans delimiterIs')⟩

/-- The actions that run a program on a state. -/
def Action.runsProgram : Action → Bool
  | .createState | .modifyState | .measureState | .computeResult => true
  | _ => false

theorem RunsOn.runsProgram {action : Action} {state : ChpState} {program : Program}
    (on : RunsOn request u action state program)
    : action.runsProgram = true := by
  cases on <;> rfl

/-- A request runs one program on one state. -/
theorem RunsOn.unique {action : Action} {state state' : ChpState} {program program' : Program}
    (on : RunsOn request u action state program) (on' : RunsOn request u action state' program')
    : state = state' ∧ program = program' := by
  cases on with
  | createState names text free compiles =>
      cases on' with
      | createState _ text' _ compiles' =>
          obtain ⟨rfl, rfl, rfl⟩ := text.unique text'
          exact ⟨rfl, Except.ok.inj (compiles.symm.trans compiles')⟩
  | modifyState names inside text free compiles stored =>
      cases on' with
      | modifyState names' inside' text' free' compiles' stored' =>
          obtain ⟨rfl, rfl, rfl⟩ := text.unique text'
          cases names.symm.trans names'
          cases inside.symm.trans inside'
          cases free.symm.trans free'
          cases stored.symm.trans stored'
          exact ⟨rfl, Except.ok.inj (compiles.symm.trans compiles')⟩
  | measureState names inside text free compiles stored =>
      cases on' with
      | measureState names' inside' text' free' compiles' stored' =>
          obtain ⟨rfl, rfl, rfl⟩ := text.unique text'
          cases names.symm.trans names'
          cases inside.symm.trans inside'
          cases free.symm.trans free'
          cases stored.symm.trans stored'
          exact ⟨rfl, Except.ok.inj (compiles.symm.trans compiles')⟩
  | computeResult names text free compiles =>
      cases on' with
      | computeResult _ text' _ compiles' =>
          obtain ⟨rfl, rfl, rfl⟩ := text.unique text'
          exact ⟨rfl, Except.ok.inj (compiles.symm.trans compiles')⟩

theorem RunEnds.and {action : Action} {ends others : Bool → Pointers → Prop}
    (first : RunEnds request u action ends) (second : RunEnds request u action others)
    : RunEnds request u action (fun ok pointers => ends ok pointers ∧ others ok pointers) := by
  obtain ⟨state, program, ok, m, on, ran, holds⟩ := first
  obtain ⟨state', program', ok', m', on', ran', also⟩ := second
  obtain ⟨rfl, rfl⟩ := on.unique on'
  cases ran.symm.trans ran'
  exact ⟨state, program, ok, m, on, ran, holds, also⟩

theorem RunEnds.imp {action : Action} {ends others : Bool → Pointers → Prop}
    (run : RunEnds request u action ends)
    (implies : ∀ ok pointers, ends ok pointers → others ok pointers)
    : RunEnds request u action others := by
  obtain ⟨state, program, ok, m, on, ran, holds⟩ := run
  exact ⟨state, program, ok, m, on, ran, implies ok _ holds⟩

/-- What a run comes to is decided by the program and by the state before. -/
theorem runEnds_iff (formed : u.Formed) {action : Action} {ends : Bool → Pointers → Prop}
    : RunEnds request u action ends
      ↔ ∃ state program, RunsOn request u action state program
          ∧ ProgramRuns ends program state u.world.grants := by
  refine exists_congr (fun state => exists_congr (fun program => ?_))
  simp only [exists_and_left]
  refine and_congr_right (fun on => ?_)
  cases on with
  | createState _ _ _ compiles =>
      exact (State.programRuns_iff .fresh (compiled_holds compiles)).symm
  | modifyState _ _ _ free compiles stored =>
      exact (State.programRuns_iff (formed.state free stored) (compiled_holds compiles)).symm
  | measureState _ _ _ free compiles stored =>
      exact (State.programRuns_iff (formed.state free stored) (compiled_holds compiles)).symm
  | computeResult _ _ _ compiles =>
      exact (State.programRuns_iff .fresh (compiled_holds compiles)).symm

section Reports

variable {x : Run Universe Response} {action : Action}
  (answers : x.Answers u ↔ RunEnds request u action (fun _ => action.Demands true))
include answers

/-- An action that does not look at what its program returns. -/
theorem silent_iff (quiet : x.Quiet)
    (demands : ∀ ok pointers, action.Demands ok pointers
      ↔ ok = true ∧ action.Demands true pointers)
    : x.Answers u ∧ (x.Returns u → ¬ProgramFails request u action)
      ↔ RunEnds request u action action.Demands := by
  have returns (answered : x.Answers u) : x.Returns u :=
    answered.resolve_right (fun ⟨what, t, throws⟩ => quiet u t what throws)
  constructor
  · rintro ⟨answered, reported⟩
    obtain ⟨state, program, ok, m, on, ran, demanded⟩ := answers.mp answered
    refine ⟨state, program, ok, m, on, ran, (demands ok _).mpr ⟨?_, demanded⟩⟩
    by_contra failed
    rw [Bool.not_eq_true] at failed
    exact reported (returns answered) ⟨state, program, ok, m, on, ran, failed⟩
  · intro run
    refine ⟨answers.mpr (run.imp fun ok pointers holds => ((demands ok pointers).mp holds).2),
      fun _ fails => ?_⟩
    obtain ⟨_, _, ok, m, _, _, demanded, failed⟩ := run.and fails
    rw [failed] at demanded
    exact Bool.false_ne_true ((demands false _).mp demanded).1

/-- An action that throws when its program fails. -/
theorem throwing_iff (throws : ProgramFails request u action → ¬x.Returns u)
    (demands : ∀ ok pointers, action.Demands ok pointers ↔ action.Demands true pointers)
    : x.Answers u ∧ (x.Returns u → ¬ProgramFails request u action)
      ↔ RunEnds request u action action.Demands := by
  have same : action.Demands = fun _ => action.Demands true := by
    funext ok pointers
    exact propext (demands ok pointers)
  rw [same, ← answers]
  exact and_iff_left (fun returns fails => throws fails returns)

end Reports

/-- A result that is not true is no response. -/
theorem not_returns {x : Run Universe (Bool × State.StringBuffer)} {what : String}
    (fails : ∀ buffer, (x u).1 ≠ .ok (true, buffer))
    : ¬(do
        let (result, buffer) ← x
        if !result then Run.ofExcept (.error (.thrown (.runtimeError what)))
        else return response (.buffer buffer)).Returns u := by
  rw [Run.returns_bind]
  rintro ⟨⟨result, buffer⟩, t, ran, later⟩
  cases result with
  | true => exact fails buffer (by rw [ran])
  | false => simp [Run.Returns] at later

theorem measureState_throws (fails : ProgramFails request u .measureState)
    : ¬(Action.measureState.process doubles numbers request).Returns u := by
  obtain ⟨state, program, _, m, on, ran, rfl⟩ := fails
  cases on with
  | measureState names inside text free compiles stored =>
      obtain ⟨dialectIs, dataIs, delimiterIs⟩ := text
      simp only [Action.process, names, inside, dialectIs, dataIs, delimiterIs]
      refine not_returns fun buffer => ?_
      rw [Universe.measureState, Universe.editSystem_result free,
        Universe.withProgram_result compiles, QuantumSystem.programMeasureState,
        QuantumSystem.editState_result stored, QuantumSystem.measureItem, State.measureState, ran]
      by_cases once : m.state.pointers = .freedTwice
      · simp [returned, once]
      · simp [returned, once]

theorem computeResult_throws (fails : ProgramFails request u .computeResult)
    : ¬(Action.computeResult.process doubles numbers request).Returns u := by
  obtain ⟨state, program, _, m, on, ran, rfl⟩ := fails
  cases on with
  | computeResult names text free compiles =>
      obtain ⟨dialectIs, dataIs, delimiterIs⟩ := text
      simp only [Action.process, names, dialectIs, dataIs, delimiterIs]
      refine not_returns fun buffer => ?_
      rw [Universe.computeResult, Universe.editSystem_result free,
        Universe.withProgram_result compiles, QuantumSystem.programComputeResult,
        State.computeResult, ran]
      by_cases once : m.state.pointers = .freedTwice
      · simp [returned, once]
      · cases destroyed : m.state.destroy <;> simp [returned, once, destroyed]

/-- A response that is made of a result reports no failure. -/
theorem process_response {action : Action} {reply : Response} {t : Universe}
    (ran : action.process doubles numbers request u = (.ok reply, t))
    : reply.error = false := by
  suffices yields : (action.process doubles numbers request).Yields (fun reply : Response =>
      reply.error = false) from
    yields u reply t ran
  have made (result : Net.Result)
      : (pure (response result) : Run Universe Response).Yields (fun reply : Response =>
          reply.error = false) :=
    Run.yields_pure rfl
  have draws {count : Except Stop UInt64} {draw : Run Draws UInt64}
      {result : List UInt64 → Net.Result}
      : (drawArray count draw result).Yields (fun reply : Response => reply.error = false) :=
    Run.yields_bind fun _ => Run.yields_bind fun _ => Run.yields_bind fun _ => made _
  have checked {x : Run Universe (Bool × State.StringBuffer)} {what : String}
      : (do
          let (result, buffer) ← x
          if !result then Run.ofExcept (.error (.thrown (.runtimeError what)))
          else return response (.buffer buffer)).Yields (fun reply : Response =>
            reply.error = false) := by
    refine Run.yields_bind ?_
    rintro ⟨result, buffer⟩
    cases result with
    | true => exact made _
    | false => exact Run.yields_ofExcept_error _
  cases action with
  | getUniformInteger => exact draws
  | getUniformReal => exact draws
  | getWeightedInteger => exact Run.yields_bind fun _ => Run.yields_bind fun _ => draws
  | createKernel => exact Run.yields_bind fun _ => made _
  | deleteKernel => exact Run.yields_bind fun _ => Run.yields_bind fun _ => made _
  | compileMacro =>
      exact Run.yields_bind fun _ => Run.yields_bind fun _ => Run.yields_bind fun _ =>
        Run.yields_bind fun _ => Run.yields_bind fun _ => made _
  | createSystem => exact Run.yields_bind fun _ => Run.yields_bind fun _ => made _
  | deleteSystem => exact Run.yields_bind fun _ => Run.yields_bind fun _ => made _
  | createState =>
      exact Run.yields_bind fun _ => Run.yields_bind fun _ => Run.yields_bind fun _ =>
        Run.yields_bind fun _ => Run.yields_bind fun _ => made _
  | deleteState =>
      exact Run.yields_bind fun _ => Run.yields_bind fun _ => Run.yields_bind fun _ => made _
  | modifyState =>
      exact Run.yields_bind fun _ => Run.yields_bind fun _ => Run.yields_bind fun _ =>
        Run.yields_bind fun _ => Run.yields_bind fun _ => Run.yields_bind fun _ => made _
  | measureState =>
      exact Run.yields_bind fun _ => Run.yields_bind fun _ => Run.yields_bind fun _ =>
        Run.yields_bind fun _ => Run.yields_bind fun _ => checked
  | computeResult =>
      exact Run.yields_bind fun _ => Run.yields_bind fun _ => Run.yields_bind fun _ =>
        Run.yields_bind fun _ => checked

/-- An action that runs no program returns or throws a runtime error exactly when it has what it
needs.
-/
theorem process_answers_iff {action : Action} (plain : action.runsProgram = false)
    : (action.process doubles numbers request).Answers u
      ↔ action.Answerable doubles numbers request u := by
  cases action with
  | getUniformInteger =>
      have quiet : (do
          let lower ← Run.ofExcept (request.unsigned 1)
          let upper ← Run.ofExcept (request.unsigned 2)
          Randnum.getUniformInteger lower upper : Run Draws UInt64).Quiet :=
        (Run.quiet_ofExcept (unsigned_quiet request 1)).bind fun _ =>
          (Run.quiet_ofExcept (unsigned_quiet request 2)).bind fun _ =>
            Randnum.getUniformInteger_quiet _ _
      rw [Action.process, drawArray_answers (unsigned_quiet request 0) quiet]
      refine exists_congr (fun count => and_congr_right (fun _ => and_congr_right (fun _ => ?_)))
      refine Randnum.drawMany_returns (fun draws => ?_) _ _
      simp only [Run.returns_ofExcept_bind, Randnum.getUniformInteger_returns]
  | getUniformReal =>
      have quiet : (do
          let lower ← Run.ofExcept (request.double numbers 1)
          let upper ← Run.ofExcept (request.double numbers 2)
          Randnum.getUniformReal doubles lower upper : Run Draws UInt64).Quiet :=
        (Run.quiet_ofExcept (fun what => double_quiet request 1 what numbers)).bind fun _ =>
          (Run.quiet_ofExcept (fun what => double_quiet request 2 what numbers)).bind fun _ =>
            Randnum.getUniformReal_quiet _ _ _
      rw [Action.process, drawArray_answers (unsigned_quiet request 0) quiet]
      refine exists_congr (fun count => and_congr_right (fun _ => and_congr_right (fun _ => ?_)))
      refine Randnum.drawMany_returns (fun draws => ?_) _ _
      simp only [Run.returns_ofExcept_bind, Randnum.getUniformReal_returns]
  | getWeightedInteger =>
      simp only [Action.process, Run.answers_ofExcept_bind (unsigned_quiet request 1),
        Run.answers_ofExcept_bind (fun what => doubles_quiet request 2 what numbers),
        drawArray_answers (unsigned_quiet request 0) Randnum.getWeightedInteger_quiet,
        Randnum.drawMany_weighted_returns, Action.Answerable]
  | createKernel => exact iff_of_true (Or.inl ⟨_, _, rfl⟩) trivial
  | deleteKernel =>
      rw [Action.process, Run.answers_ofExcept_bind (unsigned_quiet request 0)]
      refine exists_congr (fun kernelId => and_congr_right (fun _ => ?_))
      rw [responds, Universe.deleteKernel_returns]
      exact (MsContainer.quiet_erase (by simp)).within
  | compileMacro =>
      rw [Action.process, Run.answers_ofExcept_bind (unsigned_quiet request 0)]
      exact exists_congr (fun kernelId => and_congr_right (fun _ =>
        text_answers 1 (fun _ _ _ =>
          (responds Universe.compileMacro_quiet).trans Universe.compileMacro_returns)))
  | createSystem =>
      rw [Action.process, Run.answers_ofExcept_bind (string_quiet request 0)]
      refine exists_congr (fun stateType => and_congr_right (fun _ => ?_))
      rw [responds Universe.createSystem_quiet, Universe.createSystem_returns]
  | deleteSystem =>
      rw [Action.process, Run.answers_ofExcept_bind (unsigned_quiet request 0)]
      refine exists_congr (fun systemId => and_congr_right (fun _ => ?_))
      rw [responds Universe.deleteSystem_quiet, Universe.deleteSystem_returns]
      simp only [QuantumSystem.destroy_iff]
  | deleteState =>
      simp only [Action.process, Run.answers_ofExcept_bind (unsigned_quiet request _)]
      refine exists_congr (fun systemId => and_congr_right (fun _ => ?_))
      refine exists_congr (fun stateId => and_congr_right (fun _ => ?_))
      rw [responds, Universe.deleteState_returns]
      · simp only [State.ChpState.destroy_iff]
      · exact Universe.editSystem_quiet QuantumSystem.deleteStateElement_quiet.within
  | createState => cases plain
  | modifyState => cases plain
  | measureState => cases plain
  | computeResult => cases plain

/-- An action answers, with an error if its program fails, exactly when it has what it needs. -/
theorem process_replies_iff (formed : u.Formed) (action : Action)
    : (action.process doubles numbers request).Answers u
        ∧ ((action.process doubles numbers request).Returns u → ¬ProgramFails request u action)
      ↔ action.Answerable doubles numbers request u := by
  by_cases plain : action.runsProgram = false
  · rw [← process_answers_iff plain]
    refine and_iff_left (fun _ => ?_)
    rintro ⟨_, _, _, _, on, _⟩
    rw [on.runsProgram] at plain
    cases plain
  · cases action with
    | createState =>
        rw [Action.Answerable, ← runEnds_iff formed]
        refine silent_iff createState_answers ?_ (fun ok pointers => by simp [Action.Demands])
        exact (Run.quiet_ofExcept (unsigned_quiet request 0)).bind fun _ =>
          (Run.quiet_ofExcept (string_quiet request 1)).bind fun _ =>
          (Run.quiet_ofExcept (string_quiet request 2)).bind fun _ =>
          (Run.quiet_ofExcept (unsigned_quiet request 3)).bind fun _ =>
          Universe.createState_quiet.bind fun _ => Run.quiet_pure _
    | modifyState =>
        rw [Action.Answerable, ← runEnds_iff formed]
        refine silent_iff modifyState_answers ?_ (fun ok pointers => by simp [Action.Demands])
        exact (Run.quiet_ofExcept (unsigned_quiet request 0)).bind fun _ =>
          (Run.quiet_ofExcept (unsigned_quiet request 1)).bind fun _ =>
          (Run.quiet_ofExcept (string_quiet request 2)).bind fun _ =>
          (Run.quiet_ofExcept (string_quiet request 3)).bind fun _ =>
          (Run.quiet_ofExcept (unsigned_quiet request 4)).bind fun _ =>
          Universe.modifyState_quiet.bind fun _ => Run.quiet_pure _
    | measureState =>
        rw [Action.Answerable, ← runEnds_iff formed]
        exact throwing_iff measureState_answers measureState_throws (fun _ _ => Iff.rfl)
    | computeResult =>
        rw [Action.Answerable, ← runEnds_iff formed]
        exact throwing_iff computeResult_answers computeResult_throws (fun _ _ => Iff.rfl)
    | _ => exact absurd rfl plain

/-- Whatever an action comes to, it leaves a universe as the operations do. -/
theorem process_keeps (action : Action)
    : (action.process doubles numbers request).Keeps Universe.Formed := by
  have reads {α β : Type} {result : Except Stop α} {f : α → Run Universe β}
      (later : ∀ a, (f a).Keeps Universe.Formed)
      : (Run.ofExcept result >>= f).Keeps Universe.Formed :=
    (Run.keeps_ofExcept result).bind later
  have draws {count : Except Stop UInt64} {draw : Run Draws UInt64}
      {result : List UInt64 → Net.Result}
      : (drawArray count draw result).Keeps Universe.Formed := by
    refine reads fun count => Run.Keeps.bind (fun u formed => ?_) fun _ =>
      Run.Keeps.bind (fun u formed => ?_) fun _ => Run.keeps_pure _
    · unfold newArray
      split <;> exact ⟨formed.systems, formed.interpreters⟩
    · exact ⟨formed.systems, formed.interpreters⟩
  have checks {buffer : State.StringBuffer} {result : Bool} {what : String}
      : (if !result then Run.ofExcept (.error (.thrown (.runtimeError what)))
          else return response (.buffer buffer) : Run Universe Response).Keeps
          Universe.Formed := by
    cases result with
    | true => exact Run.keeps_pure _
    | false => exact Run.keeps_ofExcept _
  cases action with
  | getUniformInteger => exact draws
  | getUniformReal => exact draws
  | getWeightedInteger => exact reads fun _ => reads fun _ => draws
  | createKernel => exact Universe.createKernel_keeps.bind fun _ => Run.keeps_pure _
  | deleteKernel =>
      exact reads fun _ => (Universe.deleteKernel_keeps _).bind fun _ => Run.keeps_pure _
  | compileMacro =>
      exact reads fun _ => reads fun _ => reads fun _ => reads fun _ =>
        (Universe.compileMacro_keeps _).bind fun _ => Run.keeps_pure _
  | createSystem =>
      exact reads fun _ => (Universe.createSystem_keeps _).bind fun _ => Run.keeps_pure _
  | deleteSystem =>
      exact reads fun _ => (Universe.deleteSystem_keeps _).bind fun _ => Run.keeps_pure _
  | createState =>
      exact reads fun _ => reads fun _ => reads fun _ => reads fun _ =>
        (Universe.createState_keeps _).bind fun _ => Run.keeps_pure _
  | deleteState =>
      exact reads fun _ => reads fun _ =>
        (Universe.deleteState_keeps _ _).bind fun _ => Run.keeps_pure _
  | modifyState =>
      exact reads fun _ => reads fun _ => reads fun _ => reads fun _ => reads fun _ =>
        (Universe.modifyState_keeps _ _).bind fun _ => Run.keeps_pure _
  | measureState =>
      exact reads fun _ => reads fun _ => reads fun _ => reads fun _ => reads fun _ =>
        (Universe.measureState_keeps _ _ _).bind fun _ => checks
  | computeResult =>
      exact reads fun _ => reads fun _ => reads fun _ => reads fun _ =>
        (Universe.computeResult_keeps _ _).bind fun _ => checks

end Process

end Sabot.Actions
