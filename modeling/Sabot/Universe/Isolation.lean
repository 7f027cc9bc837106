import Sabot.Universe.Histories
import Sabot.Universe.StoredStates
import Sabot.Language.Containment

/-! Identity and isolation of systems and states over whole runs of requests, as long as no program
leaves its own memory.
-/

namespace Sabot.Universe

open Sabot.Language (Byte Program cString isBlank)
open Sabot.State (ChpState ProgramRuns StringBuffer World)

-----------------------------------------------------------------------------------------
-- Requests that stay inside their own memory
-----------------------------------------------------------------------------------------

/-- A text of the dialect `chpext` is terminated and its lines are complete, and its program is as
stated.
-/
def Source.Contained (source : Source) (u : Universe) (keeps : Program → Prop) : Prop :=
  (text source.dialect = chpextName
    → 0 ∈ source.data
      ∧ Language.Complete source.lineDelimiter ((text source.data).dropWhile isBlank))
  ∧ ∀ program, source.program u = .ok program → keeps program

/-- What the request names has all that it needs: texts are complete, programs stay inside the arrays
of the state that they are run on, and no array is released twice.
-/
def SystemRequest.Contained (u : Universe) : SystemRequest → Prop
  | .createSystem _ => True
  | .deleteSystem systemId => ∀ stateId state, u.tableau systemId stateId = some state → state.Whole
  | .createState systemId source =>
      ∀ system, u.quantumSystems.find systemId = some ⟨false, system⟩
        → source.Contained u (fun program =>
            ProgramRuns (fun _ pointers => pointers ≠ .freedTwice) program .fresh u.world.grants)
  | .modifyState systemId stateId source | .measureState systemId stateId source =>
      ∀ system, u.quantumSystems.find systemId = some ⟨false, system⟩
        → source.Contained u (fun program =>
            ∀ state, system.states.find stateId = some ⟨false, state⟩
              → ProgramRuns (fun _ pointers => pointers ≠ .freedTwice) program state
                  u.world.grants)
  | .deleteState systemId stateId =>
      ∀ state, u.tableau systemId stateId = some state → state.Whole
  | .computeResult systemId source =>
      ∀ system, u.quantumSystems.find systemId = some ⟨false, system⟩
        → source.Contained u (fun program =>
            ProgramRuns (fun _ pointers => pointers = .live ∨ pointers = .stale 0) program .fresh
              u.world.grants)

/-- What the request deletes is there. -/
def SystemRequest.DeletesLive (u : Universe) : SystemRequest → Prop
  | .deleteSystem systemId => u.quantumSystems.find systemId ≠ none
  | .deleteState systemId stateId => u.tableau systemId stateId ≠ none
  | _ => True

/-- A terminated pointer leads to its text, its terminator and what follows. -/
theorem text_terminated {pointer : List Byte} (terminated : 0 ∈ pointer)
    : 0 ∉ text pointer ∧ ∃ after, pointer = cString (text pointer) after := by
  induction pointer with
  | nil => cases terminated
  | cons c rest ih =>
      by_cases zero : c = 0
      · subst zero
        exact ⟨by simp [text], rest, by simp [text, cString]⟩
      · obtain ⟨outside, after, whole⟩ := ih (by simpa [Ne.symm zero] using terminated)
        have head : text (c :: rest) = c :: text rest := by simp [text, zero]
        refine ⟨by simp [head, outside, Ne.symm zero], after, ?_⟩
        rw [head, cString, List.cons_append, ← cString, ← whole]

section Defined

variable {α : Type} {u : Universe} {systemId stateId : UInt64} {source : Source}

theorem map_defined {answer : α → Answer} {x : Run Universe α}
    (defined : (x u).1 ≠ .error .undefined)
    : ((answer <$> x) u).1 ≠ .error .undefined := by
  rw [Run.map_apply]
  cases result : (x u).1 with
  | ok a => exact fun same => by cases same
  | error e =>
      rintro same
      cases same
      exact defined result

theorem returns_defined {σ : Type} {x : Run σ α} {s : σ} (returns : x.Returns s)
    : (x s).1 ≠ .error .undefined := by
  obtain ⟨a, t, ran⟩ := returns
  rw [ran]
  exact fun same => by cases same

theorem editSystem_defined {g : Run (QuantumSystem × Interpreters × World) α}
    (defined : ∀ system, u.quantumSystems.find systemId = some ⟨false, system⟩
      → (g (system, u.interpreters, u.world)).1 ≠ .error .undefined)
    : (editSystem systemId g u).1 ≠ .error .undefined := by
  cases found : u.quantumSystems.find systemId with
  | none => simp [editSystem_absent found]
  | some entry =>
      obtain ⟨flag, system⟩ := entry
      cases flag with
      | true => simp [editSystem_blocked found]
      | false =>
          have inner := defined system found
          cases ran : g (system, u.interpreters, u.world) with
          | mk result rest =>
              obtain ⟨next, interpreters, world⟩ := rest
              rw [ran] at inner
              cases result with
              | ok a => simp [editSystem_ok found ran]
              | error e =>
                  rw [editSystem_error found ran]
                  exact inner

/-- A complete text is parsed or rejected, if it gets that far. -/
theorem Source.Contained.defined {keeps : Program → Prop} (contained : source.Contained u keeps)
    (known : u.interpreters.Known)
    : source.program u ≠ .error .undefined := by
  have parses (named : text source.dialect = chpextName)
      : Language.parseProgram Language.chpext source.data source.lineDelimiter
        ≠ .error .undefined := by
    obtain ⟨terminated, complete⟩ := contained.1 named
    obtain ⟨outside, after, whole⟩ := text_terminated terminated
    rw [whole]
    exact complete.defined outside after
  unfold Source.program compiled
  split
  · rename_i entry found
    split
    · simp
    · obtain ⟨named, dialect⟩ := known _ _ found
      rw [dialect]
      exact parses named
  · split
    · rename_i made
      obtain ⟨named, rfl⟩ := instantiateDialect_ok made
      exact parses named
    · rename_i fails
      unfold instantiateDialect at fails
      split at fails <;> cases fails
      simp

theorem withProgram_defined {f : Program → Run (QuantumSystem × World) α} {system : QuantumSystem}
    (known : u.interpreters.Known)
    (contained : source.Contained u (fun program =>
      (f program (system, u.world)).1 ≠ .error .undefined))
    : (withProgram source.dialect source.data source.lineDelimiter f
        (system, u.interpreters, u.world)).1 ≠ .error .undefined := by
  cases compiles : source.program u with
  | error e =>
      have fails : ∃ after, withProgram source.dialect source.data source.lineDelimiter f
          (system, u.interpreters, u.world) = (.error e, system, after, u.world) :=
        withProgram_error compiles
      obtain ⟨after, stops⟩ := fails
      rw [stops]
      intro same
      cases same
      exact contained.defined known compiles
  | ok program =>
      have inner : (f program (system, u.world)).1 ≠ .error .undefined :=
        contained.2 program compiles
      cases ran : f program (system, u.world) with
      | mk result rest =>
          obtain ⟨next, left⟩ := rest
          obtain ⟨after, whole⟩ := withProgram_ok compiles ran
          rw [ran] at inner
          rw [whole]
          exact inner

theorem Source.Contained.imp {keeps others : Program → Prop} (contained : source.Contained u keeps)
    (implies : ∀ program, source.program u = .ok program → keeps program → others program)
    : source.Contained u others :=
  ⟨contained.1, fun program compiles => implies program compiles (contained.2 program compiles)⟩

theorem editState_defined {f : Run (ChpState × World) α} {system : QuantumSystem}
    (returns : ∀ state, system.states.find stateId = some ⟨false, state⟩
      → (QuantumSystem.editState stateId f).Returns (system, u.world))
    : (QuantumSystem.editState stateId f (system, u.world)).1 ≠ .error .undefined := by
  cases found : system.states.find stateId with
  | none => simp [QuantumSystem.editState, MsContainer.editItem_absent found]
  | some entry =>
      obtain ⟨flag, state⟩ := entry
      cases flag with
      | true => simp [QuantumSystem.editState, MsContainer.editItem_blocked found]
      | false => exact returns_defined (returns state found)

end Defined

open QuantumSystem in
/-- A request that stays inside its own memory is defined. -/
theorem perform_defined {u : Universe} (formed : u.Formed) {request : SystemRequest}
    (contained : request.Contained u) (live : request.DeletesLive u)
    : (request.perform u).1 ≠ .error .undefined := by
  have known := formed.interpreters
  cases request with
  | createSystem stateType =>
      rw [SystemRequest.perform]
      refine map_defined ?_
      by_cases known : text stateType = chpStateName
      · simp [createSystem, Run.within, QuantumSystem.new, known, MsContainer.insertWith]
      · simp [createSystem, Run.within, QuantumSystem.new, known, MsContainer.insertWith]
  | deleteSystem systemId =>
      rw [SystemRequest.perform]
      refine map_defined (returns_defined ?_)
      obtain ⟨entry, found⟩ := Option.ne_none_iff_exists'.mp live
      refine deleteSystem_returns.mpr ⟨entry, found, destroy_iff.mpr fun stateId stored inside => ?_⟩
      exact contained stateId _ (tableau_eq_some.mpr ⟨entry, stored.flag, found, inside⟩)
  | createState systemId source =>
      rw [SystemRequest.perform]
      refine map_defined (editSystem_defined (fun system found => withProgram_defined known ?_))
      exact (contained system found).imp (fun program compiles runs => returns_defined
        (programInsertState_returns.mpr (encodeState_completes.mpr
          ((State.programRuns_iff .fresh (compiled_holds compiles)).mp runs))))
  | modifyState systemId stateId source =>
      rw [SystemRequest.perform]
      refine map_defined (editSystem_defined (fun system found => withProgram_defined known ?_))
      exact (contained system found).imp (fun program compiles runs => editState_defined
        (fun state free => programModifyState_returns.mpr ⟨state, free,
          modifyState_completes.mpr ((State.programRuns_iff (formed.state found free)
            (compiled_holds compiles)).mp (runs state free))⟩))
  | measureState systemId stateId source =>
      rw [SystemRequest.perform]
      refine map_defined (editSystem_defined (fun system found => withProgram_defined known ?_))
      exact (contained system found).imp (fun program compiles runs => editState_defined
        (fun state free => programMeasureState_returns.mpr ⟨state, free,
          measureState_completes.mpr ((State.programRuns_iff (formed.state found free)
            (compiled_holds compiles)).mp (runs state free))⟩))
  | deleteState systemId stateId =>
      rw [SystemRequest.perform]
      refine map_defined (editSystem_defined (fun system found => ?_))
      obtain ⟨state, stored⟩ := Option.ne_none_iff_exists'.mp live
      obtain ⟨entry, flag, found', inside⟩ := tableau_eq_some.mp stored
      rw [found] at found'
      cases found'
      refine returns_defined (Run.returns_within.mpr (deleteStateElement_returns.mpr ?_))
      exact ⟨_, inside, State.ChpState.destroy_iff.mpr (contained _ stored)⟩
  | computeResult systemId source =>
      rw [SystemRequest.perform]
      refine map_defined (editSystem_defined (fun system found => withProgram_defined known ?_))
      refine (contained system found).imp (fun program compiles runs => returns_defined ?_)
      obtain ⟨ok, m, ran, whole⟩ :=
        (State.programRuns_iff .fresh (compiled_holds compiles)).mp runs
      exact programComputeResult_returns.mpr
        ⟨ok, m, ran, State.ChpState.destroy_iff.mpr whole⟩

/-- Whatever a request comes to, it leaves a universe as operations do. -/
theorem perform_keeps (request : SystemRequest) : request.perform.Keeps Formed := by
  cases request with
  | createSystem stateType => exact (createSystem_keeps stateType).map _
  | deleteSystem systemId => exact (deleteSystem_keeps systemId).map _
  | createState systemId source => exact (createState_keeps systemId).map _
  | modifyState systemId stateId source => exact (modifyState_keeps systemId stateId).map _
  | measureState systemId stateId source => exact (measureState_keeps systemId stateId .empty).map _
  | deleteState systemId stateId => exact (deleteState_keeps systemId stateId).map _
  | computeResult systemId source => exact (computeResult_keeps systemId .empty).map _

-----------------------------------------------------------------------------------------
-- Isolation
-----------------------------------------------------------------------------------------

/-- The bindings of a run. The ids of systems are pairwise distinct, and so are the state ids of one
system. A system stays under its id until it is deleted, and under a state id there is the state that
was created for it, with what the requests that name it made of it, until it or its system is
deleted. A request leaves every stored state as it is that it does not name.
-/
structure Bound (steps : List Step) : Prop where
  systemIds : (systemIds steps).Nodup
  stateIds : ∀ systemId, (stateIds systemId steps).Nodup
  systems
    : ∀ earlier step later rest systemId, steps = earlier ++ step :: (later ++ rest)
      → step.systemId = some systemId → (∀ next ∈ later, ¬next.DeletesSystem systemId)
      → ((step.last later).quantumSystems.find systemId).isSome
  states
    : ∀ earlier step later rest systemId stateId, steps = earlier ++ step :: (later ++ rest)
      → step.stateId systemId = some stateId → (∀ next ∈ later, ¬next.Deletes systemId stateId)
      → ∃ source program created left, step.request = .createState systemId source
        ∧ source.program step.before = .ok program
        ∧ State.encodeState program step.before.world = some (created, left)
        ∧ (step.last later).tableau systemId stateId
          = some (later.foldl (fun state next => next.edit systemId stateId state) created)
  others
    : ∀ step ∈ steps, ∀ systemId stateId state,
      step.before.tableau systemId stateId = some state
      → ¬step.request.Names systemId stateId
      → step.after.tableau systemId stateId = some state

/-- Identity and isolation in a run. A request that touches memory that it does not own may change
any other state there, so none does.
-/
structure Isolated (steps : List Step) : Prop extends Bound steps where
  alone
    : ∀ step ∈ steps, ∀ systemId stateId state,
      step.before.tableau systemId stateId = some state
      → ¬step.request.Names systemId stateId → step.result ≠ .error .undefined

section Isolation

variable {u : Universe} {requests : List SystemRequest}

/-- The parts of a run before and after a step. -/
theorem history_split_step {earlier later rest : List Step} {step : Step}
    (split : history u requests = earlier ++ step :: (later ++ rest))
    : ∃ first, ∃ request : SystemRequest, ∃ second, step = request.step (reached u first)
        ∧ earlier = history u first ∧ later = history step.after second := by
  obtain ⟨first, second, _, before, after⟩ := history_split split
  cases second with
  | nil => cases after
  | cons request tail =>
      obtain ⟨now, afterwards⟩ := List.cons.inj after
      obtain ⟨second, _, _, same, _⟩ := history_split afterwards.symm
      exact ⟨first, request, second, now, before, by rw [same, now]; rfl⟩

theorem step_keeps_others {request : SystemRequest} {systemId stateId : UInt64} {state : ChpState}
    (stored : u.tableau systemId stateId = some state) (other : ¬request.Names systemId stateId)
    : (request.step u).after.tableau systemId stateId = some state := by
  have kept : ¬(request.step u).Deletes systemId stateId := by
    rintro (⟨deletes, _⟩ | ⟨deletes, _⟩)
    · exact other (Or.inl deletes)
    · exact other (Or.inr (Or.inl deletes))
  rw [step_keeps_tableau stored kept, Step.edit, if_neg]
  rintro ⟨edits, names, _⟩
  exact other (Or.inr (Or.inr ⟨edits, names⟩))

/-- All steps of a run start where operations have led. -/
theorem history_formed (formed : u.Formed) {step : Step} (member : step ∈ history u requests)
    : ∃ v, ∃ request : SystemRequest, v.Formed ∧ step = request.step v := by
  induction requests generalizing u with
  | nil => cases member
  | cons request rest ih =>
      rcases List.mem_cons.mp member with rfl | later
      · exact ⟨u, request, formed, rfl⟩
      · exact ih (perform_keeps request u formed) later

end Isolation

/-- In every run from an empty universe with fewer creations than ids and deletions of live ids only,
ids are bound. If the requests stay inside their own memory, systems and states are isolated.
-/
theorem history_isolated (world : World) (draws : Randnum.Draws) (requests : List SystemRequest)
    (few : FewCreations (history (Universe.new world draws) requests))
    (live : ∀ step ∈ history (Universe.new world draws) requests,
      step.request.DeletesLive step.before)
    : Bound (history (Universe.new world draws) requests)
      ∧ ((∀ step ∈ history (Universe.new world draws) requests,
            step.request.Contained step.before)
          → Isolated (history (Universe.new world draws) requests)) := by
  have start := issued_new world draws
  have issued := issued_history start few
  have formed := formed_new world draws
  -- What was handed out before a step of the run.
  have before {first : List SystemRequest} {rest : List Step}
      (split : history (Universe.new world draws) requests
        = history (Universe.new world draws) first ++ rest)
      : Issued (history (Universe.new world draws) first)
          (reached (Universe.new world draws) first).quantumSystems := by
    rw [split] at few
    exact issued_history start few.of_append
  have bound : Bound (history (Universe.new world draws) requests) := by
    refine {
      systemIds := issued.ids.distinct
      stateIds := issued.distinct
      systems := ?_
      states := ?_
      others := ?_
    }
    · intro earlier step later rest systemId split returns kept
      obtain ⟨first, request, second, rfl, rfl, rfl⟩ := history_split_step split
      rw [last_history]
      exact history_keeps_system (created_live (before split) returns) kept
    · intro earlier step later rest systemId stateId split returns kept
      obtain ⟨first, request, second, rfl, rfl, rfl⟩ := history_split_step split
      obtain ⟨source, program, created, left, creates, compiles, encodes, stored⟩ :=
        created_stored (before split) returns
      refine ⟨source, program, created, left, creates, compiles, encodes, ?_⟩
      rw [last_history]
      exact history_keeps_tableau stored kept
    · intro step member systemId stateId state stored other
      obtain ⟨v, request, _, rfl⟩ := history_formed formed member
      exact step_keeps_others stored other
  refine ⟨bound, fun contained => ⟨bound, fun step member _ _ _ _ _ => ?_⟩⟩
  obtain ⟨v, request, reached, rfl⟩ := history_formed formed member
  exact perform_defined reached (contained _ member) (live _ member)

-----------------------------------------------------------------------------------------
-- Two runs
-----------------------------------------------------------------------------------------

/-- A text of the dialect `chpext` with lines that end in a newline. -/
def Source.chpext (characters : List Char) : Source :=
  ⟨chpextName ++ [0], characters.map Language.ascii ++ [0], 10⟩

theorem length_history (u : Universe) (requests : List SystemRequest)
    : (history u requests).length = requests.length := by
  induction requests generalizing u with
  | nil => rfl
  | cons request rest ih => exact congrArg (· + 1) (ih _)

/-- A run takes no more ids than it has requests. -/
theorem fewCreations_of_length {u : Universe} {requests : List SystemRequest}
    (short : requests.length < 2 ^ 64)
    : FewCreations (history u requests) where
  systems := by
    refine lt_of_le_of_lt List.countP_le_length ?_
    rw [length_history]
    exact short
  states systemId := by
    refine lt_of_le_of_lt (List.length_filterMap_le _ _) ?_
    rw [length_history]
    exact short

/-- A system of an unknown type, and one that gets a state of one qubit and is deleted with it. -/
def createAndDelete : List SystemRequest := [
  .createSystem [],
  .createSystem chpStateName,
  .createState 1 (.chpext ['i', 'n', 'i', 't', ' ', '1']),
  .deleteSystem 1
]

/-- That a new state gets its program can be checked by running it. -/
theorem runs_of_encoding {source : Source} {u : Universe}
    (ran : (source.program u).toOption.any (fun program =>
      (State.encodeState program u.world).any (fun created =>
        created.1.pointers != .freedTwice)))
    {program : Program} (compiles : source.program u = .ok program)
    : ProgramRuns (fun _ pointers => pointers ≠ .freedTwice) program .fresh u.world.grants := by
  refine (State.programRuns_iff .fresh (compiled_holds compiles)).mpr
    (encodeState_completes.mp ?_)
  cases result : State.encodeState program u.world with
  | none => simp [compiles, Except.toOption, result] at ran
  | some created => exact ⟨created, rfl, by simpa [compiles, Except.toOption, result] using ran⟩

theorem history_isolated_createAndDelete
    : Isolated (history
        (Universe.new Universe.oneSystem.world Universe.oneSystem.draws) createAndDelete) := by
  refine (history_isolated Universe.oneSystem.world Universe.oneSystem.draws createAndDelete
    (fewCreations_of_length (by decide)) ?_).2 ?_
  · refine List.forall_mem_cons.mpr ⟨trivial, List.forall_mem_cons.mpr ⟨trivial,
      List.forall_mem_cons.mpr ⟨trivial, List.forall_mem_cons.mpr ⟨?_, List.forall_mem_nil _⟩⟩⟩⟩
    have found : ((reached (Universe.new Universe.oneSystem.world Universe.oneSystem.draws)
        (createAndDelete.take 3)).quantumSystems.find 1).isSome := by decide +kernel
    exact Option.isSome_iff_ne_none.mp found
  · refine List.forall_mem_cons.mpr ⟨trivial, List.forall_mem_cons.mpr ⟨trivial,
      List.forall_mem_cons.mpr ⟨?_, List.forall_mem_cons.mpr ⟨?_, List.forall_mem_nil _⟩⟩⟩⟩
    · intro system found
      refine ⟨fun _ => ⟨by decide, ?_⟩, fun program => runs_of_encoding (by decide +kernel)⟩
      have known : (⟨[105, 110, 105, 116], .initializeOp⟩ : Language.InstructionDefinition)
          ∈ Language.chpext.instructionDefs := by simp [Language.chpext, Language.ascii]
      have field : Language.IsField 10 [49] := by
        simp [Language.IsField, Language.operandEnd, Language.chpext, Language.ascii]
      exact Language.Complete.last known rfl .none field
    · have destroys : ((reached (Universe.new Universe.oneSystem.world Universe.oneSystem.draws)
          (createAndDelete.take 3)).quantumSystems.find 1).all
          (fun entry => entry.item.destroy.isOk) := by decide +kernel
      intro stateId state stored
      obtain ⟨entry, flag, found, inside⟩ := tableau_eq_some.mp stored
      change MsContainer.find _ 1 = some entry at found
      have destroyed : (some entry).all (fun entry => entry.item.destroy.isOk) := by
        rw [← found]
        exact destroys
      have whole : entry.item.destroy = .ok () := by
        cases result : entry.item.destroy with
        | ok _ => rfl
        | error e => simp [result, Except.isOk, Except.toBool] at destroyed
      exact QuantumSystem.destroy_iff.mp whole stateId _ inside

/-- The request touched memory that it does not own. -/
def Undefined : Except Stop Answer → Bool
  | .error .undefined => true
  | _ => false

theorem undefined_iff {result : Except Stop Answer}
    : Undefined result ↔ result = .error .undefined := by
  constructor
  · intro stops
    cases result with
    | ok _ => cases stops
    | error e => cases e <;> first | rfl | cases stops
  · rintro rfl
    rfl

/-- Two states of one qubit, and a gate on a qubit that the second of them does not have. -/
def gateOutside : List SystemRequest := [
  .createSystem chpStateName,
  .createState 0 (.chpext ['i', 'n', 'i', 't', ' ', '1']),
  .createState 0 (.chpext ['i', 'n', 'i', 't', ' ', '1']),
  .modifyState 0 1 (.chpext ['h', ' ', '6', '4'])
]

/-- The gate writes behind the arrays of its state, so it does not leave the first one alone. -/
theorem gate_outside_not_isolated
    : ¬∀ world draws requests, FewCreations (history (Universe.new world draws) requests)
        → (∀ step ∈ history (Universe.new world draws) requests,
            step.request.DeletesLive step.before)
        → Isolated (history (Universe.new world draws) requests) := by
  intro claimed
  have isolated := claimed Universe.oneSystem.world Universe.oneSystem.draws gateOutside
    (fewCreations_of_length (by decide)) ?_
  · have first : ((reached (Universe.new Universe.oneSystem.world Universe.oneSystem.draws)
        (gateOutside.take 3)).tableau 0 0).isSome := by decide +kernel
    obtain ⟨state, stored⟩ := Option.isSome_iff_exists.mp first
    have alone := isolated.alone _
      (List.mem_cons_of_mem _ (List.mem_cons_of_mem _ (List.mem_cons_of_mem _ List.mem_cons_self)))
      0 0 state stored (by rintro (same | same | ⟨_, same⟩) <;> cases same)
    have stops : Undefined ((SystemRequest.modifyState 0 1 (.chpext ['h', ' ', '6', '4'])).perform
        (reached (Universe.new Universe.oneSystem.world Universe.oneSystem.draws)
          (gateOutside.take 3))).1 := by
      decide +kernel
    exact alone (undefined_iff.mp stops)
  · refine List.forall_mem_cons.mpr ⟨trivial, List.forall_mem_cons.mpr ⟨trivial,
      List.forall_mem_cons.mpr ⟨trivial, List.forall_mem_cons.mpr ⟨trivial,
        List.forall_mem_nil _⟩⟩⟩⟩

end Sabot.Universe
