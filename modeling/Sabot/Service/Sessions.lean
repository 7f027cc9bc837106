import Sabot.Net.Replies
import Sabot.Service.Refinement

/-! The server implements the service: its responses to a session of messages are the replies of the
service to the commands that the messages give.
-/

namespace Sabot

theorem Run.map_ok {σ α β : Type} {g : α → β} {x : Run σ α} {s t : σ} {b : β}
    (ran : (g <$> x) s = (.ok b, t))
    : ∃ a, x s = (.ok a, t) ∧ g a = b := by
  rw [Run.map_apply] at ran
  cases first : x s with
  | mk result left =>
      rw [first] at ran
      cases result with
      | error e => cases ran
      | ok a =>
          cases ran
          exact ⟨a, rfl, rfl⟩

namespace Net

open Sabot.Actions (Action bytes lineDelimiter)
open Sabot.Language (cString)
open Sabot.State (character)
open Sabot.Universe (Gives HoldsSystem Refines Says Serves SystemRequest perform_refines)

-----------------------------------------------------------------------------------------
-- Requests
-----------------------------------------------------------------------------------------

/-- The JSON request is for an operation on systems and states. -/
inductive Asks : Request → SystemRequest → Prop where
  | createSystem {stateType after}
      : Asks ⟨bytes "create_system", [.string stateType after]⟩
          (.createSystem (cString stateType after))
  | deleteSystem {systemId}
      : Asks ⟨bytes "delete_system", [.unsigned systemId]⟩ (.deleteSystem systemId)
  | createState {systemId dialect afterDialect data afterData delimiter}
      : Asks ⟨bytes "create_state", [.unsigned systemId, .string dialect afterDialect,
          .string data afterData, .unsigned delimiter]⟩
          (.createState systemId
            ⟨cString dialect afterDialect, cString data afterData, lineDelimiter delimiter⟩)
  | modifyState {systemId stateId dialect afterDialect data afterData delimiter}
      : Asks ⟨bytes "modify_state", [.unsigned systemId, .unsigned stateId,
          .string dialect afterDialect, .string data afterData, .unsigned delimiter]⟩
          (.modifyState systemId stateId
            ⟨cString dialect afterDialect, cString data afterData, lineDelimiter delimiter⟩)
  | measureState {systemId stateId dialect afterDialect data afterData delimiter}
      : Asks ⟨bytes "measure_state", [.unsigned systemId, .unsigned stateId,
          .string dialect afterDialect, .string data afterData, .unsigned delimiter]⟩
          (.measureState systemId stateId
            ⟨cString dialect afterDialect, cString data afterData, lineDelimiter delimiter⟩)
  | deleteState {systemId stateId}
      : Asks ⟨bytes "delete_state", [.unsigned systemId, .unsigned stateId]⟩
          (.deleteState systemId stateId)
  | computeResult {systemId dialect afterDialect data afterData delimiter}
      : Asks ⟨bytes "compute_result", [.unsigned systemId, .string dialect afterDialect,
          .string data afterData, .unsigned delimiter]⟩
          (.computeResult systemId
            ⟨cString dialect afterDialect, cString data afterData, lineDelimiter delimiter⟩)

/-- The response is the reply. -/
inductive Responds : Response → Reply → Prop where
  | id {value} : Responds ⟨.unsigned value, false⟩ (.id value.toNat)
  | done : Responds ⟨.bool true, false⟩ .done
  | outcomes {buffer values} (holds : buffer.Holds (values.map character))
      : Responds ⟨.buffer buffer, false⟩ (.outcomes values)
  | refused {what} : Responds ⟨.message what, true⟩ .refused

/-- A request with the name and the number of parameters of an action is taken to it. -/
theorem dispatched_call (action : Action) {request : Request}
    (named : request.method = action.call.method)
    (counted : request.parameterCount = action.call.parameterCount.toNat)
    : dispatched request = some action := by
  let other (action : Action) : Request :=
    ⟨action.call.method, List.replicate action.call.parameterCount.toNat (.unsigned 0)⟩
  have count : request.parameterCount = (other action).parameterCount := by
    rw [counted]
    exact List.length_replicate.symm
  have aliases (item : Actions.Call Action)
      : Actions.Aliases request item ↔ Actions.Aliases (other action) item := by
    simp only [Actions.Aliases, Request.methodAttr, Request.methodSize, count, named, other]
  have found : ∀ action, dispatched (other action) = some action := by
    intro action
    cases action <;> decide +kernel
  rw [← found action]
  simp only [dispatched, aliases]

/-- The action of a request calls the operation, and responds with what it answers. -/
theorem process_responds {request : Request} {wanted : SystemRequest} (asks : Asks request wanted)
    {command : Command} (gives : Gives wanted command) {u : Universe} {s : Service}
    (refines : Refines u s wanted command) (doubles : Randnum.Doubles) (numbers : Numbers)
    : ∃ action response u' reply t, dispatched request = some action
        ∧ action.process doubles numbers request u = (.ok response, u')
        ∧ Responds response reply ∧ s.Step u.world.coins command reply t u'.world.coins
        ∧ Serves u' t := by
  obtain ⟨answer, u', reply, t, performs, agrees, step, serves⟩ := refines
  -- What the service does tells which of the answers it is.
  have kind := step
  generalize u'.world.coins = left at kind
  cases asks with
  | createSystem =>
      obtain ⟨id, creates, rfl⟩ := Run.map_ok performs
      cases agrees
      exact ⟨.createSystem, _, u', _, t, dispatched_call _ rfl rfl, Run.bind_ok creates _, .id, step,
        serves⟩
  | deleteSystem =>
      obtain ⟨ok, deletes, rfl⟩ := Run.map_ok performs
      cases gives
      cases kind
      cases agrees
      exact ⟨.deleteSystem, _, u', _, _, dispatched_call _ rfl rfl, Run.bind_ok deletes _, .done, step,
        serves⟩
  | createState =>
      obtain ⟨id, creates, rfl⟩ := Run.map_ok performs
      cases agrees
      exact ⟨.createState, _, u', _, t, dispatched_call _ rfl rfl, Run.bind_ok creates _, .id, step,
        serves⟩
  | modifyState =>
      obtain ⟨ok, modifies, rfl⟩ := Run.map_ok performs
      cases gives
      cases kind
      cases agrees
      exact ⟨.modifyState, _, u', _, _, dispatched_call _ rfl rfl, Run.bind_ok modifies _, .done, step,
        serves⟩
  | measureState =>
      obtain ⟨⟨ok, results⟩, measures, answers⟩ := Run.map_ok performs
      cases gives
      cases kind
      cases agrees with
      | outcomes holds =>
          cases answers
          exact ⟨.measureState, _, u', _, _, dispatched_call _ rfl rfl, Run.bind_ok measures _,
            .outcomes holds, step, serves⟩
  | deleteState =>
      obtain ⟨ok, deletes, rfl⟩ := Run.map_ok performs
      cases gives
      cases kind
      cases agrees
      exact ⟨.deleteState, _, u', _, _, dispatched_call _ rfl rfl, Run.bind_ok deletes _, .done, step,
        serves⟩
  | computeResult =>
      obtain ⟨⟨ok, results⟩, computes, answers⟩ := Run.map_ok performs
      cases gives
      cases kind
      cases agrees with
      | outcomes holds =>
          cases answers
          exact ⟨.computeResult, _, u', _, _, dispatched_call _ rfl rfl, Run.bind_ok computes _,
            .outcomes holds, step, serves⟩

-----------------------------------------------------------------------------------------
-- Messages
-----------------------------------------------------------------------------------------

section Messages

variable (libraries : Libraries)

/-- The message gives the command. It is malformed when it has no terminator, or when its method
and the number of its parameters are not those of an action.
-/
inductive Sends (message : List UInt8) : Command → Prop where
  | gives {wanted command} (terminated : message.getLast? = some 0)
      (asks : Asks (libraries.parse message) wanted) (gives : Gives wanted command)
      : Sends message command
  | unterminated {last} (ends : message.getLast? = some last) (openEnded : last ≠ 0)
      : Sends message .malformed
  | unknown (terminated : message.getLast? = some 0)
      (unknown : dispatched (libraries.parse message) = none)
      : Sends message .malformed

/-- The loop of `work` over the messages that a worker receives. -/
def workAll : List (List UInt8) → Run Universe (List Response)
  | [] => pure []
  | message :: rest => do
      let response ← work libraries message
      let responses ← workAll rest
      return response :: responses

variable {libraries} {u : Universe} {s : Service}

/-- A message is answered by one response, which is the reply to its command. -/
theorem work_refines (serves : Serves u s) {message : List UInt8} {command : Command}
    (sends : Sends libraries message command) (allows : s.Allows command)
    : ∃ response u' reply t, work libraries message u = (.ok response, u')
        ∧ Responds response reply ∧ s.Step u.world.coins command reply t u'.world.coins
        ∧ Serves u' t := by
  cases sends with
  | gives terminated asks gives =>
      obtain ⟨action, response, u', reply, t, found, ran, responds, step, servesT⟩ :=
        process_responds asks gives (perform_refines serves gives allows) libraries.doubles
          libraries.numbers
      have invokes : invoke libraries (libraries.parse message) u = (.ok response, u') := by
        rw [invoke, findCall_dispatched, found]
        exact ran
      refine ⟨response, u', reply, t, ?_, responds, step, servesT⟩
      rw [work_terminated terminated, routeRequest, invokes]
  | unterminated ends openEnded =>
      have answers : work libraries message u
          = (.ok ⟨.message "missing null terminator", true⟩, u) := by
        simp only [work, ends]
        rw [if_pos (by simpa using openEnded)]
        rfl
      exact ⟨_, u, _, s, answers, .refused, .malformed, serves⟩
  | unknown terminated unknown =>
      have throws : invoke libraries (libraries.parse message) u
          = (.error (.thrown (.runtimeError "type not found by name")), u) := by
        rw [invoke, findCall_dispatched, unknown]
        rfl
      have answers : work libraries message u
          = (.ok ⟨.message "type not found by name", true⟩, u) := by
        rw [work_terminated terminated, routeRequest, throws]
      exact ⟨_, u, _, s, answers, .refused, .malformed, serves⟩

/-- The responses to messages are the replies of a session of the service. By induction on the
messages: each of them starts where the service is after those before it.
-/
theorem workAll_refines (serves : Serves u s) {messages : List (List UInt8)}
    {commands : List Command} (sends : List.Forall₂ (Sends libraries) messages commands)
    (admits : s.Admits u.world.coins commands)
    : ∃ responses u' replies t, workAll libraries messages u = (.ok responses, u')
        ∧ List.Forall₂ Responds responses replies
        ∧ s.Session u.world.coins commands replies t u'.world.coins ∧ Serves u' t := by
  induction sends generalizing u s with
  | nil => exact ⟨[], u, [], s, rfl, .nil, .done, serves⟩
  | @cons message command messages commands sendsFirst _ ih =>
      obtain ⟨allows, admitsRest⟩ := admits
      obtain ⟨response, u', reply, t, ran, responds, step, servesT⟩ :=
        work_refines serves sendsFirst allows
      obtain ⟨responses, last, replies, v, ranRest, respondsRest, session, servesV⟩ :=
        ih servesT (admitsRest _ _ _ step)
      refine ⟨response :: responses, last, reply :: replies, v, ?_, .cons responds respondsRest,
        .step step session, servesV⟩
      rw [workAll, Run.bind_ok ran, Run.bind_ok ranRest]
      rfl

end Messages

/-- A universe that is new serves a service that has nothing yet. -/
theorem serves_new {world : State.World} (memory : ∀ k, (world.grants.get k).isSome)
    (draws : Randnum.Draws)
    : Serves (Universe.new world draws) .empty where
  systems := MsContainer.implements_new
  speaks entry found := by simp [Universe.new] at found
  memory := memory

/-- The text of a request to create a system. -/
def createSystemMessage : List UInt8 :=
  bytes "\x7b\"method\":\"create_system\",\"parameters\":[\"chp_state\"]\x7d" ++ [0]

end Net

end Sabot
