import Sabot.Actions.Answering
import Sabot.Language.Assembly
import Sabot.Net.Server

/-! Which messages are answered, with every failure reported. The handler around `find_call` takes
runtime errors only, so whatever else is thrown, waited for or touched on the way stops the server.
-/

namespace Sabot.Net

open Sabot.Actions

/-- The action that the packed search takes a request to. -/
def dispatched (request : Request) : Option Action :=
  (calls.find? (fun item => Aliases request item)).map Call.function

theorem findCall_dispatched (request : Request)
    : findCall registeredCalls request
      = match dispatched request with
        | some action => .ok action
        | none => .error (.thrown (.runtimeError "type not found by name")) := by
  obtain ⟨table, built⟩ := registerCalls_succeeds calls_named (by decide)
  have stored : Stored registeredCalls calls := by
    rw [registeredCalls, built]
    exact registerCalls_stored calls_named built
  rw [findCall_eq stored, dispatched]
  cases calls.find? (fun item => Aliases request item) <;> rfl

variable (libraries : Libraries) (u : Universe) (message : List UInt8)

/-- The message is not terminated, or the call stops, or the program that it runs fails. -/
def Fails : Prop :=
  message.getLast? ≠ some 0
    ∨ (∃ e left, invoke libraries (libraries.parse message) u = (.error e, left))
    ∨ ∃ action, findCall registeredCalls (libraries.parse message) = .ok action
      ∧ ProgramFails (libraries.parse message) u action

/-- The message gets a response, which reports an error if the message failed. -/
def Replies : Prop :=
  ∃ response left, work libraries message u = (.ok response, left)
    ∧ (Fails libraries u message → response.error = true)

/-- The message has a last byte, and if that is its terminator, then the action that its request
is taken to, if any, has what it needs.
-/
def Answerable : Prop :=
  ∃ last, message.getLast? = some last
    ∧ (last = 0 → ∀ action, dispatched (libraries.parse message) = some action
      → action.Answerable libraries.doubles libraries.numbers (libraries.parse message) u)

variable {libraries u message}

theorem work_terminated (terminated : message.getLast? = some 0)
    : work libraries message = routeRequest libraries (libraries.parse message) := by
  rw [work, terminated]
  rfl

/-- A request that no action is found for is answered with an error. -/
theorem replies_unknown (terminated : message.getLast? = some 0)
    (unknown : dispatched (libraries.parse message) = none)
    : Replies libraries u message := by
  have answers : work libraries message u
      = (.ok ⟨.message "type not found by name", true⟩, u) := by
    rw [work_terminated terminated, routeRequest, invoke, findCall_dispatched, unknown]
    rfl
  exact ⟨_, u, answers, fun _ => rfl⟩

/-- A request is answered as claimed when its action returns with its program run, or throws a
runtime error.
-/
theorem replies_dispatched (terminated : message.getLast? = some 0) {action : Action}
    (found : dispatched (libraries.parse message) = some action)
    : Replies libraries u message
      ↔ (action.process libraries.doubles libraries.numbers (libraries.parse message)).Answers u
        ∧ ((action.process libraries.doubles libraries.numbers
              (libraries.parse message)).Returns u
            → ¬ProgramFails (libraries.parse message) u action) := by
  have call : findCall registeredCalls (libraries.parse message) = .ok action := by
    rw [findCall_dispatched, found]
  have invokes : invoke libraries (libraries.parse message)
      = action.process libraries.doubles libraries.numbers (libraries.parse message) := by
    rw [invoke, call]
    rfl
  rw [Replies, work_terminated terminated, routeRequest, Fails, invokes]
  cases ran : action.process libraries.doubles libraries.numbers (libraries.parse message) u with
  | mk result left =>
      cases result with
      | ok response =>
          constructor
          · rintro ⟨_, _, same, reported⟩
            cases same
            refine ⟨Or.inl ⟨response, left, ran⟩, fun _ fails => ?_⟩
            have error := reported (Or.inr (Or.inr ⟨action, call, fails⟩))
            rw [process_response ran] at error
            cases error
          · rintro ⟨_, succeeds⟩
            refine ⟨response, left, rfl, ?_⟩
            rintro (unterminated | ⟨_, _, stops⟩ | ⟨other, same, fails⟩)
            · exact absurd terminated unterminated
            · cases stops
            · cases call.symm.trans same
              exact absurd fails (succeeds ⟨response, left, ran⟩)
      | error e =>
          constructor
          · rintro ⟨response, left, answers, _⟩
            split at answers
            · rename_i stops
              cases stops
              refine ⟨Or.inr ⟨_, _, ran⟩, ?_⟩
              rintro ⟨_, _, returns⟩
              cases ran.symm.trans returns
            · cases answers
          · rintro ⟨⟨_, _, returns⟩ | ⟨what, t, throws⟩, _⟩
            · cases ran.symm.trans returns
            · cases ran.symm.trans throws
              exact ⟨_, _, rfl, fun _ => rfl⟩

/-- The text of a request to modify state 0 of system 0. -/
def modifyMessage : List UInt8 :=
  bytes "\x7b\"method\":\"modify_state\",\"parameters\":[0,0,\"chpext\",\"h 0\",10]\x7d" ++ [0]

/-- The same request decoded in place. -/
def modifyRequest : Request where
  method := bytes "modify_state"
  parameters := [
    .unsigned 0,
    .unsigned 0,
    .string (bytes "chpext") (bytes ",\"h 0" ++ 0 :: bytes ",10]\x7d" ++ [0]),
    .string (bytes "h 0") (bytes ",10]\x7d" ++ [0]),
    .unsigned 10
  ]

/-- A parser that knows one message. -/
def modifyLibraries : Libraries where
  parse := fun _ => modifyRequest
  numbers := .nearest
  doubles := ⟨max, fun a _ => a, fun _ _ => true, fun _ _ => true⟩

/-- Whatever a message comes to, it leaves a universe as the operations do. -/
theorem work_keeps (libraries : Libraries) (message : List UInt8)
    : (work libraries message).Keeps Universe.Formed := by
  intro u formed
  rw [work]
  cases message.getLast? with
  | none => exact formed
  | some last =>
      by_cases terminated : last = 0
      · have invoked : (invoke libraries (libraries.parse message)).Keeps Universe.Formed :=
          (Run.keeps_ofExcept _).bind fun action => process_keeps action
        simp only [terminated, bne_self_eq_false, Bool.false_eq_true, if_false, routeRequest]
        have kept := invoked u formed
        split
        · rename_i ran
          rwa [ran] at kept
        · exact kept
      · simpa [terminated] using formed

/-- All universes that messages lead to are such. -/
theorem served_formed (libraries : Libraries) (messages : List (List UInt8)) (world : State.World)
    (draws : Randnum.Draws)
    : (messages.foldl (fun u message => (work libraries message u).2)
        (Universe.new world draws)).Formed := by
  induction messages using List.reverseRecOn with
  | nil => exact Universe.formed_new world draws
  | append_singleton messages message ih =>
      rw [List.foldl_append]
      exact work_keeps libraries message _ ih

-----------------------------------------------------------------------------------------
-- A message that stops the server
-----------------------------------------------------------------------------------------

/-- The types of parameters. -/
inductive Kind where
  | unsigned
  | number
  | string
  | numbers

def Json.HasKind : Json → Kind → Prop
  | .unsigned _, .unsigned | .string _ _, .string => True
  | value, .number => value.isNumber
  | .array items, .numbers => ∀ item ∈ items, item.isNumber
  | _, _ => False

/-- The parameters that an action expects. -/
def expected : Action → List Kind
  | .getUniformInteger => [.unsigned, .unsigned, .unsigned]
  | .getUniformReal => [.unsigned, .number, .number]
  | .getWeightedInteger => [.unsigned, .unsigned, .numbers]
  | .createKernel => []
  | .deleteKernel | .deleteSystem => [.unsigned]
  | .createSystem => [.string]
  | .deleteState => [.unsigned, .unsigned]
  | .compileMacro | .createState | .computeResult => [.unsigned, .string, .string, .unsigned]
  | .modifyState | .measureState => [.unsigned, .unsigned, .string, .string, .unsigned]

/-- The parameters of a request have the types that its method expects. -/
def WellTyped (request : Request) : Prop :=
  ∀ item, exactCall calls request = some item
    → List.Forall₂ Json.HasKind request.parameters (expected item.function)

end Sabot.Net
