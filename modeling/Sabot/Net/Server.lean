import Sabot.Actions.Process

/-! The body of a worker: a message is decoded, routed to its processing function, and answered. -/

namespace Sabot.Net

open Sabot.Actions (Action RegisteredCalls findCall calls registerCalls)

/-- The libraries that the server relies on: the JSON parser, which is given the message with its
terminator, its conversion of numbers, and the arithmetic of doubles.
-/
structure Libraries where
  parse : List UInt8 → Request
  numbers : Numbers
  doubles : Randnum.Doubles

/-- The table that the registrars have filled before the server starts. -/
def registeredCalls : RegisteredCalls Action :=
  match registerCalls calls with
  | .ok table => table
  | .error _ => .empty

variable (libraries : Libraries)

/-- `find_call`: search the function of a request and invoke it. -/
def invoke (request : Request) : Run Universe Response := do
  let action ← Run.ofExcept (findCall registeredCalls request)
  action.process libraries.doubles libraries.numbers request

/-- Route a request to the proper method and return the result. -/
def routeRequest (request : Request) : Run Universe Response := fun u =>
  match invoke libraries request u with
  | (.error (.thrown (.runtimeError what)), u) => (.ok ⟨.message what, true⟩, u)
  | outcome => outcome

/-- One round of `work`, from a received message to its response. The byte before the end is
looked at also in a message that has none.
-/
def work (message : List UInt8) : Run Universe Response :=
  match message.getLast? with
  | none => Run.ofExcept (.error .undefined)
  | some last =>
      if last != 0 then pure ⟨.message "missing null terminator", true⟩
      else routeRequest libraries (libraries.parse message)

end Sabot.Net
