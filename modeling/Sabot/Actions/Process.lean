import Sabot.Actions.Dispatch
import Sabot.Universe

/-! The processing functions: each reads its parameters, calls the universe and makes a response
of what it returns.
-/

namespace Sabot.Net

/-- The values that responses carry. -/
inductive Result where
  | bool (value : Bool)
  | unsigned (value : UInt64)
  | integers (values : List UInt64)
  | reals (values : List UInt64)
  | buffer (value : State.StringBuffer)
  | message (what : String)

/-- A response to a client. -/
structure Response where
  result : Result
  error : Bool

end Sabot.Net

namespace Sabot.Actions

open Sabot.Net (Numbers Request Response)
open Sabot.Randnum (Doubles Draws drawMany getUniformInteger getUniformReal getWeightedInteger)

/-- A parameter that is converted to a character. -/
def lineDelimiter (parameter : UInt64) : Language.Byte := parameter.toUInt8

def response (result : Net.Result) : Response := ⟨result, false⟩

/-- `new` of an array of words of a requested length. -/
def newArray (count : Nat) : Run Universe Unit := fun u =>
  match State.allocate count u.world.grants with
  | (some _, grants) => (.ok (), { u with world := { u.world with grants := grants } })
  | (none, grants) =>
      (.error (.thrown .badAlloc), { u with world := { u.world with grants := grants } })

def onDraws {α : Type} (x : Run Draws α) : Run Universe α :=
  Run.within Universe.draws (fun draws u => { u with draws := draws }) x

variable (doubles : Doubles) (numbers : Numbers) (request : Request)

/-- The three actions of the random generator allocate first, then draw again and again. -/
def drawArray (count : Except Stop UInt64) (draw : Run Draws UInt64)
    (result : List UInt64 → Net.Result) : Run Universe Response := do
  let count ← Run.ofExcept count
  newArray count.toNat
  let values ← onDraws (drawMany draw count.toNat)
  return response (result values)

/-- The processing function of each action. -/
def Action.process : Action → Run Universe Response
  | .getUniformInteger =>
      drawArray (request.unsigned 0)
        (do
          let lower ← Run.ofExcept (request.unsigned 1)
          let upper ← Run.ofExcept (request.unsigned 2)
          Randnum.getUniformInteger lower upper)
        .integers
  | .getUniformReal =>
      drawArray (request.unsigned 0)
        (do
          let lower ← Run.ofExcept (request.double numbers 1)
          let upper ← Run.ofExcept (request.double numbers 2)
          Randnum.getUniformReal doubles lower upper)
        .reals
  | .getWeightedInteger => do
      let size ← Run.ofExcept (request.unsigned 1)
      let weights ← Run.ofExcept (request.doubles numbers 2)
      drawArray (request.unsigned 0) (Randnum.getWeightedInteger doubles weights size.toNat)
        .integers
  | .createKernel => do
      return response (.unsigned (← Universe.createKernel))
  | .deleteKernel => do
      let kernelId ← Run.ofExcept (request.unsigned 0)
      return response (.bool (← Universe.deleteKernel kernelId))
  | .compileMacro => do
      let kernelId ← Run.ofExcept (request.unsigned 0)
      let dialect ← Run.ofExcept (request.string 1)
      let data ← Run.ofExcept (request.string 2)
      let delimiter ← Run.ofExcept (request.unsigned 3)
      let result ← Universe.compileMacro kernelId dialect data (lineDelimiter delimiter)
      return response (.unsigned result)
  | .createSystem => do
      let stateType ← Run.ofExcept (request.string 0)
      return response (.unsigned (← Universe.createSystem stateType))
  | .deleteSystem => do
      let systemId ← Run.ofExcept (request.unsigned 0)
      return response (.bool (← Universe.deleteSystem systemId))
  | .createState => do
      let systemId ← Run.ofExcept (request.unsigned 0)
      let dialect ← Run.ofExcept (request.string 1)
      let data ← Run.ofExcept (request.string 2)
      let delimiter ← Run.ofExcept (request.unsigned 3)
      let result ← Universe.createState systemId dialect data (lineDelimiter delimiter)
      return response (.unsigned result)
  | .deleteState => do
      let systemId ← Run.ofExcept (request.unsigned 0)
      let stateId ← Run.ofExcept (request.unsigned 1)
      return response (.bool (← Universe.deleteState systemId stateId))
  | .modifyState => do
      let systemId ← Run.ofExcept (request.unsigned 0)
      let stateId ← Run.ofExcept (request.unsigned 1)
      let dialect ← Run.ofExcept (request.string 2)
      let data ← Run.ofExcept (request.string 3)
      let delimiter ← Run.ofExcept (request.unsigned 4)
      let result ← Universe.modifyState systemId stateId dialect data (lineDelimiter delimiter)
      return response (.bool result)
  | .measureState => do
      let systemId ← Run.ofExcept (request.unsigned 0)
      let stateId ← Run.ofExcept (request.unsigned 1)
      let dialect ← Run.ofExcept (request.string 2)
      let data ← Run.ofExcept (request.string 3)
      let delimiter ← Run.ofExcept (request.unsigned 4)
      let (result, buffer) ←
        Universe.measureState systemId stateId dialect data (lineDelimiter delimiter) .empty
      if !result then
        Run.ofExcept (.error (.thrown (.runtimeError "measure state returned false")))
      else return response (.buffer buffer)
  | .computeResult => do
      let systemId ← Run.ofExcept (request.unsigned 0)
      let dialect ← Run.ofExcept (request.string 1)
      let data ← Run.ofExcept (request.string 2)
      let delimiter ← Run.ofExcept (request.unsigned 3)
      let (result, buffer) ←
        Universe.computeResult systemId dialect data (lineDelimiter delimiter) .empty
      if !result then
        Run.ofExcept (.error (.thrown (.runtimeError "compute result returned false")))
      else return response (.buffer buffer)

end Sabot.Actions
