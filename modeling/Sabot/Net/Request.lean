import Sabot.Language.Interpreter

/-! Requests as the JSON library hands them over: a method name and a list of parameters. -/

namespace Sabot.Net

open Sabot.Language (cString)

/-- The JSON values that requests carry. A double is kept as its bit pattern, and a string with
the memory behind its terminator, which the parser has left in the message.
-/
inductive Json where
  | unsigned (value : UInt64)
  | negative (value : Int64)
  | double (bits : UInt64)
  | string (bytes after : List UInt8)
  | array (items : List Json)

def Json.isNumber : Json → Bool
  | .unsigned _ | .negative _ | .double _ => true
  | .string _ _ | .array _ => false

/-- How the JSON library reads a value as a double: it converts every number and nothing else. -/
structure Numbers where
  getDouble : Json → Option UInt64
  converts : ∀ value, (getDouble value).isSome = value.isNumber
  keeps : ∀ bits, getDouble (.double bits) = some bits

/-- The bit pattern of the double nearest to a natural number, with ties to even. -/
def doubleBits (value : Nat) : Nat :=
  if value = 0 then 0
  else
    let exponent := value.log2
    let mantissa := if exponent ≤ 52 then value <<< (52 - exponent)
      else
        let dropped := exponent - 52
        let quotient := value >>> dropped
        let remainder := value % 2 ^ dropped
        if 2 ^ dropped < 2 * remainder ∨ 2 ^ dropped = 2 * remainder ∧ quotient % 2 = 1
        then quotient + 1 else quotient
    -- The leading bit of the mantissa is carried into the exponent.
    (exponent + 1022) * 2 ^ 52 + mantissa

/-- Integers are rounded to the nearest double. -/
def Numbers.nearest : Numbers where
  getDouble
    | .unsigned value => some (UInt64.ofNat (doubleBits value.toNat))
    | .negative value => some (UInt64.ofNat (2 ^ 63 + doubleBits value.toInt.natAbs))
    | .double bits => some bits
    | .string _ _ | .array _ => none
  converts value := by cases value <;> rfl
  keeps _ := rfl

/-- `1`, `-2` and the largest integer, which is rounded up to a power of two. -/
example : (Numbers.nearest.getDouble (.unsigned 1), Numbers.nearest.getDouble (.negative (-2)),
      Numbers.nearest.getDouble (.unsigned (2 ^ 64 - 1)))
    = (some 0x3FF0000000000000, some 0xC000000000000000, some 0x43F0000000000000) := by
  decide +kernel

/-- A value as a double; that it is a number is not checked. -/
def Numbers.read (numbers : Numbers) (value : Json) : Except Stop UInt64 :=
  match numbers.getDouble value with
  | some bits => .ok bits
  | none => .error .undefined

/-- A request. The name is stored with a terminating zero behind it. -/
structure Request where
  method : List UInt8
  parameters : List Json

namespace Request

def methodSize (request : Request) : Nat := request.method.length

def parameterCount (request : Request) : Nat := request.parameters.length

/-- A packed representation of the method attributes, truncated to one byte. The checks for
names over 31 bytes and for more than 7 parameters are compiled out.
-/
def methodAttr (request : Request) : UInt8 :=
  UInt8.ofNat (request.methodSize + request.parameterCount <<< 5)

/-- A parameter of an unsigned type; another type or index is not checked for. -/
def unsigned (request : Request) (index : Nat) : Except Stop UInt64 :=
  match request.parameters[index]? with
  | some (.unsigned value) => .ok value
  | _ => .error .undefined

/-- A string parameter as a pointer to its first byte. -/
def string (request : Request) (index : Nat) : Except Stop (List UInt8) :=
  match request.parameters[index]? with
  | some (.string bytes after) => .ok (cString bytes after)
  | _ => .error .undefined

def double (numbers : Numbers) (request : Request) (index : Nat) : Except Stop UInt64 :=
  match request.parameters[index]? with
  | some value => numbers.read value
  | none => .error .undefined

/-- The elements of a parameter that is an array of numbers. -/
def doubles (numbers : Numbers) (request : Request) (index : Nat) : Except Stop (List UInt64) :=
  match request.parameters[index]? with
  | some (.array items) => items.mapM numbers.read
  | _ => .error .undefined

end Request

end Sabot.Net
