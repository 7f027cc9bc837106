import Sabot.Failure

/-! The draws of the random generator. The engine and its distributions are not part of the
program: they are a supply of samples, each a function of the bounds it is drawn for.
-/

namespace Sabot.Randnum

/-- Arithmetic of `double`, on bit patterns. -/
structure Doubles where
  add : UInt64 → UInt64 → UInt64
  sub : UInt64 → UInt64 → UInt64
  lt : UInt64 → UInt64 → Bool
  le : UInt64 → UInt64 → Bool

/-- The samples to come. -/
structure Draws where
  integers : Stream' (UInt64 → UInt64 → UInt64)
  reals : Stream' (UInt64 → UInt64 → UInt64)

/-- An integer between two numbers. The distribution requires the lower to be no larger, which
is not checked.
-/
def getUniformInteger (lower upper : UInt64) : Run Draws UInt64 := fun draws =>
  if lower ≤ upper then
    (.ok (draws.integers.head lower upper), { draws with integers := draws.integers.tail })
  else (.error .undefined, draws)

/-- A real number between two numbers, with the same requirement. -/
def getUniformReal (doubles : Doubles) (lower upper : UInt64) : Run Draws UInt64 := fun draws =>
  if doubles.le lower upper then
    (.ok (draws.reals.head lower upper), { draws with reals := draws.reals.tail })
  else (.error .undefined, draws)

/-- The first index whose weight is above what is left of the sample. -/
def selectWeighted {α : Type} (lt : α → α → Bool) (sub : α → α → α) : List α → α → Option Nat
  | [], _ => none
  | weight :: rest, sample =>
      if lt sample weight then some 0
      else (selectWeighted lt sub rest (sub sample weight)).map (· + 1)

/-- An index of the weights, of which `size` are read. -/
def getWeightedInteger (doubles : Doubles) (weights : List UInt64) (size : Nat)
    : Run Draws UInt64 := do
  if weights.length < size then Run.ofExcept (.error .undefined)
  else
    let sample ← getUniformReal doubles 0 ((weights.take size).foldl doubles.add 0)
    match selectWeighted doubles.lt doubles.sub (weights.take size) sample with
    | some index => return UInt64.ofNat index
    | none => Run.ofExcept (.error (.thrown (.logicError "unreachable code reached")))

/-- Draw into an array of `count` elements. -/
def drawMany {α : Type} (draw : Run Draws α) : (count : Nat) → Run Draws (List α)
  | 0 => pure []
  | count + 1 => do
      let first ← draw
      let rest ← drawMany draw count
      return first :: rest

end Sabot.Randnum
