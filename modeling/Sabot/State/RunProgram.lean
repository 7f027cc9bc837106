import Sabot.Language.Program
import Sabot.State.ChpState

/-! `init_state`, the instruction loop `run_program` and the four entry points of `chp_state`. -/

namespace Sabot.State

open Sabot.Language (Operation Instruction Program)

/-- A `string_buffer<>`: a managed container of characters. -/
abbrev StringBuffer := ManagedContainer UInt8 1 40

/-- What a run draws from outside: the coins of the random generator, and the allocator's
answers, each a refusal or a block with some left-over content.
-/
structure World where
  coins : Stream' Bool
  grants : Stream' (Option Int)

-----------------------------------------------------------------------------------------
-- Initialisation
-----------------------------------------------------------------------------------------

/-- `new std::int_fast64_t[count]`: the content of the new cells, or `none` for `bad_alloc`,
thrown also for a byte size that does not fit in a word.
-/
def allocate (count : Nat) (grants : Stream' (Option Int))
    : Option Int × Stream' (Option Int) :=
  if 8 * count < 2 ^ 64 then (grants.head, grants.tail) else (none, grants)

/-- The five allocations in order, stopping at the first that is refused. The result is the
left-over content of the phase array, the only one that is not cleared completely, or else how
many of the three pointers had been renewed.
-/
def allocateArrays (rows chunk : Nat) (grants : Stream' (Option Int))
    : Except Nat Int × Stream' (Option Int) :=
  match allocate rows grants with
  | (none, grants) => (.error 0, grants)
  | (some _, grants) =>
  match allocate rows grants with
  | (none, grants) => (.error 1, grants)
  | (some _, grants) =>
  match allocate rows grants with
  | (none, grants) => (.error 2, grants)
  | (some leftover, grants) =>
  match allocate chunk grants with
  | (none, grants) => (.error 3, grants)
  | (some _, grants) =>
  match allocate chunk grants with
  | (none, grants) => (.error 3, grants)
  | (some _, grants) => (.ok leftover, grants)

/-- The arrays after `memset`: all words zero, all phases but that of the last row zero. -/
def clearedState (n : Nat) (leftover : Int) : ChpState :=
  let over32 := n / 32 + 1
  let rows := wrap (2 * n + 1)
  let chunk : Block Word := ⟨wrap (rows * over32), fun _ => 0#64⟩
  {
    n := n
    x := ⟨rows, over32, chunk⟩
    z := ⟨rows, over32, chunk⟩
    r := ⟨rows, fun i => if i < wrap (2 * n) then 0 else leftover⟩
    over32 := over32
    pointers := .live
  }

/-- The loop body of `init_state`: the single bit of row `i`, also for the scratch row. -/
def initRow (d : Discipline) (i : Nat) (s : ChpState) : Option ChpState :=
  if i < s.n then s.setX d i (i / 32) (pt (i % 32))
  else s.setZ d i ((i - s.n) / 32) (pt ((i - s.n) % 32))

/-- Initialize a state to have `n` qubits; `false` reports `bad_alloc`. The arrays that the
state had before are overwritten, or released together with the new ones on failure, with the
pointers left as they are.
-/
def initState (d : Discipline) (pointers : Pointers) (n : Nat) (grants : Stream' (Option Int))
    : Option (Bool × ChpState × Stream' (Option Int)) :=
  match allocateArrays (wrap (2 * n + 1)) (wrap (wrap (2 * n + 1) * (n / 32 + 1))) grants with
  | (.ok leftover, grants) => do
      let s ← forRange (wrap (2 * n + 1)) (initRow d) (clearedState n leftover)
      return (true, s, grants)
  | (.error renewed, grants) =>
      let s := {
        ChpState.fresh with n := n, over32 := n / 32 + 1, pointers := pointers.release renewed }
      some (false, s, grants)

-----------------------------------------------------------------------------------------
-- Running programs
-----------------------------------------------------------------------------------------

/-- A run's state: the tableau, the result buffer and the rest of the outside world. -/
structure Machine where
  state : ChpState
  buffer : StringBuffer
  world : World

/-- One instruction; `false` makes `run_program` return false. -/
def step (d : Discipline) (m : Machine) : Instruction → Option (Bool × Machine)
  -- The error object for macros is constructed but not thrown.
  | ⟨.macroOp, _⟩ => some (true, m)
  | ⟨.initializeOp, operands⟩ => do
      let (ok, state, grants) ← initState d m.state.pointers operands.head.toNat m.world.grants
      return (ok, { m with state := state, world := { m.world with grants := grants } })
  | ⟨.identity, _⟩ => some (true, m)
  | ⟨.hadamard, operands⟩ => do
      return (true, { m with state := ← hadamard d operands.head.toNat m.state })
  | ⟨.phase, operands⟩ => do
      return (true, { m with state := ← phase d operands.head.toNat m.state })
  | ⟨.measure, operands⟩ => do
      let (outcome, state, coins) ← measure d operands.head.toNat m.world.coins m.state
      let buffer ← m.buffer.add [if outcome then 49 else 48]
      return (true, { state := state, buffer := buffer, world := { m.world with coins := coins } })
  | ⟨.cnot, operands⟩ => do
      return (true, {
        m with state := ← cnot d operands.head.toNat operands.tail.head.toNat m.state })
  | ⟨.paulix, operands⟩ => do
      let q := operands.head.toNat
      let s ← hadamard d q m.state
      let s ← phase d q s
      let s ← phase d q s
      let s ← hadamard d q s
      return (true, { m with state := s })
  | ⟨.pauliy, operands⟩ => do
      let q := operands.head.toNat
      let s ← phase d q m.state
      let s ← hadamard d q s
      let s ← phase d q s
      let s ← phase d q s
      let s ← hadamard d q s
      let s ← phase d q s
      let s ← phase d q s
      let s ← phase d q s
      return (true, { m with state := s })
  | ⟨.pauliz, operands⟩ => do
      let q := operands.head.toNat
      let s ← phase d q m.state
      let s ← phase d q s
      return (true, { m with state := s })

/-- The instruction loop with `count` instructions left from address `t`. -/
def runFrom (d : Discipline) (p : Program) : (count t : Nat) → Machine → Option (Bool × Machine)
  | 0, _, m => some (true, m)
  | count + 1, t, m => do
      let (ok, m) ← step d m (← p.instruction t)
      if ok then runFrom d p count (t + 1) m else return (false, m)

/-- Run a program on a state and write any results to the buffer. -/
def runProgram (d : Discipline) (p : Program) (m : Machine) : Option (Bool × Machine) :=
  runFrom d p p.size 0 m

/-- The loop over a list of instructions instead of a stored program. -/
def runInstructions (d : Discipline) : List Instruction → Machine → Option (Bool × Machine)
  | [], m => some (true, m)
  | instruction :: rest, m => do
      let (ok, m) ← step d m instruction
      if ok then runInstructions d rest m else return (false, m)

/-- A stored program runs the instructions that its container holds, in order. -/
theorem runProgram_eq (d : Discipline) {p : Program} {array : List Instruction}
    (stored : p.instructions.Holds array) (m : Machine)
    : runProgram d p m = runInstructions d array m := by
  have loop (count t : Nat) (whole : t + count = array.length) (m : Machine)
      : runFrom d p count t m = runInstructions d (array.drop t) m := by
    induction count generalizing t m with
    | zero =>
        rw [List.drop_eq_nil_of_le (by omega)]
        rfl
    | succ count ih =>
        have inside : t < array.length := by omega
        have here : p.instruction t = some array[t] := by
          rw [Program.instruction, stored.slot_eq t inside, List.getElem?_eq_getElem inside]
        rw [List.drop_eq_getElem_cons inside, runFrom, here]
        simp only [runInstructions, Option.bind_eq_bind, Option.bind_some, ih (t + 1) (by omega)]
  rw [runProgram, Program.size, stored.count_eq, loop _ 0 (Nat.zero_add _), List.drop_zero]

/-- A list is run part by part; the second part only after the first has succeeded. -/
theorem runInstructions_append (d : Discipline) (first second : List Instruction) (m : Machine)
    : runInstructions d (first ++ second) m = do
        let (ok, m) ← runInstructions d first m
        if ok then runInstructions d second m else return (false, m) := by
  induction first generalizing m with
  | nil => rfl
  | cons instruction rest ih =>
      simp only [List.cons_append, runInstructions, Option.bind_eq_bind, Option.bind_assoc]
      congr 1
      funext ⟨ok, next⟩
      cases ok with
      | false => rfl
      | true => simpa using ih next

-----------------------------------------------------------------------------------------
-- Entry points
-----------------------------------------------------------------------------------------

/-- Encode a state via a program. What `run_program` returns is not looked at. -/
def encodeState (p : Program) (world : World) : Option (ChpState × World) := do
  let (_, m) ← runProgram .allocated p ⟨ChpState.fresh, .empty, world⟩
  return (m.state, m.world)

/-- Modify a state via a program; the results go to a buffer that is dropped. -/
def modifyState (state : ChpState) (p : Program) (world : World)
    : Option (Bool × ChpState × World) := do
  let (ok, m) ← runProgram .allocated p ⟨state, .empty, world⟩
  return (ok, m.state, m.world)

/-- Measure a state via a program. -/
def measureState (state : ChpState) (p : Program) (buffer : StringBuffer) (world : World)
    : Option (Bool × Machine) :=
  runProgram .allocated p ⟨state, buffer, world⟩

/-- Compute the result of a program by temporarily storing state. -/
def computeResult (p : Program) (buffer : StringBuffer) (world : World)
    : Option (Bool × Machine) :=
  runProgram .allocated p ⟨ChpState.fresh, buffer, world⟩

end Sabot.State
