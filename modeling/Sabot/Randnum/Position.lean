import Sabot.Randnum.Generator

/-! The position that `generator` keeps, beside the raw outputs that its engine has given. The
position counts a draw as one, whatever its distribution takes from the engine.
-/

namespace Sabot.Randnum

/-- An integral type: its width, and whether it has a sign. -/
structure IntegralType where
  bits : Nat
  signed : Bool
deriving DecidableEq

/-- The random library at a floating type `F`: the raw outputs of an engine for each seed, and for
each distribution its sample from the outputs to come with the number of outputs that it took.
-/
structure Library (Raw F : Type) where
  engine : UInt32 → Stream' Raw
  uniformInt : IntegralType → Int → Int → Stream' Raw → Int × Nat
  uniformReal : F → F → Stream' Raw → F × Nat
  zero : F
  add : F → F → F
  sub : F → F → F
  lt : F → F → Bool

/-- `generator`: the seed, the position and the engine, as the outputs it is still to give. -/
@[ext]
structure Generator (Raw : Type) where
  rngSeed : UInt64
  position : UInt64
  rng : Stream' Raw

/-- The operations of `generator` that touch its engine. -/
inductive Call (F : Type) where
  | getUniformInteger (type : IntegralType) (lower upper : Int)
  | getUniformReal (lower upper : F)
  | getWeightedInteger (weights : List F)
  | discard (n : UInt64)

/-- What a call returns; no index stands for the throw at the end of the weighted choice. -/
inductive Sample (F : Type) where
  | integer (value : Int)
  | real (value : F)
  | index (value : Option Nat)
  | nothing

def Call.isDraw {F : Type} : Call F → Bool
  | .discard _ => false
  | _ => true

section Calls

variable {Raw F : Type} (library : Library Raw F)

/-- The constructor with a seed. -/
def Generator.seeded (suppliedSeed : UInt32) : Generator Raw where
  rngSeed := suppliedSeed.toUInt64
  position := 0
  rng := library.engine suppliedSeed

/-- `position++; return distribution(rng)`. -/
def Generator.draw {α : Type} (distribution : Stream' Raw → α × Nat) (g : Generator Raw)
    : α × Generator Raw :=
  ((distribution g.rng).1, {
    g with position := g.position + 1, rng := g.rng.drop (distribution g.rng).2 })

/-- One call: what it returns and the generator after it. -/
def Call.perform (g : Generator Raw) : Call F → Sample F × Generator Raw
  | .getUniformInteger type lower upper =>
      let (value, g) := g.draw (library.uniformInt type lower upper)
      (.integer value, g)
  | .getUniformReal lower upper =>
      let (value, g) := g.draw (library.uniformReal lower upper)
      (.real value, g)
  | .getWeightedInteger weights =>
      let (sample, g) := g.draw (library.uniformReal library.zero
        (weights.foldl library.add library.zero))
      (.index (selectWeighted library.lt library.sub weights sample), g)
  | .discard n => (.nothing, { g with position := g.position + n, rng := g.rng.drop n.toNat })

/-- The number of raw outputs that a call takes from the engine. -/
def Call.taken (g : Generator Raw) : Call F → Nat
  | .getUniformInteger type lower upper => (library.uniformInt type lower upper g.rng).2
  | .getUniformReal lower upper => (library.uniformReal lower upper g.rng).2
  | .getWeightedInteger weights =>
      (library.uniformReal library.zero (weights.foldl library.add library.zero) g.rng).2
  | .discard n => n.toNat

/-- The generator after a sequence of calls. -/
def Generator.after (calls : List (Call F)) (g : Generator Raw) : Generator Raw :=
  calls.foldl (fun g call => (call.perform library g).2) g

/-- What a sequence of calls returns. -/
def Generator.results : List (Call F) → Generator Raw → List (Sample F)
  | [], _ => []
  | call :: rest, g =>
      (call.perform library g).1 :: Generator.results rest (call.perform library g).2

/-- The raw outputs that a sequence of calls takes from the engine. -/
def Generator.consumed : List (Call F) → Generator Raw → Nat
  | [], _ => 0
  | call :: rest, g => call.taken library g + Generator.consumed rest (call.perform library g).2

/-- After the calls the position is the number of raw outputs taken, and a new generator with the
same seed that discards as many gives the same results from there on.
-/
structure Replayable (seed : UInt32) (calls : List (Call F)) : Prop where
  position
    : ((Generator.seeded library seed).after library calls).position.toNat
      = (Generator.seeded library seed).consumed library calls
  replay
    : ∀ further : List (Call F),
        (((Generator.seeded library seed).after library [Call.discard
            ((Generator.seeded library seed).after library calls).position]).results library further)
        = ((Generator.seeded library seed).after library calls).results library further

/-- A draw moves the position by one and a discard by what it discards. -/
theorem Call.perform_position (g : Generator Raw) (call : Call F)
    : (call.perform library g).2.position
      = g.position + match call with | .discard n => n | _ => 1 := by
  cases call <;> rfl

theorem Call.perform_rng (g : Generator Raw) (call : Call F)
    : (call.perform library g).2.rng = g.rng.drop (call.taken library g) := by
  cases call <;> rfl

theorem Call.perform_rngSeed (g : Generator Raw) (call : Call F)
    : (call.perform library g).2.rngSeed = g.rngSeed := by
  cases call <;> rfl

namespace Generator

variable (g : Generator Raw) (calls : List (Call F))

theorem after_append (more : List (Call F))
    : g.after library (calls ++ more) = (g.after library calls).after library more :=
  List.foldl_append

theorem consumed_append (more : List (Call F))
    : g.consumed library (calls ++ more)
      = g.consumed library calls + (g.after library calls).consumed library more := by
  induction calls generalizing g with
  | nil => simp [consumed, after]
  | cons call rest ih =>
      rw [List.cons_append, consumed, consumed, ih, Nat.add_assoc]
      rfl

/-- The engine has given exactly the outputs that the calls took. -/
theorem after_rng
    : (g.after library calls).rng = g.rng.drop (g.consumed library calls) := by
  induction calls generalizing g with
  | nil => rfl
  | cons call rest ih =>
      rw [consumed, ← Stream'.drop_drop, ← Call.perform_rng]
      exact ih _

theorem after_rngSeed : (g.after library calls).rngSeed = g.rngSeed := by
  induction calls generalizing g with
  | nil => rfl
  | cons call rest ih => exact (ih _).trans (Call.perform_rngSeed library g call)

theorem consumed_take_le (k : Nat)
    : g.consumed library (calls.take k) ≤ g.consumed library calls := by
  have split := g.consumed_append library (calls.take k) (calls.drop k)
  rw [List.take_append_drop] at split
  omega

end Generator

/-- A position that was right stays right exactly when the call is a discard or takes one output,
and the position does not wrap.
-/
theorem Call.perform_position_iff {g : Generator Raw} {count : Nat}
    (right : g.position.toNat = count) (call : Call F)
    : (call.perform library g).2.position.toNat = count + call.taken library g
      ↔ (call.isDraw = true → call.taken library g = 1)
        ∧ count + call.taken library g < 2 ^ 64 := by
  have small := g.position.toNat_lt
  rw [Call.perform_position, UInt64.toNat_add, right]
  cases call with
  | discard n =>
      simp only [Call.taken, Call.isDraw, Bool.false_eq_true, false_implies, true_and]
      omega
  | _ =>
      simp only [Call.isDraw, true_implies, UInt64.toNat_one]
      omega

variable (seed : UInt32) (calls : List (Call F))

/-- Where the position is right, discarding as many outputs leads to the same generator. -/
theorem Replayable.of_position
    (position
      : ((Generator.seeded library seed).after library calls).position.toNat
        = (Generator.seeded library seed).consumed library calls)
    : Replayable library seed calls := by
  refine ⟨position, fun further => ?_⟩
  congr 1
  ext1
  · rw [Generator.after_rngSeed, Generator.after_rngSeed]
  · exact UInt64.zero_add _
  · rw [Generator.after_rng library _ calls, ← position]
    rfl

/-- Along a sequence of calls on a generator with any seed, the position is the number of raw
outputs taken and can be replayed after every call, exactly when every draw takes one output and
fewer than `2^64` outputs are taken.
-/
theorem position_replayable_iff
    : (∀ k ≤ calls.length, Replayable library seed (calls.take k))
      ↔ (∀ k, ∀ inside : k < calls.length, calls[k].isDraw = true
          → calls[k].taken library
              ((Generator.seeded library seed).after library (calls.take k)) = 1)
        ∧ (Generator.seeded library seed).consumed library calls < 2 ^ 64 := by
  have step (k : Nat) (inside : k < calls.length)
      : (Generator.seeded library seed).after library (calls.take (k + 1))
          = (calls[k].perform library
              ((Generator.seeded library seed).after library (calls.take k))).2
        ∧ (Generator.seeded library seed).consumed library (calls.take (k + 1))
          = (Generator.seeded library seed).consumed library (calls.take k)
            + calls[k].taken library
                ((Generator.seeded library seed).after library (calls.take k)) := by
    rw [List.take_succ_eq_append_getElem inside, Generator.after_append,
      Generator.consumed_append]
    exact ⟨rfl, rfl⟩
  constructor
  · intro replayable
    constructor
    · intro k inside draw
      have next := (replayable (k + 1) inside).position
      rw [(step k inside).1, (step k inside).2] at next
      exact ((Call.perform_position_iff library (replayable k inside.le).position _).mp next).1 draw
    · have last := (replayable calls.length le_rfl).position
      rw [List.take_length] at last
      rw [← last]
      exact UInt64.toNat_lt _
  · intro ⟨single, bounded⟩ k inside
    refine Replayable.of_position library seed _ ?_
    -- The position is right before any call, and each call keeps it right.
    induction k with
    | zero => rfl
    | succ k ih =>
        have bound := (Generator.seeded library seed).consumed_take_le library calls (k + 1)
        rw [(step k inside).1, (step k inside).2]
        rw [(step k inside).2] at bound
        exact (Call.perform_position_iff library (ih (Nat.le_of_lt inside)) _).mpr
          ⟨single k inside, by omega⟩

end Calls

/-- A library with an engine of 32-bit outputs. With seed 1 the leading bits of its outputs are
those of the test `deterministic`. A range of one value takes no output, the whole range of 64 bits
takes two, and a range whose length divides `2^32` takes one.
-/
def narrowEngine : Library Nat ℚ where
  engine _ := fun i => 2 ^ 31 * [1, 1, 1, 0, 0, 1, 1, 0, 1, 1].getD i 0
  uniformInt _ lower upper outputs :=
    if upper - lower = 0 then (lower, 0)
    else if upper - lower = 2 ^ 64 - 1 then (lower + outputs.get 0 + 2 ^ 32 * outputs.get 1, 2)
    else (lower + outputs.get 0 / (2 ^ 32 / (upper - lower + 1)), 1)
  uniformReal lower upper outputs := (lower + (upper - lower) * outputs.get 0 / 2 ^ 32, 1)
  zero := 0
  add a b := a + b
  sub a b := a - b
  lt a b := decide (a < b)

/-- Two draws of any 64-bit value leave the position at two after four outputs, and the draw of a
bit that follows gives another result when it is replayed from there.
-/
theorem wideDraws_not_replayable
    : let wide := Call.getUniformInteger ⟨64, false⟩ 0 (2 ^ 64 - 1)
      let bit := Call.getUniformInteger ⟨32, true⟩ 0 1
      let start := Generator.seeded narrowEngine 1
      ¬Replayable narrowEngine 1 [wide, wide]
        ∧ (start.after narrowEngine [wide, wide]).position = 2
        ∧ start.consumed narrowEngine [wide, wide] = 4
        ∧ (start.after narrowEngine [wide, wide]).results narrowEngine [bit] = [.integer 0]
        ∧ (start.after narrowEngine [.discard 2]).results narrowEngine [bit] = [.integer 1] := by
  refine ⟨fun replayable => ?_, rfl, rfl, rfl, rfl⟩
  exact absurd (show (2 : Nat) = 4 from replayable.position) (by decide)

end Sabot.Randnum
