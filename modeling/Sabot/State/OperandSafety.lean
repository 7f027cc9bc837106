import Sabot.State.Containment
import Sabot.Language.Assembly

/-! Which runs stay inside the tableau. Neither the parser nor `run_program` compares an operand
with the number of qubits, so this is a matter of the program and of the state it is run on.
-/

namespace Sabot.State

open ChpState
open Sabot.Language (Instruction Program chpext cString parseProgram ascii isDigit
  parseProgram_of_assembly)

/-- The instruction works on different qubits below `n`. -/
def Validated (n : Nat) (instruction : Instruction) : Prop :=
  (∀ q ∈ qubits instruction, q < n) ∧ (qubits instruction).Nodup

/-- The instruction fails and releases no array twice, or it accesses only rows up to `2n` and words
below `over32` of allocated arrays and works on different qubits of the state.
-/
def Respects (m : Machine) (instruction : Instruction) : Prop :=
  (∃ next, step .tableau m instruction = some (false, next) ∧ next.state.pointers ≠ .freedTwice)
  ∨ (∃ next, step .tableau m instruction = some (true, next)) ∧ Validated m.state.n instruction

/-- `Executes instructions m m' i`: running the instructions from `m` comes to execute `i` in the
machine `m'`.
-/
inductive Executes : List Instruction → Machine → Machine → Instruction → Prop where
  | here {instruction rest m} : Executes (instruction :: rest) m m instruction
  | later {instruction rest m next m' i} (ran : step .allocated m instruction = some (true, next))
      (executes : Executes rest next m' i)
      : Executes (instruction :: rest) m m' i

-----------------------------------------------------------------------------------------
-- The static condition
-----------------------------------------------------------------------------------------

/-- The number of qubits after an instruction that succeeds. -/
def qubitCount (n : Nat) : Instruction → Nat
  | ⟨.initializeOp, operands⟩ => operands.head.toNat
  | _ => n

/-- From `n` qubits on, every instruction works on different qubits below the operand of the
last `init`, and no `init` asks for sizes that wrap.
-/
def Admissible : Nat → List Instruction → Prop
  | _, [] => True
  | n, instruction :: rest =>
      Validated n instruction
        ∧ (instruction.bytecode = .initializeOp → cells (qubitCount n instruction) < 2 ^ 64)
        ∧ Admissible (qubitCount n instruction) rest

/-- The first initialisation of the program gets its arrays, or it is refused them where each pointer
that an earlier refusal left has been renewed. Later ones come upon live arrays.
-/
def ReleasesOnce (pointers : Pointers) (grants : Stream' (Option Int))
    : List Instruction → Prop
  | [] => True
  | instruction :: rest =>
      match instruction with
      | ⟨.initializeOp, operands⟩ =>
          let n := operands.head.toNat
          ∀ renewed left, allocateArrays (rowCount n) (chunkSize n) grants = (.error renewed, left)
            → pointers.release renewed ≠ .freedTwice
      | _ => ReleasesOnce pointers grants rest

/-- The arrays of the state are those of `n` qubits, unless there are none. -/
def Live (n : Nat) (s : ChpState) : Prop := n ≠ 0 → s.Layout ∧ s.n = n

/-- The states that runs of admissible programs leave stored, with the number of qubits that may
be used: none at first, and none after an initialisation that failed.
-/
inductive Stored : Nat → ChpState → Prop where
  | fresh : Stored 0 ChpState.fresh
  | ran {n s p instructions world ok m} (before : Stored n s)
      (holds : p.instructions.Holds instructions) (admissible : Admissible n instructions)
      (once : ReleasesOnce s.pointers world.grants instructions)
      (ran : runProgram .allocated p ⟨s, .empty, world⟩ = some (ok, m))
      : Stored (if ok then instructions.foldl qubitCount n else 0) m.state

-----------------------------------------------------------------------------------------
-- One instruction
-----------------------------------------------------------------------------------------

theorem releasesOnce_of_live (grants : Stream' (Option Int)) (instructions : List Instruction)
    : ReleasesOnce .live grants instructions := by
  induction instructions with
  | nil => trivial
  | cons instruction rest ih =>
      obtain ⟨bytecode, operands⟩ := instruction
      cases bytecode <;> first | exact ih | exact fun _ _ _ => nofun

/-- A failing initialisation does not release an array twice. -/
theorem ReleasesOnce.fails {m next : Machine} {instruction : Instruction} {rest : List Instruction}
    (once : ReleasesOnce m.state.pointers m.world.grants (instruction :: rest)) {d : Discipline}
    (ran : step d m instruction = some (false, next))
    : next.state.pointers ≠ .freedTwice := by
  by_cases initializes : instruction.bytecode = .initializeOp
  · obtain ⟨bytecode, operands⟩ := instruction
    obtain rfl : bytecode = .initializeOp := initializes
    obtain ⟨⟨went, s, left⟩, init, same⟩ := Option.bind_eq_some_iff.mp ran
    cases same
    obtain ⟨renewed, refused, released⟩ := initState_refused_pointers init
    rw [released]
    exact once renewed left refused
  · exact absurd (step_extent d m initializes _ ran).1 Bool.false_ne_true

/-- An instruction that succeeds keeps the pointers, or makes them live. -/
theorem ReleasesOnce.goesOn {m next : Machine} {instruction : Instruction} {rest : List Instruction}
    (once : ReleasesOnce m.state.pointers m.world.grants (instruction :: rest)) {d : Discipline}
    (ran : step d m instruction = some (true, next))
    : ReleasesOnce next.state.pointers next.world.grants rest := by
  by_cases initializes : instruction.bytecode = .initializeOp
  · obtain ⟨bytecode, operands⟩ := instruction
    obtain rfl : bytecode = .initializeOp := initializes
    obtain ⟨⟨went, s, left⟩, init, same⟩ := Option.bind_eq_some_iff.mp ran
    cases same
    have live : s.pointers = .live := congrArg Extent.pointers (initState_granted init).1
    rw [live]
    exact releasesOnce_of_live left rest
  · obtain ⟨_, same, grants⟩ := step_extent d m initializes _ ran
    have pointers : next.state.pointers = m.state.pointers := congrArg Extent.pointers same
    rw [pointers, grants]
    obtain ⟨bytecode, operands⟩ := instruction
    cases bytecode <;> first | exact absurd rfl initializes | exact once

/-- The computation succeeds and keeps the arrays. -/
def Keeps (result : Option ChpState) (s : ChpState) : Prop :=
  ∃ t, result = some t ∧ SameShape s t

theorem Yields.keeps {result : Option ChpState} {s : ChpState} {rows : Nat → Row}
    (yields : Yields result s rows)
    : Keeps result s := by
  obtain ⟨t, ran, shape, _⟩ := yields
  exact ⟨t, ran, shape⟩

section Memory

variable {s : ChpState} (layout : s.Layout) (d : Discipline) {q : Nat} (inside : q < s.n)
include layout inside

theorem hadamard_keeps : Keeps (hadamard d q s) s :=
  (hadamard_yields layout d (layout.column_lt inside)).keeps

theorem phase_keeps : Keeps (phase d q s) s :=
  (phase_yields layout d (layout.column_lt inside)).keeps

theorem Keeps.thenHadamard {first : Option ChpState} (keeps : Keeps first s)
    : Keeps (first.bind (hadamard d q)) s := by
  obtain ⟨t, ran, shape⟩ := keeps
  obtain ⟨u, ranU, shapeU⟩ :=
    hadamard_keeps (shape.layout layout) d (lt_of_lt_of_eq inside shape.n.symm)
  exact ⟨u, by rw [ran, Option.bind_some, ranU], shape.trans shapeU⟩

theorem Keeps.thenPhase {first : Option ChpState} (keeps : Keeps first s)
    : Keeps (first.bind (phase d q)) s := by
  obtain ⟨t, ran, shape⟩ := keeps
  obtain ⟨u, ranU, shapeU⟩ :=
    phase_keeps (shape.layout layout) d (lt_of_lt_of_eq inside shape.n.symm)
  exact ⟨u, by rw [ran, Option.bind_some, ranU], shape.trans shapeU⟩

/-- Both branches of a measurement stay within the rows, also when no pivot is found. -/
theorem measure_keeps (coins : Stream' Bool)
    : ∃ outcome t left, measure d q coins s = some (outcome, t, left) ∧ SameShape s t := by
  obtain ⟨p, ranP, _, high, _, _⟩ :=
    search_spec (fun p => s.bitX d (wrap (p + s.n)) q) (fun p => (s.row (p + s.n)).bitX q) s.n 0
      (fun k _ below => by
        have within : k + s.n ≤ 2 * s.n := by omega
        exact (congrArg (s.bitX d · q) (layout.wrap_eq within)).trans
          (bitX_eq layout d within (layout.column_lt inside)))
  by_cases pivot : p < s.n
  · obtain ⟨t, ranT, shape, _⟩ := measureRandom_yields layout d inside pivot coins.head
    exact ⟨coins.head, t, coins.tail, by simp [measure, ranP, pivot, ranT], shape⟩
  · obtain ⟨m, _, _, _, _, t, ranT, shape, _⟩ := measureDetermined_yields layout d inside
    exact ⟨_, t, coins, by simp [measure, ranP, pivot, ranT]; rfl, shape⟩

end Memory

/-- The instruction comes to an end, and leaves live arrays when it succeeds. -/
def Safe (n : Nat) (d : Discipline) (m : Machine) (instruction : Instruction) : Prop :=
  ∃ ok next, step d m instruction = some (ok, next)
    ∧ (∃ written, next.buffer.Holds written)
    ∧ (ok = true → Live (qubitCount n instruction) next.state)

theorem ChpState.SameShape.live {n : Nat} {s t : ChpState} (shape : SameShape s t) (live : Live n s)
    : Live n t := by
  intro positive
  obtain ⟨layout, count⟩ := live positive
  exact ⟨shape.layout layout, shape.n.trans count⟩

/-- An initialisation whose sizes do not wrap gets its arrays or fails. -/
theorem initState_safe {n : Nat} (fits : cells n < 2 ^ 64) (d : Discipline) (pointers : Pointers)
    (grants : Stream' (Option Int))
    : ∃ ok s left, initState d pointers n grants = some (ok, s, left) ∧ (ok = true → Live n s) := by
  cases answers : allocateArrays (2 * n + 1) (cells n) grants with
  | mk content rest =>
      cases content with
      | error renewed =>
          obtain ⟨s, ran⟩ := initState_refused fits d pointers answers
          exact ⟨false, s, rest, ran, fun ok => by cases ok⟩
      | ok leftover =>
          obtain ⟨s, ran, sound, _⟩ := initState_allocated fits leftover d pointers answers
          exact ⟨true, s, rest, ran, fun _ _ => ⟨sound.layout, sound.qubits⟩⟩

section Step

variable {n : Nat} {m : Machine} {written : List UInt8} (live : Live n m.state)
  (buffer : m.buffer.Holds written)
include live buffer

theorem safe_of_keeps {d : Discipline} {instruction : Instruction} {result : Option ChpState}
    (runs : step d m instruction = result.bind (fun s => some (true, { m with state := s })))
    (keeps : Keeps result m.state) (same : qubitCount n instruction = n)
    : Safe n d m instruction := by
  obtain ⟨t, ran, shape⟩ := keeps
  refine ⟨true, { m with state := t }, by rw [runs, ran]; rfl, ⟨written, buffer⟩, fun _ => ?_⟩
  rw [same]
  exact shape.live live

/-- Validated instructions are safe, case by case. -/
theorem step_safe {instruction : Instruction} (validated : Validated n instruction)
    (sizes : instruction.bytecode = .initializeOp → cells (qubitCount n instruction) < 2 ^ 64)
    (d : Discipline)
    : Safe n d m instruction := by
  obtain ⟨bytecode, operands⟩ := instruction
  -- A qubit below `n` means that there are arrays.
  have arrays {q : Nat} (below : q < n) : m.state.Layout ∧ q < m.state.n := by
    obtain ⟨layout, count⟩ := live (by omega)
    exact ⟨layout, by omega⟩
  cases bytecode with
  | macroOp => exact ⟨true, m, rfl, ⟨written, buffer⟩, fun _ => live⟩
  | identity => exact ⟨true, m, rfl, ⟨written, buffer⟩, fun _ => live⟩
  | initializeOp =>
      obtain ⟨ok, s, left, ran, liveS⟩ := initState_safe (sizes rfl) d m.state.pointers m.world.grants
      simp only [qubitCount] at ran
      exact ⟨ok, ⟨s, m.buffer, { m.world with grants := left }⟩, by simp [step, ran],
        ⟨written, buffer⟩, liveS⟩
  | hadamard =>
      obtain ⟨layout, inside⟩ := arrays (validated.1 operands.head.toNat (by simp [qubits]))
      exact safe_of_keeps live buffer rfl (hadamard_keeps layout d inside) rfl
  | phase =>
      obtain ⟨layout, inside⟩ := arrays (validated.1 operands.head.toNat (by simp [qubits]))
      exact safe_of_keeps live buffer rfl (phase_keeps layout d inside) rfl
  | measure =>
      obtain ⟨layout, inside⟩ := arrays (validated.1 operands.head.toNat (by simp [qubits]))
      obtain ⟨outcome, t, left, ran, shape⟩ := measure_keeps layout d inside m.world.coins
      obtain ⟨grown, added, holds⟩ := buffer.add [if outcome then 49 else 48]
      exact ⟨true, ⟨t, grown, { m.world with coins := left }⟩, by simp [step, ran, added],
        ⟨_, holds⟩, fun _ => shape.live live⟩
  | cnot =>
      obtain ⟨layout, control⟩ := arrays (validated.1 operands.head.toNat (by simp [qubits]))
      obtain ⟨_, target⟩ := arrays (validated.1 operands.tail.head.toNat (by simp [qubits]))
      exact safe_of_keeps live buffer rfl
        (cnot_yields layout d (layout.column_lt control) (layout.column_lt target)).keeps rfl
  | paulix =>
      obtain ⟨layout, inside⟩ := arrays (validated.1 operands.head.toNat (by simp [qubits]))
      have keeps := hadamard_keeps layout d inside
        |>.thenPhase layout d inside |>.thenPhase layout d inside |>.thenHadamard layout d inside
      refine safe_of_keeps live buffer ?_ keeps rfl
      simp only [step, Option.bind_eq_bind, Option.bind_assoc, Option.pure_def]
  | pauliy =>
      obtain ⟨layout, inside⟩ := arrays (validated.1 operands.head.toNat (by simp [qubits]))
      have keeps := phase_keeps layout d inside
        |>.thenHadamard layout d inside |>.thenPhase layout d inside |>.thenPhase layout d inside
        |>.thenHadamard layout d inside |>.thenPhase layout d inside |>.thenPhase layout d inside
        |>.thenPhase layout d inside
      refine safe_of_keeps live buffer ?_ keeps rfl
      simp only [step, Option.bind_eq_bind, Option.bind_assoc, Option.pure_def]
  | pauliz =>
      obtain ⟨layout, inside⟩ := arrays (validated.1 operands.head.toNat (by simp [qubits]))
      have keeps := phase_keeps layout d inside |>.thenPhase layout d inside
      refine safe_of_keeps live buffer ?_ keeps rfl
      simp only [step, Option.bind_eq_bind, Option.bind_assoc, Option.pure_def]

end Step

-----------------------------------------------------------------------------------------
-- Runs
-----------------------------------------------------------------------------------------

/-- An admissible program runs to its end or to an instruction that fails. -/
theorem runInstructions_safe {n : Nat} {m : Machine} {written : List UInt8}
    (live : Live n m.state) (buffer : m.buffer.Holds written) {instructions : List Instruction}
    (admissible : Admissible n instructions) (d : Discipline)
    : ∃ ok next, runInstructions d instructions m = some (ok, next)
        ∧ (ok = true → Live (instructions.foldl qubitCount n) next.state) := by
  induction instructions generalizing n m written with
  | nil => exact ⟨true, m, rfl, fun _ => live⟩
  | cons instruction rest ih =>
      obtain ⟨validated, sizes, later⟩ := admissible
      obtain ⟨ok, next, ran, ⟨more, bufferN⟩, liveN⟩ := step_safe live buffer validated sizes d
      cases ok with
      | false => exact ⟨false, next, by simp [runInstructions, ran], fun ok => by cases ok⟩
      | true =>
          obtain ⟨ok, last, ranRest, liveL⟩ := ih (liveN rfl) bufferN later
          exact ⟨ok, last, by simp [runInstructions, ran, ranRest], liveL⟩

/-- Every instruction that an admissible program comes to execute respects the tableau. -/
theorem Executes.respects {instructions : List Instruction} {m m' : Machine} {i : Instruction}
    (executes : Executes instructions m m' i) {n : Nat} {written : List UInt8}
    (live : Live n m.state) (buffer : m.buffer.Holds written)
    (admissible : Admissible n instructions)
    (once : ReleasesOnce m.state.pointers m.world.grants instructions)
    : Respects m' i := by
  induction executes generalizing n written with
  | @here instruction rest m =>
      obtain ⟨validated, sizes, _⟩ := admissible
      obtain ⟨ok, next, ran, _⟩ := step_safe live buffer validated sizes .tableau
      cases ok with
      | false => exact Or.inl ⟨next, ran, once.fails ran⟩
      | true =>
          refine Or.inr ⟨⟨next, ran⟩, fun q member => ?_, validated.2⟩
          have below := validated.1 q member
          rw [(live (by omega)).2]
          exact below
  | @later instruction rest m next m' i ran _ ih =>
      obtain ⟨validated, sizes, rest⟩ := admissible
      obtain ⟨ok, next', ran', ⟨more, bufferN⟩, liveN⟩ :=
        step_safe live buffer validated sizes .allocated
      obtain ⟨rfl, rfl⟩ : true = ok ∧ next = next' := by simpa using ran.symm.trans ran'
      exact ih (liveN rfl) bufferN rest (once.goesOn ran)

theorem Stored.live {n : Nat} {s : ChpState} (stored : Stored n s) : Live n s := by
  induction stored with
  | fresh => exact fun positive => absurd rfl positive
  | @ran n s p instructions world ok m _ holds admissible _ ran ih =>
      obtain ⟨ok', m', ran', liveM⟩ := runInstructions_safe (m := ⟨s, .empty, world⟩) ih
        (ManagedContainer.empty_holds (by decide)) admissible .allocated
      rw [runProgram_eq .allocated holds, ran'] at ran
      obtain ⟨rfl, rfl⟩ : ok' = ok ∧ m' = m := by simpa using ran
      cases ok' with
      | false => exact fun positive => absurd rfl positive
      | true => exact liveM rfl

/-- On every state that admissible programs have left, an admissible program that is not refused
memory where an earlier refusal left its pointers stays inside the tableau: it comes to an end with
all its accesses inside the named rows, and every instruction that it executes respects the tableau.
-/
theorem admissible_run_respects {n : Nat} {s : ChpState} (stored : Stored n s) {p : Program}
    {instructions : List Instruction} (holds : p.instructions.Holds instructions)
    (admissible : Admissible n instructions) {world : World}
    (once : ReleasesOnce s.pointers world.grants instructions)
    : (∃ ok m, runProgram .tableau p ⟨s, .empty, world⟩ = some (ok, m))
      ∧ ∀ m i, Executes instructions ⟨s, .empty, world⟩ m i → Respects m i := by
  have buffer : (.empty : StringBuffer).Holds [] := ManagedContainer.empty_holds (by decide)
  constructor
  · obtain ⟨ok, m, ran, _⟩ :=
      runInstructions_safe (m := ⟨s, .empty, world⟩) stored.live buffer admissible .tableau
    exact ⟨ok, m, by rw [runProgram_eq .tableau holds, ran]⟩
  · intro m i executes
    exact executes.respects stored.live buffer admissible once

/-- A Bell pair on a fresh state. -/
theorem admissible_run_respects_bell
    : ∃ p : Program,
        p.instructions.Holds [⟨.initializeOp, .cons 2 .nil⟩, ⟨.hadamard, .cons 0 .nil⟩,
          ⟨.cnot, .cons 0 (.cons 1 .nil)⟩]
        ∧ (∃ ok m, runProgram .tableau p
            ⟨ChpState.fresh, .empty, ⟨.const true, .const (some 0)⟩⟩ = some (ok, m))
        ∧ ∀ m i, Executes [⟨.initializeOp, .cons 2 .nil⟩, ⟨.hadamard, .cons 0 .nil⟩,
            ⟨.cnot, .cons 0 (.cons 1 .nil)⟩]
            ⟨ChpState.fresh, .empty, ⟨.const true, .const (some 0)⟩⟩ m i → Respects m i := by
  obtain ⟨p, _, holds⟩ := Program.ofArray_holds [⟨.initializeOp, .cons 2 .nil⟩,
    ⟨.hadamard, .cons 0 .nil⟩, ⟨.cnot, .cons 0 (.cons 1 .nil)⟩]
  have admissible : Admissible 0 [⟨.initializeOp, .cons 2 .nil⟩, ⟨.hadamard, .cons 0 .nil⟩,
      ⟨.cnot, .cons 0 (.cons 1 .nil)⟩] := by
    refine ⟨⟨by simp [qubits], by simp [qubits]⟩, fun _ => by decide, ?_⟩
    refine ⟨⟨by decide, by decide⟩, fun h => (by cases h), ?_⟩
    exact ⟨⟨by decide, by decide⟩, fun h => (by cases h), trivial⟩
  refine ⟨p, holds, admissible_run_respects .fresh holds admissible ?_⟩
  exact fun renewed left refused => by cases refused

/-- `init 1`, `m 64` is accepted by the parser, and measures a qubit that the state does not
have, in a word that its rows do not have.
-/
theorem accepted_run_leaves_tableau
    : ¬∀ text after lineDelimiter p, parseProgram chpext (cString text after) lineDelimiter = .ok p
        → ∀ instructions, p.instructions.Holds instructions
        → ∀ n s, Stored n s
        → ∀ world m i, Executes instructions ⟨s, .empty, world⟩ m i → Respects m i := by
  intro claimed
  have delimits : Language.Delimits (ascii '\n') := ⟨by simp [ascii], by simp [isDigit, ascii]⟩
  obtain ⟨p, parsed, holds⟩ := parseProgram_of_assembly delimits [] (by simp)
    [⟨.initializeOp, .cons 1 .nil⟩, ⟨.measure, .cons 64 .nil⟩] false (by simp) []
  have small : 1 < 2 ^ 31 := by decide
  have granted : Granted (.const (some 0)) := fun _ _ => rfl
  obtain ⟨s, ran, sound, _⟩ := initState_refines small .allocated ChpState.fresh.pointers granted
  have executes : Executes [⟨.initializeOp, .cons 1 .nil⟩, ⟨.measure, .cons 64 .nil⟩]
      ⟨ChpState.fresh, .empty, ⟨.const true, .const (some 0)⟩⟩
      ⟨s, .empty, ⟨.const true, (Stream'.const (some 0)).drop 5⟩⟩ ⟨.measure, .cons 64 .nil⟩ := by
    refine .later ?_ .here
    have operand : (1 : UInt64).toNat = 1 := rfl
    simp [step, operand, ran]
  rcases claimed _ _ _ p parsed _ holds 0 _ .fresh _ _ _ executes with
    ⟨next, fails, _⟩ | ⟨_, validated⟩
  · simp [step, Option.bind_eq_some_iff] at fails
  · have below := validated.1 64 (by simp [qubits])
    rw [sound.qubits] at below
    exact absurd below (by decide)

end Sabot.State
