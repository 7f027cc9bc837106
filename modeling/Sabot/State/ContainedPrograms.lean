import Sabot.State.Containment

/-! Which programs stay inside the arrays of the state that they are run on: the number of qubits, the
pointers, the answers of the allocator and the program decide it.
-/

namespace Sabot.State

open ChpState
open Sabot.Language (Instruction)

-----------------------------------------------------------------------------------------
-- Stored states
-----------------------------------------------------------------------------------------

/-- An initialisation of `n` qubits got its arrays and came to its end. -/
structure Laid (n : Nat) : Prop where
  word : n < 2 ^ 64
  rows : 8 * rowCount n < 2 ^ 64
  chunk : 8 * chunkSize n < 2 ^ 64
  inside : InitInside n

/-- The arrays of a state: those of an initialisation, or none. -/
structure ChpState.Formed (s : ChpState) : Prop where
  uniform : s.extent.Uniform
  live : s.pointers = .live → s.extent = Extent.initial s.n ∧ Laid s.n
  gone : s.pointers ≠ .live → s.x.rows = 0

/-- Where the exact sizes do not fit in a word, some row starts behind the chunk. -/
theorem Laid.small {n : Nat} (laid : Laid n) (half : n < 2 ^ 63) : n < 2 ^ 34 := by
  by_contra large
  have rows : rowCount n = 2 * n + 1 := Nat.mod_eq_of_lt (by omega)
  have cells : 2 ^ 64 ≤ (2 * n + 1) * (n / 32 + 1) :=
    not_lt.mp (fun fits => large ((cells_lt_iff n).mp fits))
  -- The last row that starts before the wrap.
  have start := Nat.div_add_mod (2 ^ 64 - 1) (n / 32 + 1)
  have offset : (2 ^ 64 - 1) % (n / 32 + 1) < n / 32 + 1 := Nat.mod_lt _ (Nat.succ_pos _)
  rw [Nat.mul_comm] at start
  generalize (2 ^ 64 - 1) / (n / 32 + 1) = i at start
  generalize (2 ^ 64 - 1) % (n / 32 + 1) = remainder at start offset
  have within : i < rowCount n := by
    rw [rows]
    by_contra past
    have := Nat.mul_le_mul_right (n / 32 + 1) (not_lt.mp past)
    omega
  have covers := laid.inside i within
  have chunk := laid.chunk
  have bounded := laid.rows
  rw [InChunk, wrap, Nat.mod_eq_of_lt (by omega)] at covers
  generalize i * (n / 32 + 1) = first at start covers
  omega

/-- Copying a row writes its phase. -/
theorem rowcopy_row {e : Extent} (uniform : e.Uniform) {s t : ChpState} (has : HasExtent e s)
    {dest source : Nat} (ran : rowcopy .allocated dest source s = some t)
    : dest < e.x.rows := by
  obtain ⟨u, words, later⟩ := Option.bind_eq_some_iff.mp ran
  obtain ⟨r, _, written⟩ := Option.bind_eq_some_iff.mp later
  have hasU : HasExtent e u := by
    refine ensures_forRange (fun w v hasV => ?_) _ has u words
    exact ensures_read fun _ => (setX_extent .allocated hasV dest w _).bind fun _ hasV =>
      ensures_read fun _ => setZ_extent .allocated hasV dest w _
  exact (setR_iff uniform hasU r).mp ⟨t, written⟩

/-- Both branches of a measurement copy a row. -/
theorem measure_row {s : ChpState} (uniform : s.extent.Uniform) {q : Nat} {coins : Stream' Bool}
    {result : Bool × ChpState × Stream' Bool}
    (ran : measure .allocated q coins s = some result)
    : 0 < s.x.rows := by
  obtain ⟨p, _, later⟩ := Option.bind_eq_some_iff.mp ran
  have copies : ∃ dest source t, rowcopy .allocated dest source s = some t := by
    by_cases pivot : p < s.n
    · rw [if_pos pivot] at later
      obtain ⟨_, random, _⟩ := Option.bind_eq_some_iff.mp later
      obtain ⟨t, copied, _⟩ := Option.bind_eq_some_iff.mp random
      exact ⟨_, _, t, copied⟩
    · rw [if_neg pivot] at later
      obtain ⟨_, determined, _⟩ := Option.bind_eq_some_iff.mp later
      obtain ⟨m, _, rest⟩ := Option.bind_eq_some_iff.mp determined
      obtain ⟨t, copied, _⟩ := Option.bind_eq_some_iff.mp rest
      exact ⟨_, _, t, copied⟩
  obtain ⟨dest, source, t, copied⟩ := copies
  exact lt_of_le_of_lt (Nat.zero_le dest) (rowcopy_row uniform rfl copied)

/-- The random branch looks at the qubit in every row but the pivot. -/
theorem measureRandom_reads {n q p i : Nat} {s : ChpState} (has : HasExtent (Extent.initial n) s)
    {coin : Bool} {result : Bool × ChpState}
    (ran : measureRandom .allocated q p coin s = some result)
    (below : i < wrap (2 * n)) (other : i ≠ p)
    : (Extent.initial n).Admits i (q / 32) := by
  have count : s.n = n := HasExtent.n_eq has
  obtain ⟨t, copied, ran⟩ := Option.bind_eq_some_iff.mp ran
  have has := rowcopy_extent .allocated has _ _ t copied
  obtain ⟨t, set, ran⟩ := Option.bind_eq_some_iff.mp ran
  have has := rowset_extent .allocated has _ _ t set
  obtain ⟨t, drawn, ran⟩ := Option.bind_eq_some_iff.mp ran
  have has := setR_extent has _ _ t drawn
  obtain ⟨t, absorbed, _⟩ := Option.bind_eq_some_iff.mp ran
  obtain ⟨u, v, round, hasU⟩ := (forRange_round (HasExtent (Extent.initial n))
    (fun k u v round hasU => by
      split at round
      · exact ensures_read (fun _ => ensures_onlyIf _ hasU
          (rowmult_extent .allocated hasU k _)) v round
      · exact ensures_some hasU v round) absorbed has).2 i (by rwa [count])
  rw [if_pos other] at round
  obtain ⟨bit, read, _⟩ := Option.bind_eq_some_iff.mp round
  exact (bitX_iff hasU).mp ⟨bit, read⟩

section Measurement

variable {s : ChpState} {q : Nat} {coins : Stream' Bool} {result : Bool × ChpState × Stream' Bool}
  (ran : measure .allocated q coins s = some result)
include ran

/-- The search for a pivot looks at the first stabilizer. With sizes that wrap there is none. -/
theorem measure_small (has : s.extent = Extent.initial s.n) (laid : Laid s.n) : s.n < 2 ^ 34 := by
  obtain ⟨p, searched, _⟩ := Option.bind_eq_some_iff.mp ran
  by_contra large
  have half : 2 ^ 63 ≤ s.n := not_lt.mp (fun half => large (laid.small half))
  have read := search_reads searched le_rfl (by omega) (Nat.zero_le p)
  have row := ((bitX_iff has).mp read).1
  change wrap (0 + s.n) < rowCount s.n at row
  have word := laid.word
  simp only [wrap, rowCount] at row
  omega

/-- With a pivot or without, the qubit is looked at in the last of the stabilizers. -/
theorem measure_last (has : s.extent = Extent.initial s.n) (small : s.n < 2 ^ 34) (positive : s.n ≠ 0)
    : (Extent.initial s.n).Admits (2 * s.n - 1) (q / 32) := by
  obtain ⟨p, searched, later⟩ := Option.bind_eq_some_iff.mp ran
  have wrapN : wrap (2 * s.n) = 2 * s.n := Nat.mod_eq_of_lt (by omega)
  by_cases pivot : p < s.n
  · rw [if_pos pivot] at later
    obtain ⟨_, random, _⟩ := Option.bind_eq_some_iff.mp later
    exact measureRandom_reads has random (by rw [wrapN]; omega) (by omega)
  · have read := search_reads searched (k := s.n - 1) (by omega) (by omega) (by omega)
    have row : wrap (s.n - 1 + s.n) = 2 * s.n - 1 := by
      rw [wrap, Nat.mod_eq_of_lt (by omega)]
      omega
    rw [row] at read
    exact (bitX_iff has).mp read

end Measurement

/-- A measurement stays inside the arrays exactly when they are there, their sizes do not wrap, and
the word of the qubit lies in the chunks.
-/
theorem ChpState.Formed.measure_iff {s : ChpState} (formed : s.Formed) {q : Nat}
    {coins : Stream' Bool}
    : (∃ result, measure .allocated q coins s = some result)
      ↔ GateInside s.n s.pointers q ∧ s.pointers = .live ∧ s.n < 2 ^ 34 := by
  constructor
  · rintro ⟨result, ran⟩
    have live : s.pointers = .live := by
      by_contra gone
      have row := measure_row formed.uniform ran
      rw [formed.gone gone] at row
      exact lt_irrefl 0 row
    obtain ⟨has, laid⟩ := formed.live live
    have small := measure_small ran has laid
    refine ⟨?_, live, small⟩
    rw [live]
    refine (gateInside_iff small).mpr ((eq_or_ne s.n 0).imp_right (fun positive => ⟨rfl, ?_⟩))
    exact (inChunk_last_iff small positive).mp (measure_last ran has small positive).2
  · rintro ⟨inside, live, small⟩
    rw [live] at inside
    exact measure_succeeds small (formed.live live).1 inside coins

theorem ChpState.Formed.fresh : ChpState.fresh.Formed :=
  ⟨⟨rfl, rfl⟩, (fun live => nomatch live), fun _ => rfl⟩

/-- Only the arrays count, not what the cells hold. -/
theorem ChpState.Formed.of_extent {s t : ChpState} (formed : s.Formed) (same : t.extent = s.extent)
    : t.Formed where
  uniform := same ▸ formed.uniform
  live live := by
    have pointers : t.pointers = s.pointers := congrArg Extent.pointers same
    have count : t.n = s.n := congrArg Extent.n same
    rw [count, same]
    exact formed.live (pointers.symm.trans live)
  gone gone := by
    have pointers : t.pointers = s.pointers := congrArg Extent.pointers same
    have rows : t.x.rows = s.x.rows := congrArg (fun e => e.x.rows) same
    rw [rows]
    exact formed.gone (fun live => gone (pointers.trans live))

/-- A gate on a state stays inside the arrays exactly when the word of the qubit is there in all rows
that it changes.
-/
theorem ChpState.Formed.admitsGate_iff {s : ChpState} (formed : s.Formed) {q : Nat}
    : s.extent.AdmitsGate q ↔ GateInside s.n s.pointers q := by
  by_cases live : s.pointers = .live
  · rw [(formed.live live).1, live]
    exact admitsGate_initial
  · have rows : s.extent.x.rows = 0 := formed.gone live
    constructor
    · intro admits i below
      have row := (admits i below).1
      rw [rows] at row
      exact absurd row (Nat.not_lt_zero i)
    · exact fun inside i below => absurd (inside i below).1 live

-----------------------------------------------------------------------------------------
-- One instruction
-----------------------------------------------------------------------------------------

section Step

variable {m : Machine} (formed : m.state.Formed)
include formed

/-- An instruction other than an initialisation comes to an end exactly when it stays inside the
arrays.
-/
theorem step_iff {instruction : Instruction} (other : instruction.bytecode ≠ .initializeOp)
    (buffer : ∃ written, m.buffer.Holds written)
    : (∃ result, step .allocated m instruction = some result)
      ↔ Inside m.state.n m.state.pointers instruction := by
  have uniform := formed.uniform
  have keeps : HasExtent m.state.extent m.state := rfl
  obtain ⟨bytecode, operands⟩ := instruction
  have gates (noMeasure : bytecode ≠ .measure)
      : (∀ q ∈ qubits ⟨bytecode, operands⟩, m.state.extent.AdmitsGate q)
        ↔ Inside m.state.n m.state.pointers ⟨bytecode, operands⟩ := by
    simp only [formed.admitsGate_iff, Inside, noMeasure, false_implies, and_true]
  cases bytecode with
  | macroOp => exact iff_of_true ⟨_, rfl⟩ ((gates nofun).mp (by simp [qubits]))
  | initializeOp => exact absurd rfl other
  | identity => exact iff_of_true ⟨_, rfl⟩ ((gates nofun).mp (by simp [qubits]))
  | hadamard =>
      rw [← gates nofun, qubits, List.forall_mem_singleton]
      exact first_iff (hadamard_iff uniform keeps) fun admits =>
        (hadamard_succeeds uniform keeps admits).bind fun _ _ => succeeds_some _
  | phase =>
      rw [← gates nofun, qubits, List.forall_mem_singleton]
      exact first_iff (phase_iff uniform keeps) fun admits =>
        (phase_succeeds uniform keeps admits).bind fun _ _ => succeeds_some _
  | measure =>
      have inside : Inside m.state.n m.state.pointers ⟨.measure, operands⟩
          ↔ GateInside m.state.n m.state.pointers operands.head.toNat
            ∧ m.state.pointers = .live ∧ m.state.n < 2 ^ 34 := by
        simp [Inside, qubits]
      rw [inside]
      obtain ⟨written, fits⟩ := buffer
      have writes (outcome : Bool) : ∃ b, m.buffer.add [if outcome then 49 else 48] = some b := by
        obtain ⟨grown, added, _⟩ := fits.add [if outcome then 49 else 48]
        exact ⟨grown, added⟩
      exact first_iff formed.measure_iff fun holds =>
        succeeds_read (formed.measure_iff.mpr holds) fun result =>
        succeeds_read (writes result.1) fun _ => succeeds_some _
  | cnot =>
      rw [← gates nofun, qubits]
      simp only [List.forall_mem_cons, List.not_mem_nil, false_implies, implies_true, and_true]
      exact first_iff (cnot_iff uniform keeps) fun admits =>
        (succeeds_of_ensures ((cnot_iff uniform keeps).mpr admits)
          (cnot_extent .allocated keeps _ _)).bind fun _ _ => succeeds_some _
  | paulix =>
      rw [← gates nofun, qubits, List.forall_mem_singleton]
      exact first_iff (hadamard_iff uniform keeps) fun admits =>
        (hadamard_succeeds uniform keeps admits).bind fun _ has =>
        (phase_succeeds uniform has admits).bind fun _ has =>
        (phase_succeeds uniform has admits).bind fun _ has =>
        (hadamard_succeeds uniform has admits).bind fun _ _ => succeeds_some _
  | pauliy =>
      rw [← gates nofun, qubits, List.forall_mem_singleton]
      exact first_iff (phase_iff uniform keeps) fun admits =>
        (phase_succeeds uniform keeps admits).bind fun _ has =>
        (hadamard_succeeds uniform has admits).bind fun _ has =>
        (phase_succeeds uniform has admits).bind fun _ has =>
        (phase_succeeds uniform has admits).bind fun _ has =>
        (hadamard_succeeds uniform has admits).bind fun _ has =>
        (phase_succeeds uniform has admits).bind fun _ has =>
        (phase_succeeds uniform has admits).bind fun _ has =>
        (phase_succeeds uniform has admits).bind fun _ _ => succeeds_some _
  | pauliz =>
      rw [← gates nofun, qubits, List.forall_mem_singleton]
      exact first_iff (phase_iff uniform keeps) fun admits =>
        (phase_succeeds uniform keeps admits).bind fun _ has =>
        (phase_succeeds uniform has admits).bind fun _ _ => succeeds_some _

omit formed in
/-- The buffer stays one that characters can be added to. -/
theorem step_buffer {d : Discipline} {instruction : Instruction}
    (buffer : ∃ written, m.buffer.Holds written)
    : Ensures (step d m instruction) (fun result => ∃ written, result.2.buffer.Holds written) := by
  obtain ⟨bytecode, operands⟩ := instruction
  cases bytecode with
  | macroOp => exact ensures_some buffer
  | identity => exact ensures_some buffer
  | measure =>
      obtain ⟨written, fits⟩ := buffer
      refine ensures_read fun result => Ensures.bind (fun grown added => ?_)
        fun _ holds => ensures_some holds
      obtain ⟨same, ran, holds⟩ := fits.add [if result.1 then 49 else 48]
      cases ran.symm.trans added
      exact ⟨_, holds⟩
  | initializeOp => exact ensures_read fun _ => ensures_some buffer
  | hadamard => exact ensures_read fun _ => ensures_some buffer
  | phase => exact ensures_read fun _ => ensures_some buffer
  | cnot => exact ensures_read fun _ => ensures_some buffer
  | paulix =>
      exact ensures_read fun _ => ensures_read fun _ => ensures_read fun _ => ensures_read fun _ =>
        ensures_some buffer
  | pauliy =>
      exact ensures_read fun _ => ensures_read fun _ => ensures_read fun _ => ensures_read fun _ =>
        ensures_read fun _ => ensures_read fun _ => ensures_read fun _ => ensures_read fun _ =>
        ensures_some buffer
  | pauliz => exact ensures_read fun _ => ensures_read fun _ => ensures_some buffer

end Step

section Initialisation

/-- Arrays that are granted have representable sizes. -/
theorem allocateArrays_fits {rows chunk : Nat} {grants left : Stream' (Option Int)} {leftover : Int}
    (granted : allocateArrays rows chunk grants = (.ok leftover, left))
    : 8 * rows < 2 ^ 64 ∧ 8 * chunk < 2 ^ 64 := by
  have refused {count : Nat} (large : ¬ 8 * count < 2 ^ 64) (grants : Stream' (Option Int))
      : allocate count grants = (none, grants) :=
    if_neg large
  constructor
  · by_contra large
    simp [allocateArrays, refused large] at granted
  · by_contra large
    simp only [allocateArrays, refused large] at granted
    split at granted
    · simp at granted
    · split at granted
      · simp at granted
      · split at granted <;> simp at granted

variable {n : Nat} {pointers : Pointers} {grants left : Stream' (Option Int)}

theorem initRow_iff {i : Nat} {s : ChpState} (has : HasExtent (Extent.initial n) s)
    (row : i < rowCount n)
    : (∃ t, initRow .allocated i s = some t) ↔ InChunk n i ((if i < n then i else i - n) / 32) := by
  have count : s.n = n := HasExtent.n_eq has
  have admits (w : Nat) : (Extent.initial n).Admits i w ↔ InChunk n i w := and_iff_right row
  rw [initRow, count]
  split
  · exact (setX_iff has _).trans (admits _)
  · exact (setZ_iff (Extent.initial_uniform n) has _).trans (admits _)

/-- An initialisation that gets its arrays comes to an end exactly when the words that it sets lie in
them.
-/
theorem initState_iff (pointers : Pointers) {leftover : Int}
    (granted : allocateArrays (rowCount n) (chunkSize n) grants = (.ok leftover, left))
    : (∃ result, initState .allocated pointers n grants = some result) ↔ InitInside n := by
  have cleared : HasExtent (Extent.initial n) (clearedState n leftover) := rfl
  have loop := forRange_iff (rowCount n) (fun i t has => initRow_extent .allocated i has)
    (fun i below t has => initRow_iff has below) cleared
  rw [InitInside, ← loop, initState, ← rowCount, ← chunkSize, granted]
  constructor
  · rintro ⟨result, ran⟩
    obtain ⟨t, ran, _⟩ := Option.bind_eq_some_iff.mp ran
    exact ⟨t, ran⟩
  · rintro ⟨t, ran⟩
    exact ⟨(true, t, left), Option.bind_eq_some_iff.mpr ⟨t, ran, rfl⟩⟩

theorem initState_formed {s : ChpState} (word : n < 2 ^ 64)
    (ran : initState .allocated pointers n grants = some (true, s, left))
    : s.Formed := by
  obtain ⟨extent, leftover, granted⟩ := initState_granted ran
  have count : s.n = n := congrArg Extent.n extent
  obtain ⟨rows, chunk⟩ := allocateArrays_fits granted
  refine ⟨?_, fun _ => ?_, fun gone => ?_⟩
  · rw [extent]
    exact Extent.initial_uniform n
  · rw [extent, count]
    exact ⟨rfl, word, rows, chunk, (initState_iff pointers granted).mp ⟨_, ran⟩⟩
  · exact absurd (congrArg Extent.pointers extent : s.pointers = .live) gone

theorem initState_refused_formed {s : ChpState}
    (ran : initState .allocated pointers n grants = some (false, s, left))
    : s.Formed := by
  rw [initState] at ran
  split at ran
  · obtain ⟨t, loop, same⟩ := Option.bind_eq_some_iff.mp ran
    cases same
  · cases ran
    refine ⟨⟨rfl, rfl⟩, fun live => ?_, fun _ => rfl⟩
    have never {renewed : Nat} : pointers.release renewed ≠ .live := by
      intro renews
      cases pointers with
      | live => cases renews
      | stale count =>
          rw [Pointers.release] at renews
          split at renews <;> cases renews
      | freedTwice => cases renews
    exact absurd live never

end Initialisation

/-- Instructions keep the arrays those of an initialisation, or none. -/
theorem step_formed {m next : Machine} (formed : m.state.Formed) {instruction : Instruction}
    {ok : Bool} (ran : step .allocated m instruction = some (ok, next))
    : next.state.Formed := by
  by_cases initializes : instruction.bytecode = .initializeOp
  · obtain ⟨bytecode, operands⟩ := instruction
    obtain rfl : bytecode = .initializeOp := initializes
    obtain ⟨⟨went, s, left⟩, init, same⟩ := Option.bind_eq_some_iff.mp ran
    cases same
    cases ok with
    | true => exact initState_formed operands.head.toNat_lt init
    | false => exact initState_refused_formed init
  · exact formed.of_extent (step_extent .allocated m initializes _ ran).2.1

-----------------------------------------------------------------------------------------
-- Programs
-----------------------------------------------------------------------------------------

/-- What a program needs to stay inside the arrays, from `n` qubits and these pointers on and with
these answers of the allocator, and to end as demanded: with success or without, and with which
pointers.
-/
def Runs (ends : Bool → Pointers → Prop)
    : Nat → Pointers → Stream' (Option Int) → List Instruction → Prop
  | _, pointers, _, [] => ends true pointers
  | n, pointers, grants, instruction :: rest =>
      match instruction with
      | ⟨.initializeOp, operands⟩ =>
          let n := operands.head.toNat
          match allocateArrays (rowCount n) (chunkSize n) grants with
          | (.ok _, left) => InitInside n ∧ Runs ends n .live left rest
          | (.error renewed, _) => ends false (pointers.release renewed)
      | other => Inside n pointers other ∧ Runs ends n pointers grants rest

section Programs

variable {ends : Bool → Pointers → Prop} {m : Machine} {instructions : List Instruction}

/-- The program runs to an end as demanded. -/
def Reaches (ends : Bool → Pointers → Prop) (instructions : List Instruction) (m : Machine)
    : Prop :=
  ∃ ok next, runInstructions .allocated instructions m = some (ok, next)
    ∧ ends ok next.state.pointers

variable {instruction : Instruction} {next : Machine}

theorem reaches_none (leaves : step .allocated m instruction = none)
    : ¬ Reaches ends (instruction :: instructions) m := by
  rintro ⟨ok, next, ran, _⟩
  simp [runInstructions, leaves] at ran

theorem reaches_true (ran : step .allocated m instruction = some (true, next))
    : Reaches ends (instruction :: instructions) m ↔ Reaches ends instructions next := by
  simp [Reaches, runInstructions, ran]

theorem reaches_false (ran : step .allocated m instruction = some (false, next))
    : Reaches ends (instruction :: instructions) m ↔ ends false next.state.pointers := by
  simp [Reaches, runInstructions, ran]

theorem runs_other {n : Nat} {pointers : Pointers} {grants : Stream' (Option Int)}
    (other : instruction.bytecode ≠ .initializeOp)
    : Runs ends n pointers grants (instruction :: instructions)
      ↔ Inside n pointers instruction ∧ Runs ends n pointers grants instructions := by
  obtain ⟨bytecode, operands⟩ := instruction
  cases bytecode <;> first | exact absurd rfl other | rfl

section Head

variable (later : ∀ next, step .allocated m instruction = some (true, next)
  → (Runs ends next.state.n next.state.pointers next.world.grants instructions
    ↔ Reaches ends instructions next))
include later

/-- A program that starts with an initialisation goes by the answers of the allocator. -/
theorem runs_init_iff (initializes : instruction.bytecode = .initializeOp)
    : Runs ends m.state.n m.state.pointers m.world.grants (instruction :: instructions)
      ↔ Reaches ends (instruction :: instructions) m := by
  obtain ⟨bytecode, operands⟩ := instruction
  obtain rfl : bytecode = .initializeOp := initializes
  obtain ⟨content, left, answers⟩ : ∃ content left, allocateArrays
      (rowCount operands.head.toNat) (chunkSize operands.head.toNat) m.world.grants
        = (content, left) :=
    ⟨_, _, rfl⟩
  cases ran : initState .allocated m.state.pointers operands.head.toNat m.world.grants with
  | none =>
      have leaves : step .allocated m ⟨.initializeOp, operands⟩ = none := by
        simp [step, ran]
      refine iff_of_false (fun runs => ?_) (reaches_none leaves)
      cases content with
      | ok leftover =>
          rw [Runs, answers, ← initState_iff m.state.pointers answers, ran] at runs
          simp at runs
      | error renewed =>
          rw [initState, ← rowCount, ← chunkSize, answers] at ran
          cases ran
  | some result =>
      obtain ⟨ok, s, remaining⟩ := result
      have stepped : step .allocated m ⟨.initializeOp, operands⟩ = some (ok, _) :=
        Option.bind_eq_some_iff.mpr ⟨_, ran, rfl⟩
      cases ok with
      | true =>
          obtain ⟨extent, leftover, granted⟩ := initState_granted ran
          cases answers.symm.trans granted
          have inside := (initState_iff m.state.pointers answers).mp ⟨_, ran⟩
          have count : s.n = operands.head.toNat := congrArg Extent.n extent
          have live : s.pointers = .live := congrArg Extent.pointers extent
          rw [Runs, answers, reaches_true stepped, ← later _ stepped, count, live]
          exact and_iff_right inside
      | false =>
          obtain ⟨renewed, refused, released⟩ := initState_refused_pointers ran
          cases answers.symm.trans refused
          rw [Runs, answers, reaches_false stepped, released]

/-- A program that starts otherwise goes by the arrays that are there. -/
theorem runs_other_iff (formed : m.state.Formed) (other : instruction.bytecode ≠ .initializeOp)
    (buffer : ∃ written, m.buffer.Holds written)
    : Runs ends m.state.n m.state.pointers m.world.grants (instruction :: instructions)
      ↔ Reaches ends (instruction :: instructions) m := by
  rw [runs_other other]
  cases ran : step .allocated m instruction with
  | none =>
      have outside : ¬ Inside m.state.n m.state.pointers instruction := by
        rw [← step_iff formed other buffer, ran]
        simp
      exact iff_of_false (fun runs => outside runs.1) (reaches_none ran)
  | some result =>
      have inside := (step_iff formed other buffer).mp ⟨result, ran⟩
      obtain ⟨ok, next⟩ := result
      obtain ⟨rfl, same, grants⟩ := step_extent .allocated m other _ ran
      have count : next.state.n = m.state.n := congrArg Extent.n same
      have pointers : next.state.pointers = m.state.pointers := congrArg Extent.pointers same
      rw [reaches_true ran, ← later next ran, count, pointers, grants]
      exact and_iff_right inside

end Head

/-- On a state as a program may leave it, a program runs to an end as demanded exactly when it stays
inside the arrays and the allocator's answers and the pointers lead there.
-/
theorem runs_iff (formed : m.state.Formed) (buffer : ∃ written, m.buffer.Holds written)
    : Runs ends m.state.n m.state.pointers m.world.grants instructions
      ↔ Reaches ends instructions m := by
  induction instructions generalizing m with
  | nil => simp [Runs, Reaches, runInstructions]
  | cons instruction rest ih =>
      have later (next : Machine) (ran : step .allocated m instruction = some (true, next)) :=
        ih (step_formed formed ran) (step_buffer buffer _ ran)
      by_cases initializes : instruction.bytecode = .initializeOp
      · exact runs_init_iff later initializes
      · exact runs_other_iff later formed initializes buffer

end Programs

/-- A program keeps the arrays those of an initialisation, or none. -/
theorem runProgram_formed {program : Language.Program} {m next : Machine} (formed : m.state.Formed)
    {ok : Bool} (ran : runProgram .allocated program m = some (ok, next))
    : next.state.Formed := by
  have loop (count t : Nat) (m : Machine) (formed : m.state.Formed)
      (ran : runFrom .allocated program count t m = some (ok, next))
      : next.state.Formed := by
    induction count generalizing t m with
    | zero =>
        cases ran
        exact formed
    | succ count ih =>
        obtain ⟨instruction, _, ran⟩ := Option.bind_eq_some_iff.mp ran
        obtain ⟨⟨went, middle⟩, first, later⟩ := Option.bind_eq_some_iff.mp ran
        have stays := step_formed formed first
        cases went with
        | true => exact ih _ middle stays later
        | false =>
            cases later
            exact stays
  exact loop _ _ m formed ran

/-- The instructions of the program, run on the state, come to an end as demanded. -/
def ProgramRuns (ends : Bool → Pointers → Prop) (program : Language.Program) (state : ChpState)
    (grants : Stream' (Option Int)) : Prop :=
  ∃ instructions, program.instructions.Holds instructions
    ∧ Runs ends state.n state.pointers grants instructions

theorem programRuns_iff {ends : Bool → Pointers → Prop} {program : Language.Program}
    {state : ChpState} {world : World} (formed : state.Formed)
    (holds : ∃ instructions, program.instructions.Holds instructions)
    : ProgramRuns ends program state world.grants
      ↔ ∃ ok m, runProgram .allocated program ⟨state, .empty, world⟩ = some (ok, m)
          ∧ ends ok m.state.pointers := by
  have buffer : ∃ written, (.empty : StringBuffer).Holds written :=
    ⟨[], ManagedContainer.empty_holds (by decide)⟩
  have runs {instructions : List Instruction} (holds : program.instructions.Holds instructions)
      : Runs ends state.n state.pointers world.grants instructions
        ↔ ∃ ok m, runProgram .allocated program ⟨state, .empty, world⟩ = some (ok, m)
            ∧ ends ok m.state.pointers := by
    rw [runProgram_eq .allocated holds]
    exact runs_iff (m := ⟨state, .empty, world⟩) formed buffer
  constructor
  · rintro ⟨instructions, holds, reaches⟩
    exact (runs holds).mp reaches
  · intro reaches
    obtain ⟨instructions, holds⟩ := holds
    exact ⟨instructions, holds, (runs holds).mpr reaches⟩

end Sabot.State
