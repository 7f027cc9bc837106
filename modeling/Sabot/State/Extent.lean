import Sabot.State.InitialSizes

/-! The arrays of a state and what they are: which computations keep them, and which an
initialisation leaves.
-/

namespace Sabot.State

open Sabot.Language (Instruction Program)

/-- A matrix without the contents of its cells. -/
structure MatrixExtent where
  rows : Nat
  over32 : Nat
  chunk : Nat

def Matrix.extent (m : Matrix) : MatrixExtent := ⟨m.rows, m.over32, m.chunk.size⟩

/-- A state without the contents of its cells. -/
structure Extent where
  n : Nat
  over32 : Nat
  pointers : Pointers
  x : MatrixExtent
  z : MatrixExtent
  r : Nat

def ChpState.extent (s : ChpState) : Extent :=
  ⟨s.n, s.over32, s.pointers, s.x.extent, s.z.extent, s.r.size⟩

-----------------------------------------------------------------------------------------
-- Computations that keep the arrays
-----------------------------------------------------------------------------------------

/-- What a computation returns, if it returns, is as stated. -/
def Ensures {α : Type} (result : Option α) (post : α → Prop) : Prop :=
  ∀ a, result = some a → post a

section Ensures

variable {α β : Type}

theorem ensures_some {a : α} {post : α → Prop} (holds : post a) : Ensures (some a) post := by
  rintro _ ⟨⟩
  exact holds

theorem Ensures.bind {x : Option α} {f : α → Option β} {middle : α → Prop} {post : β → Prop}
    (first : Ensures x middle) (later : ∀ a, middle a → Ensures (f a) post)
    : Ensures (x >>= f) post := by
  intro b ran
  obtain ⟨a, ranFirst, ranLater⟩ := Option.bind_eq_some_iff.mp ran
  exact later a (first a ranFirst) b ranLater

/-- What is only read says nothing. -/
theorem ensures_read {x : Option α} {f : α → Option β} {post : β → Prop}
    (later : ∀ a, Ensures (f a) post)
    : Ensures (x >>= f) post :=
  Ensures.bind (fun _ _ => trivial) (fun a (_ : True) => later a)

theorem ensures_forRange {body : Nat → α → Option α} {P : α → Prop}
    (round : ∀ k s, P s → Ensures (body k s) P) (count : Nat) {s : α} (start : P s)
    : Ensures (forRange count body s) P :=
  fun _ ran => (forRange_round P (fun k s t last holds => round k s holds t last) ran start).1

theorem ensures_onlyIf {body : α → Option α} {P : α → Prop} (condition : Bool) {s : α}
    (start : P s) (runs : Ensures (body s) P)
    : Ensures (onlyIf condition body s) P := by
  cases condition with
  | false => exact ensures_some start
  | true => exact runs

end Ensures

/-- The state has arrays of the given sizes. -/
def HasExtent (e : Extent) (s : ChpState) : Prop := s.extent = e

section Extents

open ChpState

variable {e : Extent} {s : ChpState} (d : Discipline) (has : HasExtent e s)
include has

theorem setX_extent (i w : Nat) (value : Word) : Ensures (s.setX d i w value) (HasExtent e) := by
  intro t ran
  rw [setX] at ran
  split at ran
  · cases ran
    exact has
  · cases ran

theorem setZ_extent (i w : Nat) (value : Word) : Ensures (s.setZ d i w value) (HasExtent e) := by
  intro t ran
  rw [setZ] at ran
  split at ran
  · cases ran
    exact has
  · cases ran

theorem setR_extent (i : Nat) (value : Int) : Ensures (s.setR i value) (HasExtent e) := by
  intro t ran
  rw [setR] at ran
  split at ran
  · cases ran
    exact has
  · cases ran

theorem negate_extent (i : Nat) : Ensures (s.negate i) (HasExtent e) :=
  ensures_read fun _ => setR_extent has i _

theorem cnotRow_extent (control target i : Nat)
    : Ensures (cnotRow d control target i s) (HasExtent e) :=
  ensures_read fun xc =>
  (ensures_onlyIf xc has (ensures_read fun _ => setX_extent d has i _ _)).bind fun _ has =>
  ensures_read fun zt =>
  (ensures_onlyIf zt has (ensures_read fun _ => setZ_extent d has i _ _)).bind fun _ has =>
  ensures_read fun _ => ensures_read fun _ => ensures_read fun _ => ensures_read fun _ =>
  (ensures_onlyIf _ has (negate_extent has i)).bind fun _ has =>
  ensures_onlyIf _ has (negate_extent has i)

theorem hadamardRow_extent (q i : Nat) : Ensures (hadamardRow d q i s) (HasExtent e) :=
  ensures_read fun _ => ensures_read fun _ =>
  (setX_extent d has i _ _).bind fun _ has =>
  (setZ_extent d has i _ _).bind fun _ has =>
  ensures_read fun _ => ensures_read fun _ =>
  ensures_onlyIf _ has (negate_extent has i)

theorem phaseRow_extent (q i : Nat) : Ensures (phaseRow d q i s) (HasExtent e) :=
  ensures_read fun _ => ensures_read fun _ =>
  (ensures_onlyIf _ has (negate_extent has i)).bind fun _ has =>
  ensures_read fun _ => ensures_read fun _ => setZ_extent d has i _ _

theorem cnot_extent (control target : Nat)
    : Ensures (cnot d control target s) (HasExtent e) :=
  ensures_forRange (fun i _ has => cnotRow_extent d has control target i) _ has

theorem hadamard_extent (q : Nat) : Ensures (hadamard d q s) (HasExtent e) :=
  ensures_forRange (fun i _ has => hadamardRow_extent d has q i) _ has

theorem phase_extent (q : Nat) : Ensures (phase d q s) (HasExtent e) :=
  ensures_forRange (fun i _ has => phaseRow_extent d has q i) _ has

theorem rowcopy_extent (dest source : Nat) : Ensures (rowcopy d dest source s) (HasExtent e) :=
  (ensures_forRange (fun _ _ has =>
    ensures_read fun _ => (setX_extent d has dest _ _).bind fun _ has =>
    ensures_read fun _ => setZ_extent d has dest _ _) _ has).bind fun _ has =>
  ensures_read fun _ => setR_extent has dest _

theorem rowset_extent (row observable : Nat)
    : Ensures (rowset d row observable s) (HasExtent e) :=
  (ensures_forRange (fun _ _ has =>
    (setX_extent d has row _ _).bind fun _ has => setZ_extent d has row _ _) _ has).bind
  fun _ has => (setR_extent has row 0).bind fun s has => by
    by_cases isX : observable < s.n
    · simpa only [if_pos isX] using setX_extent d has row _ _
    · simpa only [if_neg isX] using setZ_extent d has row _ _

theorem rowmult_extent (a b : Nat) : Ensures (rowmult d a b s) (HasExtent e) :=
  ensures_read fun _ => (setR_extent has a _).bind fun _ has =>
  ensures_forRange (fun _ _ has =>
    ensures_read fun _ => ensures_read fun _ => (setX_extent d has a _ _).bind fun _ has =>
    ensures_read fun _ => ensures_read fun _ => setZ_extent d has a _ _) _ has

theorem measureRandom_extent (q a : Nat) (coin : Bool)
    : Ensures (measureRandom d q a coin s) (fun result => HasExtent e result.2) :=
  (rowcopy_extent d has a _).bind fun _ has =>
  (rowset_extent d has _ _).bind fun _ has =>
  (setR_extent has _ _).bind fun _ has =>
  (ensures_forRange (fun i _ has => by
    split
    · exact ensures_read fun _ => ensures_onlyIf _ has (rowmult_extent d has i a)
    · exact ensures_some has) _ has).bind fun _ has =>
  ensures_read fun _ => ensures_some has

theorem measureDetermined_extent (q : Nat)
    : Ensures (measureDetermined d q s) (fun result => HasExtent e result.2) :=
  ensures_read fun _ =>
  (rowcopy_extent d has _ _).bind fun _ has =>
  (ensures_forRange (fun _ _ has =>
    ensures_read fun _ => ensures_onlyIf _ has (rowmult_extent d has _ _)) _ has).bind fun _ has =>
  ensures_read fun _ => ensures_some has

theorem measure_extent (q : Nat) (coins : Stream' Bool)
    : Ensures (measure d q coins s) (fun result => HasExtent e result.2.1) :=
  ensures_read fun a => by
    by_cases found : a < s.n
    · simp only [if_pos found]
      exact (measureRandom_extent d has q a coins.head).bind fun _ has => ensures_some has
    · simp only [if_neg found]
      exact (measureDetermined_extent d has q).bind fun _ has => ensures_some has

end Extents

/-- Every instruction but an initialisation succeeds, if it returns, on the same arrays and
without an allocation.
-/
theorem step_extent (d : Discipline) (m : Machine) {instruction : Instruction}
    (other : instruction.bytecode ≠ .initializeOp)
    : Ensures (step d m instruction) (fun result => result.1 = true
        ∧ HasExtent m.state.extent result.2.state
        ∧ result.2.world.grants = m.world.grants) := by
  have keeps : HasExtent m.state.extent m.state := rfl
  have finish {x : Option ChpState} (runs : Ensures x (HasExtent m.state.extent))
      : Ensures (do return (true, { m with state := ← x })) (fun result => result.1 = true
          ∧ HasExtent m.state.extent result.2.state
          ∧ result.2.world.grants = m.world.grants) :=
    runs.bind fun _ has => ensures_some ⟨rfl, has, rfl⟩
  obtain ⟨bytecode, operands⟩ := instruction
  cases bytecode with
  | macroOp => exact ensures_some ⟨rfl, keeps, rfl⟩
  | initializeOp => exact absurd rfl other
  | identity => exact ensures_some ⟨rfl, keeps, rfl⟩
  | hadamard => exact finish (hadamard_extent d keeps _)
  | phase => exact finish (phase_extent d keeps _)
  | measure =>
      exact (measure_extent d keeps _ _).bind fun _ has =>
        ensures_read fun _ => ensures_some ⟨rfl, has, rfl⟩
  | cnot => exact finish (cnot_extent d keeps _ _)
  | paulix =>
      exact (hadamard_extent d keeps _).bind fun _ has => (phase_extent d has _).bind
        fun _ has => (phase_extent d has _).bind fun _ has => finish (hadamard_extent d has _)
  | pauliy =>
      exact (phase_extent d keeps _).bind fun _ has => (hadamard_extent d has _).bind
        fun _ has => (phase_extent d has _).bind fun _ has => (phase_extent d has _).bind
        fun _ has => (hadamard_extent d has _).bind fun _ has => (phase_extent d has _).bind
        fun _ has => (phase_extent d has _).bind fun _ has => finish (phase_extent d has _)
  | pauliz =>
      exact (phase_extent d keeps _).bind fun _ has => finish (phase_extent d has _)

-----------------------------------------------------------------------------------------
-- Initialisations
-----------------------------------------------------------------------------------------

/-- The rows of a state of `n` qubits, destabilizers, stabilizers and scratch row, as computed. -/
def rowCount (n : Nat) : Nat := wrap (2 * n + 1)

/-- The words of the x or z chunk of `n` qubits, as computed. -/
def chunkSize (n : Nat) : Nat := wrap (rowCount n * (n / 32 + 1))

/-- The arrays that an initialisation of `n` qubits gets. -/
def Extent.initial (n : Nat) : Extent :=
  let matrix := ⟨rowCount n, n / 32 + 1, chunkSize n⟩
  ⟨n, n / 32 + 1, .live, matrix, matrix, rowCount n⟩

section Initialisation

variable {d : Discipline} {pointers : Pointers} {n : Nat} {grants rest : Stream' (Option Int)}
  {s : ChpState}

theorem initRow_extent {e : Extent} (d : Discipline) (i : Nat) {t : ChpState} (has : HasExtent e t)
    : Ensures (initRow d i t) (HasExtent e) := by
  rw [initRow]
  split
  · exact setX_extent d has i _ _
  · exact setZ_extent d has i _ _

theorem initState_granted (ran : initState d pointers n grants = some (true, s, rest))
    : s.extent = Extent.initial n
      ∧ ∃ leftover, allocateArrays (rowCount n) (chunkSize n) grants = (.ok leftover, rest) := by
  rw [initState] at ran
  split at ran
  · rename_i leftover left granted
    obtain ⟨t, loop, same⟩ := Option.bind_eq_some_iff.mp ran
    cases same
    have cleared : HasExtent (Extent.initial n) (clearedState n leftover) := rfl
    exact ⟨ensures_forRange (fun i t has => initRow_extent d i has) _ cleared s loop,
      leftover, granted⟩
  · cases ran

theorem initState_refused_pointers (ran : initState d pointers n grants = some (false, s, rest))
    : ∃ renewed, allocateArrays (rowCount n) (chunkSize n) grants = (.error renewed, rest)
        ∧ s.pointers = pointers.release renewed := by
  rw [initState] at ran
  split at ran
  · obtain ⟨t, loop, same⟩ := Option.bind_eq_some_iff.mp ran
    cases same
  · rename_i renewed left refused
    cases ran
    exact ⟨renewed, refused, rfl⟩

end Initialisation

end Sabot.State
