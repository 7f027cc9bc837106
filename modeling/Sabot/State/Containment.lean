import Sabot.State.Extent

/-! Which accesses, gates and measurements stay inside the arrays of a state. The sizes of the arrays
and the operands decide this, not what the cells hold.
-/

namespace Sabot.State

open ChpState
open Sabot.Language (Instruction)

/-- The qubits that an instruction works on; the operand of `i` is never looked at. -/
def qubits : Instruction → List Nat
  | ⟨.macroOp, _⟩ | ⟨.initializeOp, _⟩ | ⟨.identity, _⟩ => []
  | ⟨.cnot, operands⟩ => [operands.head.toNat, operands.tail.head.toNat]
  | ⟨.hadamard, operands⟩ | ⟨.phase, operands⟩ | ⟨.measure, operands⟩
  | ⟨.paulix, operands⟩ | ⟨.pauliy, operands⟩ | ⟨.pauliz, operands⟩ => [operands.head.toNat]

-----------------------------------------------------------------------------------------
-- The condition
-----------------------------------------------------------------------------------------

/-- The chunk of `n` qubits reaches as far as word `w` from the start of row `i` on. -/
def InChunk (n i w : Nat) : Prop := wrap (i * (n / 32 + 1)) + w < chunkSize n

/-- The words of the qubit lie in the chunks, for all rows that a gate changes. -/
def GateInside (n : Nat) (pointers : Pointers) (q : Nat) : Prop :=
  ∀ i < wrap (2 * n), pointers = .live ∧ InChunk n i (q / 32)

/-- The words that the initialisation sets lie in the chunks. -/
def InitInside (n : Nat) : Prop :=
  ∀ i < rowCount n, InChunk n i ((if i < n then i else i - n) / 32)

/-- The instruction stays inside the arrays of `n` qubits. A measurement goes by the exact number of
rows, and by the scratch row also when there are no qubits.
-/
def Inside (n : Nat) (pointers : Pointers) (instruction : Instruction) : Prop :=
  (∀ q ∈ qubits instruction, GateInside n pointers q)
  ∧ (instruction.bytecode = .measure → pointers = .live ∧ n < 2 ^ 34)

-----------------------------------------------------------------------------------------
-- Computations that succeed
-----------------------------------------------------------------------------------------

/-- The computation returns something that is as stated. -/
def Succeeds {α : Type} (result : Option α) (post : α → Prop) : Prop :=
  ∃ a, result = some a ∧ post a

section Succeeds

variable {α β : Type} {x : Option α} {f : α → Option β} {post : β → Prop}

theorem Succeeds.bind {middle : α → Prop} (first : Succeeds x middle)
    (later : ∀ a, middle a → Succeeds (f a) post)
    : Succeeds (x >>= f) post := by
  obtain ⟨a, ran, holds⟩ := first
  obtain ⟨b, ranLater, holdsLater⟩ := later a holds
  exact ⟨b, Option.bind_eq_some_iff.mpr ⟨a, ran, ranLater⟩, holdsLater⟩

/-- What is read does not matter as long as it can be read. -/
theorem succeeds_read (first : ∃ a, x = some a) (later : ∀ a, Succeeds (f a) post)
    : Succeeds (x >>= f) post := by
  obtain ⟨a, ran⟩ := first
  exact Succeeds.bind ⟨a, ran, trivial⟩ (fun a (_ : True) => later a)

theorem succeeds_of_ensures {middle : α → Prop} (defined : ∃ a, x = some a)
    (ensures : Ensures x middle)
    : Succeeds x middle := by
  obtain ⟨a, ran⟩ := defined
  exact ⟨a, ran, ensures a ran⟩

theorem succeeds_onlyIf {body : α → Option α} {P : α → Prop} (condition : Bool) {s : α}
    (start : P s) (runs : Succeeds (body s) P)
    : Succeeds (onlyIf condition body s) P := by
  cases condition with
  | false => exact ⟨s, rfl, start⟩
  | true => exact runs

theorem succeeds_forRange {body : Nat → α → Option α} {P : α → Prop} (count : Nat)
    (round : ∀ k < count, ∀ s, P s → Succeeds (body k s) P) {s : α} (start : P s)
    : Succeeds (forRange count body s) P := by
  induction count with
  | zero => exact ⟨s, rfl, start⟩
  | succ count ih =>
      exact (ih (fun k below => round k (Nat.lt_succ_of_lt below))).bind
        (round count (Nat.lt_succ_self count))

theorem succeeds_some (a : α) : Succeeds (some a) (fun _ => True) := ⟨a, rfl, trivial⟩

/-- A computation succeeds exactly when its first part can, if the rest then does. -/
theorem first_iff {P : Prop} (first : (∃ a, x = some a) ↔ P)
    (whole : P → Succeeds (x >>= f) post)
    : (∃ b, x >>= f = some b) ↔ P := by
  constructor
  · rintro ⟨b, ran⟩
    obtain ⟨a, ran, _⟩ := Option.bind_eq_some_iff.mp ran
    exact first.mp ⟨a, ran⟩
  · intro holds
    obtain ⟨b, ran, _⟩ := whole holds
    exact ⟨b, ran⟩

/-- A loop succeeds exactly when all its rounds can. -/
theorem forRange_iff {body : Nat → α → Option α} {P : α → Prop} {condition : Nat → Prop}
    (count : Nat) (ensures : ∀ k s, P s → Ensures (body k s) P)
    (round : ∀ k < count, ∀ s, P s → ((∃ t, body k s = some t) ↔ condition k)) {s : α}
    (start : P s)
    : (∃ t, forRange count body s = some t) ↔ ∀ k < count, condition k := by
  constructor
  · rintro ⟨t, ran⟩ k below
    have rounds := (forRange_round P (fun k s t ran holds => ensures k s holds t ran) ran start).2
    obtain ⟨u, v, ranK, holds⟩ := rounds k below
    exact (round k below u holds).mp ⟨v, ranK⟩
  · intro all
    obtain ⟨t, ran, _⟩ := succeeds_forRange count (fun k below s holds =>
      succeeds_of_ensures ((round k below s holds).mpr (all k below)) (ensures k s holds)) start
    exact ⟨t, ran⟩

end Succeeds

-----------------------------------------------------------------------------------------
-- Accesses
-----------------------------------------------------------------------------------------

/-- Both matrices have arrays of the same sizes, with a phase for every row. -/
structure Extent.Uniform (e : Extent) : Prop where
  z : e.z = e.x
  r : e.r = e.x.rows

/-- Word `w` from the start of row `i` on lies in the chunks. -/
def Extent.Admits (e : Extent) (i w : Nat) : Prop :=
  i < e.x.rows ∧ wrap (i * e.x.over32) + w < e.x.chunk

section Access

theorem admits_iff {s : ChpState} {m : Matrix} {i w : Nat}
    : s.admits .allocated m i w = true ↔ i < m.rows ∧ m.address i w < m.chunk.size := by
  simp [ChpState.admits]

variable {e : Extent} {s : ChpState} (uniform : e.Uniform) (has : HasExtent e s) {i w : Nat}
include has

theorem admits_x_iff : s.admits .allocated s.x i w = true ↔ e.Admits i w := by
  subst has
  exact admits_iff

theorem getX_iff : (∃ v, s.getX .allocated i w = some v) ↔ e.Admits i w := by
  rw [← admits_x_iff has]
  simp [ChpState.getX]

theorem setX_iff (value : Word) : (∃ t, s.setX .allocated i w value = some t) ↔ e.Admits i w := by
  rw [← admits_x_iff has]
  simp [ChpState.setX]

include uniform

theorem admits_z_iff : s.admits .allocated s.z i w = true ↔ e.Admits i w := by
  have same : s.z.extent = e.x := (congrArg Extent.z has).trans uniform.z
  rw [Extent.Admits, ← same]
  exact admits_iff

theorem getZ_iff : (∃ v, s.getZ .allocated i w = some v) ↔ e.Admits i w := by
  rw [← admits_z_iff uniform has]
  simp [ChpState.getZ]

theorem setZ_iff (value : Word) : (∃ t, s.setZ .allocated i w value = some t) ↔ e.Admits i w := by
  rw [← admits_z_iff uniform has]
  simp [ChpState.setZ]

theorem getR_iff : (∃ v, s.getR i = some v) ↔ i < e.x.rows := by
  have size : s.r.size = e.x.rows := by
    rw [← uniform.r]
    exact congrArg Extent.r has
  simp [ChpState.getR, size]

theorem setR_iff (value : Int) : (∃ t, s.setR i value = some t) ↔ i < e.x.rows := by
  have size : s.r.size = e.x.rows := by
    rw [← uniform.r]
    exact congrArg Extent.r has
  simp [ChpState.setR, size]

end Access

-----------------------------------------------------------------------------------------
-- Gates
-----------------------------------------------------------------------------------------

section Gates

variable {e : Extent} {s : ChpState} (uniform : e.Uniform) (has : HasExtent e s) {i q : Nat}
include has

theorem bitX_iff : (∃ b, s.bitX .allocated i q = some b) ↔ e.Admits i (q / 32) := by
  rw [← getX_iff has]
  simp only [ChpState.bitX, Option.bind_eq_bind, Option.bind_eq_some_iff, Option.pure_def,
    Option.some.injEq]
  constructor
  · rintro ⟨_, v, read, _⟩
    exact ⟨v, read⟩
  · rintro ⟨v, read⟩
    exact ⟨_, v, read, rfl⟩

theorem setX_succeeds (admits : e.Admits i q) (value : Word)
    : Succeeds (s.setX .allocated i q value) (HasExtent e) :=
  succeeds_of_ensures ((setX_iff has value).mpr admits) (setX_extent .allocated has i q value)

include uniform

theorem bitZ_iff : (∃ b, s.bitZ .allocated i q = some b) ↔ e.Admits i (q / 32) := by
  rw [← getZ_iff uniform has]
  simp only [ChpState.bitZ, Option.bind_eq_bind, Option.bind_eq_some_iff, Option.pure_def,
    Option.some.injEq]
  constructor
  · rintro ⟨_, v, read, _⟩
    exact ⟨v, read⟩
  · rintro ⟨v, read⟩
    exact ⟨_, v, read, rfl⟩

theorem negate_succeeds (row : i < e.x.rows) : Succeeds (s.negate i) (HasExtent e) :=
  succeeds_of_ensures
    (by
      obtain ⟨v, read⟩ := (getR_iff uniform has).mpr row
      obtain ⟨t, written⟩ := (setR_iff uniform has ((v + 2).tmod 4)).mpr row
      exact ⟨t, Option.bind_eq_some_iff.mpr ⟨v, read, written⟩⟩)
    (negate_extent has i)

theorem setZ_succeeds (admits : e.Admits i q) (value : Word)
    : Succeeds (s.setZ .allocated i q value) (HasExtent e) :=
  succeeds_of_ensures ((setZ_iff uniform has value).mpr admits)
    (setZ_extent .allocated has i q value)

theorem hadamardRow_iff
    : (∃ t, hadamardRow .allocated q i s = some t) ↔ e.Admits i (q / 32) :=
  first_iff (getX_iff has) fun admits =>
  succeeds_read ((getX_iff has).mpr admits) fun _ =>
  succeeds_read ((getZ_iff uniform has).mpr admits) fun _ =>
  (setX_succeeds has admits _).bind fun _ has =>
  (setZ_succeeds uniform has admits _).bind fun _ has =>
  succeeds_read ((bitX_iff has).mpr admits) fun _ =>
  succeeds_read ((bitZ_iff uniform has).mpr admits) fun _ =>
  succeeds_onlyIf _ has (negate_succeeds uniform has admits.1)

theorem phaseRow_iff : (∃ t, phaseRow .allocated q i s = some t) ↔ e.Admits i (q / 32) :=
  first_iff (bitX_iff has) fun admits =>
  succeeds_read ((bitX_iff has).mpr admits) fun _ =>
  succeeds_read ((bitZ_iff uniform has).mpr admits) fun _ =>
  (succeeds_onlyIf _ has (negate_succeeds uniform has admits.1)).bind fun _ has =>
  succeeds_read ((getX_iff has).mpr admits) fun _ =>
  succeeds_read ((getZ_iff uniform has).mpr admits) fun _ =>
  setZ_succeeds uniform has admits _

/-- Whether or not the target's bit is toggled first, both words are read. -/
theorem cnotRow_iff {control target : Nat}
    : (∃ t, cnotRow .allocated control target i s = some t)
      ↔ e.Admits i (control / 32) ∧ e.Admits i (target / 32) := by
  constructor
  · rintro ⟨t, ran⟩
    obtain ⟨xc, readX, ran⟩ := Option.bind_eq_some_iff.mp ran
    obtain ⟨u, toggled, ran⟩ := Option.bind_eq_some_iff.mp ran
    obtain ⟨zt, readZ, _⟩ := Option.bind_eq_some_iff.mp ran
    have hasU : HasExtent e u := by
      refine ensures_onlyIf xc has ?_ u toggled
      exact ensures_read fun _ => setX_extent .allocated has i _ _
    exact ⟨(bitX_iff has).mp ⟨xc, readX⟩, (bitZ_iff uniform hasU).mp ⟨zt, readZ⟩⟩
  · rintro ⟨admitsC, admitsT⟩
    have runs : Succeeds (cnotRow .allocated control target i s) (HasExtent e) :=
      succeeds_read ((bitX_iff has).mpr admitsC) fun _ =>
      (succeeds_onlyIf _ has (succeeds_read ((getX_iff has).mpr admitsT) fun _ =>
        setX_succeeds has admitsT _)).bind fun _ has =>
      succeeds_read ((bitZ_iff uniform has).mpr admitsT) fun _ =>
      (succeeds_onlyIf _ has (succeeds_read ((getZ_iff uniform has).mpr admitsC) fun _ =>
        setZ_succeeds uniform has admitsC _)).bind fun _ has =>
      succeeds_read ((bitX_iff has).mpr admitsC) fun _ =>
      succeeds_read ((bitZ_iff uniform has).mpr admitsT) fun _ =>
      succeeds_read ((bitX_iff has).mpr admitsT) fun _ =>
      succeeds_read ((bitZ_iff uniform has).mpr admitsC) fun _ =>
      (succeeds_onlyIf _ has (negate_succeeds uniform has admitsC.1)).bind fun _ has =>
      succeeds_onlyIf _ has (negate_succeeds uniform has admitsC.1)
    obtain ⟨t, ran, _⟩ := runs
    exact ⟨t, ran⟩

/-- A gate admits the word of the qubit in every row that it changes. -/
def Extent.AdmitsGate (e : Extent) (q : Nat) : Prop := ∀ i < wrap (2 * e.n), e.Admits i (q / 32)

omit uniform in
theorem HasExtent.n_eq : s.n = e.n := congrArg Extent.n has

theorem hadamard_iff : (∃ t, hadamard .allocated q s = some t) ↔ e.AdmitsGate q := by
  rw [hadamard, HasExtent.n_eq has]
  exact forRange_iff _ (fun i _ has => hadamardRow_extent .allocated has q i)
    (fun i _ _ has => hadamardRow_iff uniform has) has

theorem phase_iff : (∃ t, phase .allocated q s = some t) ↔ e.AdmitsGate q := by
  rw [phase, HasExtent.n_eq has]
  exact forRange_iff _ (fun i _ has => phaseRow_extent .allocated has q i)
    (fun i _ _ has => phaseRow_iff uniform has) has

theorem cnot_iff {control target : Nat}
    : (∃ t, cnot .allocated control target s = some t)
      ↔ e.AdmitsGate control ∧ e.AdmitsGate target := by
  rw [cnot, HasExtent.n_eq has]
  refine (forRange_iff _ (fun i _ has => cnotRow_extent .allocated has control target i)
    (fun i _ _ has => cnotRow_iff uniform has) has).trans ?_
  constructor
  · exact fun all => ⟨fun i below => (all i below).1, fun i below => (all i below).2⟩
  · exact fun both i below => ⟨both.1 i below, both.2 i below⟩

theorem hadamard_succeeds (admits : e.AdmitsGate q)
    : Succeeds (hadamard .allocated q s) (HasExtent e) :=
  succeeds_of_ensures ((hadamard_iff uniform has).mpr admits) (hadamard_extent .allocated has q)

theorem phase_succeeds (admits : e.AdmitsGate q)
    : Succeeds (phase .allocated q s) (HasExtent e) :=
  succeeds_of_ensures ((phase_iff uniform has).mpr admits) (phase_extent .allocated has q)

end Gates

-----------------------------------------------------------------------------------------
-- Measurements
-----------------------------------------------------------------------------------------

theorem Extent.initial_uniform (n : Nat) : (Extent.initial n).Uniform := ⟨rfl, rfl⟩

/-- The scratch row comes behind the rows that a gate changes. -/
theorem rowCount_eq (n : Nat) : rowCount n = wrap (2 * n) + 1 := by
  simp only [rowCount, wrap]
  omega

theorem admitsGate_initial {n q : Nat}
    : (Extent.initial n).AdmitsGate q ↔ GateInside n .live q := by
  have rows : n = (Extent.initial n).n := rfl
  constructor
  · exact fun admits i below => ⟨rfl, (admits i below).2⟩
  · intro inside i below
    refine ⟨?_, (inside i below).2⟩
    change i < rowCount n
    rw [rowCount_eq]
    exact Nat.lt_succ_of_lt below

/-- A search succeeds when all its conditions can be read. -/
theorem search_succeeds {condition : Nat → Option Bool} {count p : Nat}
    (reads : ∀ k, p ≤ k → k < p + count → ∃ b, condition k = some b)
    : Succeeds (search condition count p) (fun m => m ≤ p + count) := by
  have values (k : Nat) (low : p ≤ k) (high : k < p + count)
      : condition k = some ((condition k).getD false) := by
    obtain ⟨b, read⟩ := reads k low high
    rw [read]
    rfl
  obtain ⟨m, ran, _, high, _⟩ := search_spec condition _ count p values
  exact ⟨m, ran, high⟩

/-- What a search has passed, and where it stopped before its end, it has read. -/
theorem search_reads {condition : Nat → Option Bool} {count p m : Nat}
    (ran : search condition count p = some m) {k : Nat} (low : p ≤ k) (high : k < p + count)
    (passed : k ≤ m)
    : ∃ b, condition k = some b := by
  induction count generalizing p with
  | zero => omega
  | succ count ih =>
      obtain ⟨b, read, later⟩ := Option.bind_eq_some_iff.mp ran
      by_cases first : k = p
      · exact ⟨b, first ▸ read⟩
      · cases b with
        | true =>
            cases later
            omega
        | false => exact ih later (by omega) (by omega)

section Small

variable {n : Nat} (small : n < 2 ^ 34)
include small

theorem chunkSize_eq : chunkSize n = (2 * n + 1) * (n / 32 + 1) := by
  have fits := (cells_lt_iff n).mpr small
  rw [chunkSize, rowCount, wrap_rows fits, wrap_cells fits]
  rfl

theorem inChunk_iff {i : Nat} (inside : i ≤ 2 * n) (w : Nat)
    : InChunk n i w ↔ i * (n / 32 + 1) + w < (2 * n + 1) * (n / 32 + 1) := by
  have fits := (cells_lt_iff n).mpr small
  have below : i * (n / 32 + 1) < 2 ^ 64 :=
    lt_of_le_of_lt (Nat.mul_le_mul_right _ (by omega)) fits
  rw [InChunk, chunkSize_eq small, wrap, Nat.mod_eq_of_lt below]

/-- The last of the rows that a gate changes is followed by the scratch row, so that the word of the
qubit may lie up to one row behind its own.
-/
theorem inChunk_last_iff {q : Nat} (positive : n ≠ 0)
    : InChunk n (2 * n - 1) (q / 32) ↔ q < 64 * (n / 32 + 1) := by
  have rows : (2 * n + 1) * (n / 32 + 1) = (2 * n - 1) * (n / 32 + 1) + 2 * (n / 32 + 1) := by
    rw [← Nat.add_mul]
    congr 1
    omega
  rw [inChunk_iff small (by omega), rows]
  omega

theorem gateInside_iff {pointers : Pointers} {q : Nat}
    : GateInside n pointers q ↔ n = 0 ∨ pointers = .live ∧ q < 64 * (n / 32 + 1) := by
  have rows : wrap (2 * n) = 2 * n := Nat.mod_eq_of_lt (by omega)
  constructor
  · intro inside
    refine (eq_or_ne n 0).imp_right (fun positive => ?_)
    obtain ⟨live, chunk⟩ := inside (2 * n - 1) (by omega)
    exact ⟨live, (inChunk_last_iff small positive).mp chunk⟩
  · rintro (rfl | ⟨live, below⟩) i inside
    · exact absurd inside (Nat.not_lt_zero i)
    · refine ⟨live, (inChunk_iff small (by omega) _).mpr ?_⟩
      calc i * (n / 32 + 1) + q / 32 < i * (n / 32 + 1) + 2 * (n / 32 + 1) := by omega
        _ = (i + 2) * (n / 32 + 1) := (Nat.add_mul _ _ _).symm
        _ ≤ (2 * n + 1) * (n / 32 + 1) := Nat.mul_le_mul_right _ (by omega)

variable {s : ChpState} (has : HasExtent (Extent.initial n) s)
include has

theorem HasExtent.layout : s.Layout := by
  have fits := (cells_lt_iff n).mpr small
  obtain ⟨live, over32, small, x, z, r⟩ := clearedState_layout fits 0
  have same : s.extent = (clearedState n 0).extent := has
  simp only [ChpState.extent, Matrix.extent, Extent.mk.injEq, MatrixExtent.mk.injEq] at same
  obtain ⟨qubits, words, pointers, ⟨xRows, xStride, xChunk⟩, ⟨zRows, zStride, zChunk⟩, phases⟩ :=
    same
  refine ⟨pointers.trans live, ?_, ?_, ?_, ?_, ?_⟩
  · rw [words, qubits, over32]
  · rw [words, qubits]
    exact small
  · rw [words, qubits]
    exact ⟨xRows.trans x.rows, xStride.trans x.stride, xChunk.trans x.size⟩
  · rw [words, qubits]
    exact ⟨zRows.trans z.rows, zStride.trans z.stride, zChunk.trans z.size⟩
  · rw [phases, qubits]
    exact r

theorem rowcopy_succeeds {dest source : Nat} (hd : dest ≤ 2 * n) (hs : source ≤ 2 * n)
    : Succeeds (rowcopy .allocated dest source s) (HasExtent (Extent.initial n)) := by
  have count : s.n = n := HasExtent.n_eq has
  obtain ⟨t, ran, _⟩ := rowcopy_yields (HasExtent.layout small has) .allocated dest source
    (by rwa [count]) (by rwa [count])
  exact succeeds_of_ensures ⟨t, ran⟩ (rowcopy_extent .allocated has dest source)

theorem rowmult_succeeds {a b : Nat} (ha : a ≤ 2 * n) (hb : b ≤ 2 * n) (distinct : a ≠ b)
    : Succeeds (rowmult .allocated a b s) (HasExtent (Extent.initial n)) := by
  have count : s.n = n := HasExtent.n_eq has
  obtain ⟨t, ran, _⟩ := rowmult_yields (HasExtent.layout small has) .allocated
    (by rwa [count] : a ≤ 2 * s.n) (by rwa [count] : b ≤ 2 * s.n) distinct
  exact succeeds_of_ensures ⟨t, ran⟩ (rowmult_extent .allocated has a b)

/-- A stabilizer can be set to an observable whose word does not lie behind the chunk. -/
theorem rowset_succeeds {row q : Nat} (stabilizer : row < 2 * n)
    (inside : GateInside n .live q)
    : Succeeds (rowset .allocated row (wrap (q + n)) s) (HasExtent (Extent.initial n)) := by
  have count : s.n = n := HasExtent.n_eq has
  have below : q < 64 * (n / 32 + 1) := by
    rcases (gateInside_iff small).mp inside with rfl | ⟨_, below⟩
    · exact absurd stabilizer (Nat.not_lt_zero row)
    · exact below
  have wrapped : wrap (q + n) = q + n := Nat.mod_eq_of_lt (by omega)
  obtain ⟨t, cleared, _⟩ := clearWords_yields (HasExtent.layout small has) .allocated row
    (by rw [count]; omega)
  have hasT : HasExtent (Extent.initial n) t := by
    refine ensures_forRange (fun w t hasT => ?_) _ has t cleared
    exact (setX_extent .allocated hasT row w _).bind fun _ hasT =>
      setZ_extent .allocated hasT row w _
  have admits : (Extent.initial n).Admits row (q / 32) :=
    admitsGate_initial.mpr inside row (lt_of_lt_of_eq stabilizer
      (Nat.mod_eq_of_lt (by omega) : wrap (2 * n) = 2 * n).symm)
  have ends : Succeeds
      (do
        let t ← t.setR row 0
        if wrap (q + n) < t.n then t.setX .allocated row (wrap (q + n) / 32) (pt (wrap (q + n) % 32))
        else t.setZ .allocated row ((wrap (q + n) - t.n) / 32) (pt ((wrap (q + n) - t.n) % 32)))
      (HasExtent (Extent.initial n)) := by
    refine (succeeds_of_ensures ((setR_iff (Extent.initial_uniform n) hasT 0).mpr admits.1)
      (setR_extent hasT row 0)).bind fun u hasU => ?_
    have qubits : u.n = n := HasExtent.n_eq hasU
    rw [qubits, wrapped, if_neg (by omega), Nat.add_sub_cancel]
    exact setZ_succeeds (Extent.initial_uniform n) hasU admits _
  exact Succeeds.bind ⟨t, cleared, rfl⟩ (fun a (same : t = a) => by
    rw [← same]
    exact ends)

theorem measureRandom_succeeds {q p : Nat} (pivot : p < n) (inside : GateInside n .live q)
    (coin : Bool)
    : Succeeds (measureRandom .allocated q p coin s) (fun _ => True) := by
  have count : s.n = n := HasExtent.n_eq has
  have wrapN : wrap (2 * n) = 2 * n := Nat.mod_eq_of_lt (by omega)
  have wrapP : wrap (p + n) = p + n := Nat.mod_eq_of_lt (by omega)
  have uniform := Extent.initial_uniform n
  have admits : (Extent.initial n).AdmitsGate q := admitsGate_initial.mpr inside
  have stabilizer : p + n < (Extent.initial n).x.rows := by
    change p + n < rowCount n
    rw [rowCount_eq, wrapN]
    omega
  simp only [measureRandom, count, wrapN, wrapP]
  refine (rowcopy_succeeds small has (by omega) (by omega)).bind fun t has => ?_
  refine (rowset_succeeds small has (by omega) inside).bind fun t has => ?_
  refine (succeeds_of_ensures ((setR_iff uniform has _).mpr stabilizer)
    (setR_extent has _ _)).bind fun t has => ?_
  refine (succeeds_forRange _ (fun i below t has => ?_) has).bind fun t has => ?_
  · by_cases isP : i = p
    · exact ⟨t, by simp [isP], has⟩
    · rw [if_pos isP]
      refine succeeds_read ((bitX_iff has).mpr (admits i (lt_of_lt_of_eq below wrapN.symm)))
        fun bit => ?_
      exact succeeds_onlyIf bit has (rowmult_succeeds small has (by omega) (by omega) isP)
  · exact succeeds_read ((getR_iff uniform has).mpr stabilizer) fun _ => ⟨_, rfl, trivial⟩

theorem measureDetermined_succeeds {q : Nat} (inside : GateInside n .live q)
    : Succeeds (measureDetermined .allocated q s) (fun _ => True) := by
  have count : s.n = n := HasExtent.n_eq has
  have wrapN : wrap (2 * n) = 2 * n := Nat.mod_eq_of_lt (by omega)
  have uniform := Extent.initial_uniform n
  have reads {t : ChpState} (has : HasExtent (Extent.initial n) t) {i : Nat} (below : i < n)
      : ∃ b, t.bitX .allocated i q = some b :=
    (bitX_iff has).mpr (admitsGate_initial.mpr inside i (lt_of_lt_of_eq (by omega) wrapN.symm))
  simp only [measureDetermined, count, wrapN]
  refine Succeeds.bind (search_succeeds fun k _ high => reads has (by omega)) fun m le => ?_
  have wrapM : wrap (m + n) = m + n := Nat.mod_eq_of_lt (by omega)
  rw [wrapM]
  refine (rowcopy_succeeds small has (by omega) (by omega)).bind fun t has => ?_
  refine (succeeds_forRange _ (fun k below t has => ?_) has).bind fun t has => ?_
  · have wrapK : wrap (m + 1 + k + n) = m + 1 + k + n := Nat.mod_eq_of_lt (by omega)
    rw [wrapK]
    refine succeeds_read (reads has (by omega)) fun bit => ?_
    exact succeeds_onlyIf bit has (rowmult_succeeds small has le_rfl (by omega) (by omega))
  · refine succeeds_read ((getR_iff uniform has).mpr ?_) fun _ => ⟨_, rfl, trivial⟩
    change 2 * n < rowCount n
    rw [rowCount_eq, wrapN]
    exact Nat.lt_succ_self _

theorem measure_succeeds {q : Nat} (inside : GateInside n .live q) (coins : Stream' Bool)
    : ∃ result, measure .allocated q coins s = some result := by
  have count : s.n = n := HasExtent.n_eq has
  have wrapN : wrap (2 * n) = 2 * n := Nat.mod_eq_of_lt (by omega)
  have runs : Succeeds (measure .allocated q coins s) (fun _ => True) := by
    refine Succeeds.bind (search_succeeds fun k _ high => ?_) fun p _ => ?_
    · rw [count] at high ⊢
      have wrapK : wrap (k + n) = k + n := Nat.mod_eq_of_lt (by omega)
      rw [wrapK]
      exact (bitX_iff has).mpr (admitsGate_initial.mpr inside (k + n)
        (lt_of_lt_of_eq (by omega) wrapN.symm))
    · rw [count]
      by_cases pivot : p < n
      · rw [if_pos pivot]
        exact (measureRandom_succeeds small has pivot inside coins.head).bind
          fun _ _ => ⟨_, rfl, trivial⟩
      · rw [if_neg pivot]
        exact (measureDetermined_succeeds small has inside).bind fun _ _ => ⟨_, rfl, trivial⟩
  obtain ⟨result, ran, _⟩ := runs
  exact ⟨result, ran⟩

end Small

end Sabot.State
