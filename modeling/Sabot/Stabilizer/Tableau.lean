import Sabot.Stabilizer.Measurement
import Sabot.Stabilizer.SymplecticBasis

/-! The stabilizer tableau as an abstract machine: gates conjugate every row, a random
measurement exchanges one pair of rows, a determined one multiplies stabilizers.
The symplectic invariant and the stabilized vector are followed through every operation.
-/

namespace Stabilizer

variable {ι : Type*} [Fintype ι] [DecidableEq ι]

/-- One destabilizer and one stabilizer row per qubit. -/
@[ext]
structure Tableau (ι : Type*) where
  destabilizer : ι → PauliString ι
  stabilizer : ι → PauliString ι

namespace Tableau

/-- The rows form a symplectic basis and carry signs only. -/
structure Valid (T : Tableau ι) : Prop where
  basis : SymplecticBasis T.destabilizer T.stabilizer
  destabilizerSign : ∀ i, (T.destabilizer i).Hermitian
  stabilizerSign : ∀ i, (T.stabilizer i).Hermitian

/-- The vector is nonzero and fixed by every stabilizer row. -/
structure Stabilizes (T : Tableau ι) (ψ : StateVector ι) : Prop where
  nonzero : ψ ≠ 0
  fixed : ∀ i, (T.stabilizer i).Fixes ψ

-----------------------------------------------------------------------------------------
-- Initial state and gates
-----------------------------------------------------------------------------------------

/-- The tableau of `|0...0>`. -/
def initial : Tableau ι where
  destabilizer := PauliString.singleX
  stabilizer i := PauliString.signedZ i false

/-- Apply the same map to every row. -/
def map (g : PauliString ι → PauliString ι) (T : Tableau ι) : Tableau ι where
  destabilizer i := g (T.destabilizer i)
  stabilizer i := g (T.stabilizer i)

theorem initial_valid : (initial : Tableau ι).Valid where
  basis := {
    pairing := by
      intro i j
      simp [initial, PauliString.singleX, Pi.single_apply, eq_comm]
    destabilizers := by
      intro i j
      simp [initial, PauliString.singleX, PauliString.form]
    stabilizers := by
      intro i j
      exact PauliString.form_signedZ _ j false
  }
  destabilizerSign _ := map_zero parity
  stabilizerSign i := PauliString.signedZ_hermitian i false

theorem initial_stabilizes : (initial : Tableau ι).Stabilizes StateVector.zeroState where
  nonzero := StateVector.zeroState_ne_zero
  fixed := StateVector.zeroState_fixed

theorem Valid.map {T : Tableau ι} (valid : T.Valid) {g : PauliString ι → PauliString ι}
    (keepsForm : ∀ P Q, (g P).form (g Q) = P.form Q)
    (keepsSign : ∀ {P}, P.Hermitian → (g P).Hermitian)
    : (T.map g).Valid where
  basis := valid.basis.map keepsForm
  destabilizerSign i := keepsSign (valid.destabilizerSign i)
  stabilizerSign i := keepsSign (valid.stabilizerSign i)

omit [DecidableEq ι] in
/-- A gate and the conjugation it performs on rows keep a vector stabilized. -/
theorem Stabilizes.map {T : Tableau ι} {ψ : StateVector ι} (stabilizes : T.Stabilizes ψ)
    {g : PauliString ι → PauliString ι} {gate : StateVector ι → StateVector ι}
    (conjugates : ∀ P φ, (g P).act (gate φ) = gate (P.act φ)) (keeps : gate ψ ≠ 0)
    : (T.map g).Stabilizes (gate ψ) where
  nonzero := keeps
  fixed i := (conjugates (T.stabilizer i) ψ).trans (congrArg gate (stabilizes.fixed i))

-----------------------------------------------------------------------------------------
-- Random measurement
-----------------------------------------------------------------------------------------

/-- Multiply a row by the pivot when it has an X bit on the measured qubit. -/
def absorb (q : ι) (pivot row : PauliString ι) : PauliString ι :=
  if row.x q = 1 then pivot * row else row

/-- Measuring `q` with pivot `p`: the pivot stabilizer becomes the destabilizer, the measured
observable becomes the stabilizer, and every other row absorbs the pivot.
-/
def collapse (T : Tableau ι) (q p : ι) (outcome : Bool) : Tableau ι where
  destabilizer i :=
    if i = p then T.stabilizer p else absorb q (T.stabilizer p) (T.destabilizer i)
  stabilizer i :=
    if i = p then PauliString.signedZ q outcome
    else absorb q (T.stabilizer p) (T.stabilizer i)

@[simp] theorem collapse_destabilizer_pivot (T : Tableau ι) (q p : ι) (outcome : Bool)
    : (T.collapse q p outcome).destabilizer p = T.stabilizer p :=
  if_pos rfl

@[simp] theorem collapse_stabilizer_pivot (T : Tableau ι) (q p : ι) (outcome : Bool)
    : (T.collapse q p outcome).stabilizer p = PauliString.signedZ q outcome :=
  if_pos rfl

theorem collapse_destabilizer_of_ne (T : Tableau ι) (q : ι) {i p : ι} (outcome : Bool)
    (off : i ≠ p)
    : (T.collapse q p outcome).destabilizer i
      = absorb q (T.stabilizer p) (T.destabilizer i) :=
  if_neg off

theorem collapse_stabilizer_of_ne (T : Tableau ι) (q : ι) {i p : ι} (outcome : Bool)
    (off : i ≠ p)
    : (T.collapse q p outcome).stabilizer i
      = absorb q (T.stabilizer p) (T.stabilizer i) :=
  if_neg off

omit [DecidableEq ι] in
/-- Absorbing a pivot with an X bit clears the bit. -/
theorem absorb_x {q : ι} {pivot : PauliString ι} (bit : pivot.x q = 1)
    (row : PauliString ι)
    : (absorb q pivot row).x q = 0 := by
  have bits : ∀ a : ZMod 2, a ≠ 1 → a = 0 := by decide
  unfold absorb
  split
  · rename_i one
    rw [PauliString.mul_x, Pi.add_apply, bit, one]
    rfl
  · rename_i zero
    exact bits _ zero

omit [DecidableEq ι] in
/-- A row that commutes with the pivot keeps its relations to what commutes with it. -/
theorem form_absorb_left {q : ι} {pivot row other : PauliString ι}
    (commute : pivot.form other = 0)
    : (absorb q pivot row).form other = row.form other := by
  unfold absorb
  split
  · rw [PauliString.form_mul_left, commute, zero_add]
  · rfl

omit [DecidableEq ι] in
theorem form_absorb_right {q : ι} {pivot row other : PauliString ι}
    (commute : other.form pivot = 0)
    : other.form (absorb q pivot row) = other.form row := by
  rw [PauliString.form_comm, form_absorb_left (by rw [PauliString.form_comm, commute]),
    PauliString.form_comm]

omit [DecidableEq ι] in
/-- Two rows that commute with the pivot keep their mutual relation. -/
theorem form_absorb_absorb {q : ι} {pivot row other : PauliString ι}
    (left : pivot.form row = 0) (right : pivot.form other = 0)
    : (absorb q pivot row).form (absorb q pivot other) = row.form other := by
  have back : (absorb q pivot row).form pivot = 0 := by
    rw [form_absorb_left (PauliString.form_self pivot), PauliString.form_comm, left]
  rw [form_absorb_right back, form_absorb_left right]

omit [DecidableEq ι] in
theorem absorb_hermitian {q : ι} {pivot row : PauliString ι} (hp : pivot.Hermitian)
    (hr : row.Hermitian) (commute : pivot.form row = 0)
    : (absorb q pivot row).Hermitian := by
  unfold absorb
  split
  · exact hp.mul hr commute
  · exact hr

theorem Valid.pivot_form {T : Tableau ι} (valid : T.Valid) {i p : ι} (off : i ≠ p)
    : (T.stabilizer p).form (T.destabilizer i) = 0 := by
  rw [PauliString.form_comm, valid.basis.pairing, if_neg off]

/-- A random measurement keeps the symplectic invariant. -/
theorem Valid.collapse {T : Tableau ι} (valid : T.Valid) {q p : ι}
    (bit : (T.stabilizer p).x q = 1) (outcome : Bool)
    : (T.collapse q p outcome).Valid := by
  have commute := valid.basis.stabilizers
  refine {
    basis := { pairing := ?_, destabilizers := ?_, stabilizers := ?_ }
    destabilizerSign := ?_
    stabilizerSign := ?_
  }
  · intro i j
    by_cases hi : i = p <;> by_cases hj : j = p
    · simp [hi, hj, bit]
    · rw [hi, collapse_destabilizer_pivot, collapse_stabilizer_of_ne T q outcome hj,
        form_absorb_right (commute p p), commute, if_neg (Ne.symm hj)]
    · rw [hj, collapse_stabilizer_pivot, PauliString.form_signedZ,
        collapse_destabilizer_of_ne T q outcome hi, absorb_x bit, if_neg hi]
    · rw [collapse_destabilizer_of_ne T q outcome hi, collapse_stabilizer_of_ne T q outcome hj,
        form_absorb_absorb (valid.pivot_form hi) (commute p j), valid.basis.pairing]
  · intro i j
    by_cases hi : i = p <;> by_cases hj : j = p
    · rw [hi, hj, PauliString.form_self]
    · rw [hi, collapse_destabilizer_pivot, collapse_destabilizer_of_ne T q outcome hj,
        form_absorb_right (commute p p), valid.pivot_form hj]
    · rw [hj, collapse_destabilizer_pivot, collapse_destabilizer_of_ne T q outcome hi,
        form_absorb_left (commute p p), PauliString.form_comm, valid.pivot_form hi]
    · rw [collapse_destabilizer_of_ne T q outcome hi, collapse_destabilizer_of_ne T q outcome hj,
        form_absorb_absorb (valid.pivot_form hi) (valid.pivot_form hj),
        valid.basis.destabilizers]
  · intro i j
    by_cases hi : i = p <;> by_cases hj : j = p
    · rw [hi, hj, PauliString.form_self]
    · rw [hi, collapse_stabilizer_pivot, PauliString.form_comm, PauliString.form_signedZ,
        collapse_stabilizer_of_ne T q outcome hj, absorb_x bit]
    · rw [hj, collapse_stabilizer_pivot, PauliString.form_signedZ,
        collapse_stabilizer_of_ne T q outcome hi, absorb_x bit]
    · rw [collapse_stabilizer_of_ne T q outcome hi, collapse_stabilizer_of_ne T q outcome hj,
        form_absorb_absorb (commute p i) (commute p j), commute]
  · intro i
    rcases eq_or_ne i p with rfl | hi
    · rw [collapse_destabilizer_pivot]
      exact valid.stabilizerSign i
    · rw [collapse_destabilizer_of_ne T q outcome hi]
      exact absorb_hermitian (valid.stabilizerSign p) (valid.destabilizerSign i)
        (valid.pivot_form hi)
  · intro i
    rcases eq_or_ne i p with rfl | hi
    · rw [collapse_stabilizer_pivot]
      exact PauliString.signedZ_hermitian q outcome
    · rw [collapse_stabilizer_of_ne T q outcome hi]
      exact absorb_hermitian (valid.stabilizerSign p) (valid.stabilizerSign i) (commute p i)

/-- With a pivot, both outcomes have probability one half. -/
theorem Stabilizes.probability_eq_half {T : Tableau ι} {ψ : StateVector ι}
    (stabilizes : T.Stabilizes ψ) {q p : ι} (bit : (T.stabilizer p).x q = 1)
    (outcome : Bool)
    : StateVector.probability q outcome ψ = 1 / 2 :=
  StateVector.probability_eq_half stabilizes.nonzero ((stabilizes.fixed p).balanced bit) outcome

/-- The collapsed tableau stabilizes the projected vector, whatever the outcome. -/
theorem Stabilizes.collapse {T : Tableau ι} {ψ : StateVector ι}
    (stabilizes : T.Stabilizes ψ) {q p : ι} (bit : (T.stabilizer p).x q = 1)
    (outcome : Bool)
    : (T.collapse q p outcome).Stabilizes (ψ.project q outcome) where
  nonzero := by
    apply StateVector.project_ne_zero
    rw [stabilizes.probability_eq_half bit]
    norm_num
  fixed i := by
    rcases eq_or_ne i p with rfl | hi
    · rw [collapse_stabilizer_pivot]
      exact PauliString.signedZ_fixes_project q outcome ψ
    · rw [collapse_stabilizer_of_ne T q outcome hi]
      refine PauliString.Fixes.project ?_ (absorb_x bit _) outcome
      unfold absorb
      split
      · exact (stabilizes.fixed p).mul (stabilizes.fixed i)
      · exact stabilizes.fixed i

-----------------------------------------------------------------------------------------
-- Determined measurement
-----------------------------------------------------------------------------------------

/-- Multiply a starting row on the left by each listed stabilizer in turn. -/
def product (T : Tableau ι) (start : PauliString ι) (rows : List ι) : PauliString ι :=
  rows.foldl (fun row i => T.stabilizer i * row) start

omit [DecidableEq ι] in
/-- The commutation relations of a product are summed over the listed rows. -/
theorem form_product (T : Tableau ι) (start other : PauliString ι) (rows : List ι)
    : (T.product start rows).form other
      = start.form other + (rows.map (fun i => (T.stabilizer i).form other)).sum := by
  induction rows generalizing start with
  | nil => simp [product]
  | cons i rest ih =>
      have step : T.product start (i :: rest)
          = T.product (T.stabilizer i * start) rest := rfl
      rw [step, ih, PauliString.form_mul_left, List.map_cons, List.sum_cons]
      ring

omit [DecidableEq ι] in
theorem product_fixes (T : Tableau ι) {ψ : StateVector ι}
    (fixed : ∀ i, (T.stabilizer i).Fixes ψ) {start : PauliString ι}
    (starts : start.Fixes ψ) (rows : List ι)
    : (T.product start rows).Fixes ψ := by
  induction rows generalizing start with
  | nil => exact starts
  | cons i rest ih => exact ih ((fixed i).mul starts)

/-- A product of stabilizers is signed: the factors commute with all stabilizers. -/
theorem Valid.product_hermitian {T : Tableau ι} (valid : T.Valid) {start : PauliString ι}
    (sign : start.Hermitian) (commute : ∀ i, (T.stabilizer i).form start = 0)
    (rows : List ι)
    : (T.product start rows).Hermitian := by
  induction rows generalizing start with
  | nil => exact sign
  | cons i rest ih =>
      refine ih ((valid.stabilizerSign i).mul sign (commute i)) ?_
      intro j
      rw [PauliString.form_mul_right, valid.basis.stabilizers, commute, add_zero]

/-- Counting a listed index: the pairing relations sum to membership in the list. -/
theorem Valid.sum_pairing {T : Tableau ι} (valid : T.Valid) (j : ι) {rows : List ι}
    (nodup : rows.Nodup)
    : (rows.map (fun i => (T.stabilizer i).form (T.destabilizer j))).sum
      = if j ∈ rows then 1 else 0 := by
  induction rows with
  | nil => simp
  | cons i rest ih =>
      obtain ⟨fresh, nodup⟩ := List.nodup_cons.mp nodup
      rw [List.map_cons, List.sum_cons, ih nodup, PauliString.form_comm, valid.basis.pairing]
      by_cases same : j = i
      · subst same
        simp [fresh]
      · simp [same]

/-- Some destabilizer has an X bit on `q` when no stabilizer has: otherwise `Z` on `q` would
commute with the whole basis.
-/
theorem Valid.exists_destabilizer {T : Tableau ι} (valid : T.Valid) {q : ι}
    (determined : ∀ i, (T.stabilizer i).x q = 0)
    : ∃ i, (T.destabilizer i).x q = 1 := by
  have bits : ∀ a : ZMod 2, a ≠ 1 → a = 0 := by decide
  by_contra none
  push Not at none
  have zero := valid.basis.bits_eq_zero (P := PauliString.signedZ q false)
    (fun i => by rw [PauliString.form_comm, PauliString.form_signedZ, bits _ (none i)])
    (fun i => by rw [PauliString.form_comm, PauliString.form_signedZ, determined i])
  have bit := congrFun zero (Sum.inr q)
  simp [PauliString.bits, PauliString.signedZ] at bit

/-- The product of the stabilizers whose partner has an X bit on `q` is plus or minus `Z` on
`q`: both have the same commutation relations with the basis.
-/
theorem Valid.product_eq_signedZ {T : Tableau ι} (valid : T.Valid) {q m : ι}
    (determined : ∀ i, (T.stabilizer i).x q = 0) {rest : List ι} (nodup : (m :: rest).Nodup)
    (listed : ∀ i, i ∈ m :: rest ↔ (T.destabilizer i).x q = 1)
    : T.product (T.stabilizer m) rest
      = PauliString.signedZ q (decide ((T.product (T.stabilizer m) rest).phase = 2)) := by
  have bits : ∀ a : ZMod 2, a ≠ 1 → a = 0 := by decide
  set row := T.product (T.stabilizer m) rest with rowDef
  have withDestabilizer (j : ι) : row.form (T.destabilizer j) = (T.destabilizer j).x q := by
    have sum := valid.sum_pairing j nodup
    rw [List.map_cons, List.sum_cons, ← form_product, ← rowDef] at sum
    rw [sum]
    split
    · rename_i member
      exact ((listed j).mp member).symm
    · rename_i absent
      exact (bits _ (fun one => absent ((listed j).mpr one))).symm
  have withStabilizer (j : ι) : row.form (T.stabilizer j) = 0 := by
    rw [rowDef, form_product, valid.basis.stabilizers, zero_add]
    apply List.sum_eq_zero
    intro value member
    obtain ⟨i, _, rfl⟩ := List.mem_map.mp member
    exact valid.basis.stabilizers i j
  obtain ⟨sameX, sameZ⟩ := valid.basis.bits_eq (P := row) (Q := PauliString.signedZ q false)
    (fun j => by
      rw [withDestabilizer, PauliString.form_comm (PauliString.signedZ q false),
        PauliString.form_signedZ])
    (fun j => by
      rw [withStabilizer, PauliString.form_comm (PauliString.signedZ q false),
        PauliString.form_signedZ, determined])
  have sign : row.Hermitian :=
    valid.product_hermitian (valid.stabilizerSign m)
      (fun i => valid.basis.stabilizers i m) rest
  have phase : row.phase = if decide (row.phase = 2) then 2 else 0 := by
    rcases (parity_eq_zero_iff _).mp sign with zero | two
    · rw [zero]
      rfl
    · rw [two]
      rfl
  exact PauliString.ext sameX sameZ phase

/-- A determined measurement reports an outcome of probability one and disturbs nothing. -/
theorem Stabilizes.determined {T : Tableau ι} {ψ : StateVector ι}
    (stabilizes : T.Stabilizes ψ) {q : ι} {outcome : Bool}
    (fixed : (PauliString.signedZ q outcome).Fixes ψ)
    : StateVector.probability q outcome ψ = 1 ∧ T.Stabilizes (ψ.project q outcome) := by
  refine ⟨StateVector.probability_eq_one stabilizes.nonzero fixed.project_eq, ?_⟩
  rw [fixed.project_eq]
  exact stabilizes

end Tableau

end Stabilizer
