import Sabot.Stabilizer.Clifford

/-! Symplectic bases of the Pauli strings: destabilizers paired with commuting stabilizers.
The pairing makes the strings independent, so a string is determined up to its phase by the
strings of the basis that it anticommutes with.
-/

namespace Stabilizer

open Matrix

variable {ι : Type*} [Fintype ι] [DecidableEq ι]

/-- Each destabilizer anticommutes with its own stabilizer and every other pair commutes. -/
structure SymplecticBasis (destabilizer stabilizer : ι → PauliString ι) : Prop where
  pairing : ∀ i j, (destabilizer i).form (stabilizer j) = if i = j then 1 else 0
  destabilizers : ∀ i j, (destabilizer i).form (destabilizer j) = 0
  stabilizers : ∀ i j, (stabilizer i).form (stabilizer j) = 0

/-- The X bits of a string followed by its Z bits. -/
def PauliString.bits (P : PauliString ι) : ι ⊕ ι → ZMod 2 := Sum.elim P.x P.z

namespace SymplecticBasis

/-- All strings of the basis, one per row. -/
def rows (destabilizer stabilizer : ι → PauliString ι) : Matrix (ι ⊕ ι) (ι ⊕ ι) (ZMod 2) :=
  Matrix.of (Sum.elim (fun i => (destabilizer i).bits) (fun i => (stabilizer i).bits))

/-- The strings of the basis as columns, with Z bits above X bits and the two halves
exchanged, so that products with `rows` are commutation forms with the partners.
-/
def partners (destabilizer stabilizer : ι → PauliString ι)
    : Matrix (ι ⊕ ι) (ι ⊕ ι) (ZMod 2) :=
  Matrix.of fun column row =>
    Sum.elim
      (fun i => Sum.elim (stabilizer i).z (stabilizer i).x column)
      (fun i => Sum.elim (destabilizer i).z (destabilizer i).x column)
      row

variable {destabilizer stabilizer : ι → PauliString ι}

omit [DecidableEq ι] in
/-- Pairing bits with a partner column is the commutation form. -/
theorem dotProduct_partner (P Q : PauliString ι)
    : ∑ column, P.bits column * Sum.elim Q.z Q.x column = P.form Q := by
  simp only [PauliString.bits, Fintype.sum_sum_type, Sum.elim_inl, Sum.elim_inr,
    PauliString.form, Finset.sum_add_distrib]

/-- The pairing relations say that `partners` inverts `rows` on the right. -/
theorem rows_mul_partners (basis : SymplecticBasis destabilizer stabilizer)
    : rows destabilizer stabilizer * partners destabilizer stabilizer = 1 := by
  ext row column
  rw [Matrix.mul_apply]
  rcases row with i | i <;> rcases column with j | j <;>
    simp only [rows, partners, Matrix.of_apply, Sum.elim_inl, Sum.elim_inr,
      dotProduct_partner]
  · rw [basis.pairing, Matrix.one_apply]
    simp
  · rw [basis.destabilizers, Matrix.one_apply]
    simp
  · rw [basis.stabilizers, Matrix.one_apply]
    simp
  · rw [PauliString.form_comm, basis.pairing, Matrix.one_apply]
    simp [eq_comm]

/-- A string that commutes with the whole basis has no bits, since `partners` has `rows` as
a left inverse too.
-/
theorem bits_eq_zero (basis : SymplecticBasis destabilizer stabilizer) {P : PauliString ι}
    (withDestabilizers : ∀ i, P.form (destabilizer i) = 0)
    (withStabilizers : ∀ i, P.form (stabilizer i) = 0)
    : P.bits = 0 := by
  have inverse := mul_eq_one_comm.mp basis.rows_mul_partners
  have vanish : P.bits ᵥ* partners destabilizer stabilizer = 0 := by
    ext row
    rcases row with i | i <;>
      simp only [Matrix.vecMul, dotProduct, partners, Matrix.of_apply, Sum.elim_inl,
        Sum.elim_inr, dotProduct_partner, Pi.zero_apply]
    · exact withStabilizers i
    · exact withDestabilizers i
  calc P.bits
      = P.bits ᵥ* (partners destabilizer stabilizer * rows destabilizer stabilizer) := by
        rw [inverse, Matrix.vecMul_one]
    _ = (P.bits ᵥ* partners destabilizer stabilizer) ᵥ* rows destabilizer stabilizer := by
        rw [Matrix.vecMul_vecMul]
    _ = 0 := by rw [vanish, Matrix.zero_vecMul]

/-- Strings with the same commutation relations to the basis have the same bits. -/
theorem bits_eq (basis : SymplecticBasis destabilizer stabilizer) {P Q : PauliString ι}
    (withDestabilizers : ∀ i, P.form (destabilizer i) = Q.form (destabilizer i))
    (withStabilizers : ∀ i, P.form (stabilizer i) = Q.form (stabilizer i))
    : P.x = Q.x ∧ P.z = Q.z := by
  have double : ∀ a : ZMod 2, a + a = 0 := by decide
  have product : (P * Q).bits = 0 := by
    apply basis.bits_eq_zero
    · intro i
      rw [PauliString.form_mul_left, withDestabilizers, double]
    · intro i
      rw [PauliString.form_mul_left, withStabilizers, double]
  have cancel : ∀ a b : ZMod 2, a + b = 0 → a = b := by decide
  constructor
  · ext j
    exact cancel _ _ (congrFun product (Sum.inl j))
  · ext j
    exact cancel _ _ (congrFun product (Sum.inr j))

/-- The strings of a symplectic basis are linearly independent. -/
theorem linearIndependent (basis : SymplecticBasis destabilizer stabilizer)
    : LinearIndependent (ZMod 2)
        (Sum.elim (fun i => (destabilizer i).bits) (fun i => (stabilizer i).bits)) := by
  have unit : IsUnit (rows destabilizer stabilizer) :=
    .of_mul_eq_one _ basis.rows_mul_partners
  exact Matrix.linearIndependent_rows_of_isUnit unit

/-- Row maps that keep the commutation form keep symplectic bases. -/
theorem map (basis : SymplecticBasis destabilizer stabilizer)
    {g : PauliString ι → PauliString ι} (keeps : ∀ P Q, (g P).form (g Q) = P.form Q)
    : SymplecticBasis (fun i => g (destabilizer i)) (fun i => g (stabilizer i)) where
  pairing i j := (keeps _ _).trans (basis.pairing i j)
  destabilizers i j := (keeps _ _).trans (basis.destabilizers i j)
  stabilizers i j := (keeps _ _).trans (basis.stabilizers i j)

end SymplecticBasis

end Stabilizer
