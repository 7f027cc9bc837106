import Sabot.Stabilizer.PauliGroup

/-! Signed Pauli strings as matrices: the tensor product of one two-by-two matrix for each qubit,
times a power of `i`. The product of strings is the product of these matrices.
-/

namespace Stabilizer

variable {ι : Type*} [Fintype ι]

/-- The matrices I, X, Y and Z for `(x, z)` equal to `(0, 0)`, `(1, 0)`, `(1, 1)` and `(0, 1)`. -/
noncomputable def columnMatrix (x z : ZMod 2) : Matrix (Fin 2) (Fin 2) ℂ :=
  if x = 0 then if z = 0 then 1 else !![1, 0; 0, -1]
  else if z = 0 then !![0, 1; 1, 0] else !![0, -Complex.I; Complex.I, 0]

/-- Matrices over the computational basis. -/
abbrev Operator (ι : Type*) := Matrix (ι → Fin 2) (ι → Fin 2) ℂ

/-- The tensor product of one matrix for each qubit. -/
noncomputable def tensor (A : ι → Matrix (Fin 2) (Fin 2) ℂ) : Operator ι :=
  Matrix.of (fun b c => ∏ j, A j (b j) (c j))

/-- The matrix that a string denotes. -/
noncomputable def PauliString.toMatrix (P : PauliString ι) : Operator ι :=
  iPow P.phase • tensor (fun j => columnMatrix (P.x j) (P.z j))

-----------------------------------------------------------------------------------------
-- Products
-----------------------------------------------------------------------------------------

theorem tensor_mul [DecidableEq ι] (A B : ι → Matrix (Fin 2) (Fin 2) ℂ)
    : tensor A * tensor B = tensor (fun j => A j * B j) := by
  ext b c
  simp only [Matrix.mul_apply, tensor, Matrix.of_apply]
  rw [Finset.prod_univ_sum, Fintype.piFinset_univ]
  exact Finset.sum_congr rfl (fun d _ => Finset.prod_mul_distrib.symm)

theorem tensor_smul (k : ι → ℂ) (A : ι → Matrix (Fin 2) (Fin 2) ℂ)
    : tensor (fun j => k j • A j) = (∏ j, k j) • tensor A := by
  ext b c
  simp [tensor, Finset.prod_mul_distrib]

theorem iPow_sum (f : ι → ZMod 4) : iPow (∑ j, f j) = ∏ j, iPow (f j) := by
  classical
  induction (Finset.univ : Finset ι) using Finset.induction_on with
  | empty => simp
  | insert j others fresh ih => rw [Finset.sum_insert fresh, Finset.prod_insert fresh, iPow_add, ih]

theorem iPow_one : iPow 1 = Complex.I := pow_one Complex.I

theorem iPow_neg_one : iPow (-1) = -Complex.I := by
  rw [show (-1 : ZMod 4) = 2 + 1 by decide, iPow_add, iPow_two, iPow_one]
  ring

/-- XY, YZ and ZX are `i` times the third matrix, and the opposite products `-i` times it. -/
theorem columnMatrix_mul (x z u v : ZMod 2)
    : columnMatrix x z * columnMatrix u v
      = iPow (columnPhase x z u v) • columnMatrix (x + u) (z + v) := by
  have bits (b : ZMod 2) : b = 0 ∨ b = 1 := by
    revert b
    decide
  have double : (1 + 1 : ZMod 2) = 0 := by decide
  rcases bits x with rfl | rfl <;> rcases bits z with rfl | rfl <;>
    rcases bits u with rfl | rfl <;> rcases bits v with rfl | rfl <;>
    simp [columnMatrix, columnPhase, double, iPow_one, iPow_neg_one, Matrix.one_fin_two]

namespace PauliString

variable [DecidableEq ι] (P Q : PauliString ι)

theorem toMatrix_mul : (P * Q).toMatrix = P.toMatrix * Q.toMatrix := by
  have columns : tensor (fun j => columnMatrix (P.x j) (P.z j) * columnMatrix (Q.x j) (Q.z j))
      = iPow (∑ j, columnPhase (P.x j) (P.z j) (Q.x j) (Q.z j))
        • tensor (fun j => columnMatrix (P.x j + Q.x j) (P.z j + Q.z j)) := by
    simp only [columnMatrix_mul, tensor_smul, iPow_sum]
  rw [toMatrix, toMatrix, toMatrix, smul_mul_smul_comm, tensor_mul, columns, smul_smul, mul_phase,
    iPow_add, iPow_add]
  rfl

omit [DecidableEq ι] in
theorem toMatrix_flip (bit : ZMod 2)
    : (flip bit P).toMatrix = iPow (signExponent bit) • P.toMatrix := by
  rw [toMatrix, toMatrix, flip_phase, iPow_add, smul_smul]
  rfl

/-- A string's matrix has an inverse, so it is not zero. -/
theorem toMatrix_ne_zero : P.toMatrix ≠ 0 := by
  intro zero
  have product := toMatrix_mul P P⁻¹
  rw [mul_inv_cancel, zero, zero_mul] at product
  have entry := congrFun (congrFun product 0) 0
  simp [toMatrix, tensor, columnMatrix] at entry

/-- Exchanging two strings negates the product when they anticommute. -/
theorem toMatrix_comm
    : P.toMatrix * Q.toMatrix = iPow (signExponent (P.form Q)) • (Q.toMatrix * P.toMatrix) := by
  rw [← toMatrix_mul, ← toMatrix_mul, mul_eq_flip P Q, toMatrix_flip]

/-- The two cases of the commutation form; no product of strings is its own negative. -/
theorem toMatrix_comm_cases
    : (P.form Q = 0 ∧ P.toMatrix * Q.toMatrix = Q.toMatrix * P.toMatrix
        ∧ P.toMatrix * Q.toMatrix ≠ -(Q.toMatrix * P.toMatrix))
      ∨ (P.form Q = 1 ∧ P.toMatrix * Q.toMatrix = -(Q.toMatrix * P.toMatrix)
        ∧ P.toMatrix * Q.toMatrix ≠ Q.toMatrix * P.toMatrix) := by
  have bits : ∀ b : ZMod 2, b = 0 ∨ b = 1 := by decide
  have nonzero : Q.toMatrix * P.toMatrix ≠ 0 := by
    rw [← toMatrix_mul]
    exact toMatrix_ne_zero _
  have cancel {M : Operator ι} (negative : M = -M) : M = 0 := by
    ext b c
    exact self_eq_neg.mp (congrFun (congrFun negative b) c)
  have exchange := toMatrix_comm P Q
  cases bits (P.form Q) with
  | inl commute =>
      rw [commute, map_zero, iPow_zero, one_smul] at exchange
      rw [exchange]
      exact Or.inl ⟨commute, rfl, fun negative => nonzero (cancel negative)⟩
  | inr anticommute =>
      rw [anticommute, show signExponent 1 = 2 from rfl, iPow_two, neg_one_smul] at exchange
      rw [exchange]
      exact Or.inr ⟨anticommute, rfl, fun negative => nonzero (cancel negative.symm)⟩

end PauliString

end Stabilizer
