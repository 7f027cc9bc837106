import Sabot.Stabilizer.Tableau

/-! Row operations of Gaussian elimination on tableaux. Exchanging two pairs of rows, and
multiplying one stabilizer into another with the destabilizers the other way round, keep the
symplectic invariant.
-/

namespace Stabilizer

variable {ι : Type*} [Fintype ι] [DecidableEq ι]

namespace Tableau

/-- Exchange the rows of `a` and `b`, destabilizers and stabilizers. -/
def swap (a b : ι) (T : Tableau ι) : Tableau ι where
  destabilizer i := T.destabilizer (Equiv.swap a b i)
  stabilizer i := T.stabilizer (Equiv.swap a b i)

/-- Left-multiply stabilizer `a` by stabilizer `b`, and destabilizer `b` by destabilizer `a`. -/
def addRow (a b : ι) (T : Tableau ι) : Tableau ι where
  destabilizer := Function.update T.destabilizer b (T.destabilizer a * T.destabilizer b)
  stabilizer := Function.update T.stabilizer a (T.stabilizer b * T.stabilizer a)

variable {T : Tableau ι}

theorem Valid.swap (valid : T.Valid) (a b : ι) : (T.swap a b).Valid where
  basis := {
    pairing := by
      intro i j
      simp only [Tableau.swap, valid.basis.pairing, (Equiv.swap a b).injective.eq_iff]
    destabilizers := fun i j => valid.basis.destabilizers _ _
    stabilizers := fun i j => valid.basis.stabilizers _ _
  }
  destabilizerSign i := valid.destabilizerSign _
  stabilizerSign i := valid.stabilizerSign _

/-- The form of an updated row, one factor at a time. -/
theorem form_update_left (row : ι → PauliString ι) (a b i : ι) (Q : PauliString ι)
    : (Function.update row a (row b * row a) i).form Q
      = (row i).form Q + if i = a then (row b).form Q else 0 := by
  by_cases here : i = a
  · subst here
    rw [Function.update_self, if_pos rfl, PauliString.form_mul_left, add_comm]
  · rw [Function.update_of_ne here, if_neg here, add_zero]

theorem form_update_right (row : ι → PauliString ι) (a b i : ι) (P : PauliString ι)
    : P.form (Function.update row a (row b * row a) i)
      = P.form (row i) + if i = a then P.form (row b) else 0 := by
  rw [PauliString.form_comm, form_update_left, PauliString.form_comm (row i),
    PauliString.form_comm (row b)]

theorem hermitian_update {row : ι → PauliString ι} (signs : ∀ i, (row i).Hermitian)
    (commute : ∀ i j, (row i).form (row j) = 0) (a b i : ι)
    : (Function.update row a (row b * row a) i).Hermitian := by
  by_cases here : i = a
  · rw [here, Function.update_self]
    exact (signs b).mul (signs a) (commute b a)
  · rw [Function.update_of_ne here]
    exact signs i

theorem Valid.addRow (valid : T.Valid) {a b : ι} (distinct : a ≠ b) : (T.addRow a b).Valid where
  basis := {
    pairing := by
      intro i j
      have twice : ∀ x : ZMod 2, x + x = 0 := by decide
      simp only [Tableau.addRow, form_update_left, form_update_right, valid.basis.pairing]
      by_cases hi : i = b <;> by_cases hj : j = a
      · subst hi hj
        simp [distinct, distinct.symm, twice]
      · subst hi
        simp [hj, Ne.symm hj]
      · subst hj
        simp [hi]
      · simp [hi, hj]
    destabilizers := by
      intro i j
      simp [Tableau.addRow, form_update_left, form_update_right, valid.basis.destabilizers]
    stabilizers := by
      intro i j
      simp [Tableau.addRow, form_update_left, form_update_right, valid.basis.stabilizers]
  }
  destabilizerSign := hermitian_update valid.destabilizerSign valid.basis.destabilizers b a
  stabilizerSign := hermitian_update valid.stabilizerSign valid.basis.stabilizers a b

end Tableau

end Stabilizer
