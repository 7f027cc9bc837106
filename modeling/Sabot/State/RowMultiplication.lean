import Sabot.State.Refinement
import Sabot.Stabilizer.Matrices

/-! `rowmult` multiplies the operators that two rows denote, and the parity of the phase that
`clifford` returns tells whether they commute.
-/

namespace Sabot.State

open Stabilizer ChpState

/-- The operator of a row: `i^r` times the tensor product of I, X, Y and Z over its columns. -/
noncomputable def Row.operator (n : Nat) (R : Row) : Operator (Fin n) :=
  Complex.I ^ R.r.toNat
    • tensor (fun q : Fin n => columnMatrix (scalar (R.bitX q)) (scalar (R.bitZ q)))

namespace Row

variable {n : Nat} {R : Row}

/-- The operator of a row is the matrix of the string that it stores. -/
theorem WellFormed.operator_eq (formed : R.WellFormed n)
    : R.operator n = (R.toPauli n).toMatrix := by
  have reduced : ∀ r : Int, 0 ≤ r → r < 4 → ((r : ZMod 4)).val = r.toNat := by
    intro r nonneg below
    interval_cases r <;> rfl
  rw [operator, PauliString.toMatrix, iPow]
  simp only [toPauli, reduced R.r formed.phaseNonneg formed.phaseLt]

/-- The parity of a product's phase, from whether the operators commute or anticommute. -/
theorem even_productPhase_iff {A B : Row} {words : Nat} (formedA : A.WellFormed n)
    (formedB : B.WellFormed n) (enough : n ≤ 32 * words)
    : Even (productPhase words A B)
      ↔ (B.operator n * A.operator n = A.operator n * B.operator n ∧ Even (A.r + B.r))
        ∨ (B.operator n * A.operator n = -(A.operator n * B.operator n) ∧ Odd (A.r + B.r)) := by
  have even (e : Int) : Even e ↔ parity (e : ZMod 4) = 0 := by
    rw [map_intCast, ZMod.intCast_zmod_eq_zero_iff_dvd, even_iff_two_dvd]
    norm_cast
  have odd (e : Int) : Odd e ↔ parity (e : ZMod 4) = 1 := by
    have bits : ∀ b : ZMod 2, b = 1 ↔ b ≠ 0 := by decide
    rw [← Int.not_even_iff_odd, even, bits]
  have product := congrArg PauliString.phase (formedA.toPauli_product formedB enough)
  have phase : parity ((productPhase words A B : Int) : ZMod 4)
      = parity ((A.r + B.r : Int) : ZMod 4) + (B.toPauli n).form (A.toPauli n) := by
    rw [show ((productPhase words A B : Int) : ZMod 4) = _ from product, PauliString.parity_mul,
      Int.cast_add, map_add, add_comm (parity (A.r : ZMod 4))]
    rfl
  have sums : ∀ a : ZMod 2, (a + 1 = 0 ↔ a = 1) := by decide
  rw [even, even, odd, phase, formedA.operator_eq, formedB.operator_eq]
  cases (B.toPauli n).toMatrix_comm_cases (A.toPauli n) with
  | inl commute =>
      obtain ⟨form, equal, different⟩ := commute
      simp only [form, equal, add_zero, true_and]
      rw [equal] at different
      simp [different]
  | inr anticommute =>
      obtain ⟨form, negative, different⟩ := anticommute
      simp only [form, negative, sums, true_and]
      rw [negative] at different
      simp [different]

end Row

/-- After `rowmult(a, b)` row `a` denotes the product of the operators of row `b` and row `a`, its
phase is reduced, and no other row has changed. The phase is even exactly when the rows commute
and their phases have an even sum, or they anticommute and the sum is odd.
-/
theorem rowmult_multiplies (d : Discipline) {s : ChpState} (layout : s.Layout) {a b : Nat}
    (insideA : a ≤ 2 * s.n) (insideB : b ≤ 2 * s.n) (distinct : a ≠ b)
    (formedA : (s.row a).WellFormed s.n) (formedB : (s.row b).WellFormed s.n)
    : ∃ t phase, rowmult d a b s = some t ∧ clifford d s a b = some phase
        ∧ (t.row a).operator s.n = (s.row b).operator s.n * (s.row a).operator s.n
        ∧ 0 ≤ (t.row a).r ∧ (t.row a).r ≤ 3 ∧ (t.row a).r = phase
        ∧ (∀ j ≤ 2 * s.n, j ≠ a → t.row j = s.row j)
        ∧ (Even phase
          ↔ ((s.row b).operator s.n * (s.row a).operator s.n
                = (s.row a).operator s.n * (s.row b).operator s.n
              ∧ Even ((s.row a).r + (s.row b).r))
            ∨ ((s.row b).operator s.n * (s.row a).operator s.n
                = -((s.row a).operator s.n * (s.row b).operator s.n)
              ∧ Odd ((s.row a).r + (s.row b).r))) := by
  have enough : s.n ≤ 32 * s.over32 := by
    rw [layout.over32_eq]
    omega
  obtain ⟨t, ran, _, rows⟩ := rowmult_yields layout d insideA insideB distinct
  have row : t.row a = Row.product s.over32 (s.row a) (s.row b) := by
    rw [rows a insideA, Function.update_self]
  have formed := formedA.product formedB s.over32
  refine ⟨t, _, ran, clifford_eq layout d insideA insideB, ?_, ?_, ?_, ?_, ?_,
    Row.even_productPhase_iff formedA formedB enough⟩
  · rw [row, formed.operator_eq, formedA.toPauli_product formedB enough,
      PauliString.toMatrix_mul, formedA.operator_eq, formedB.operator_eq]
  · rw [row]
    exact formed.phaseNonneg
  · rw [row]
    have := formed.phaseLt
    omega
  · rw [row]
    rfl
  · intro j inside other
    rw [rows j inside, Function.update_of_ne other]

/-- Multiplying the destabilizer X of a new qubit by its stabilizer Z. -/
theorem rowmult_multiplies_newQubit
    : ∃ s t, s.n = 1 ∧ rowmult .allocated 0 1 s = some t
        ∧ (t.row 0).operator s.n = (s.row 1).operator s.n * (s.row 0).operator s.n := by
  have granted : Granted (Stream'.const (some 0)) := fun _ _ => rfl
  obtain ⟨s, _, sound, _⟩ :=
    initState_refines (by decide : 1 < 2 ^ 31) .allocated (.stale 0) granted
  have qubits : s.n = 1 := sound.qubits
  have formed (j : Nat) (below : j < 2) : (s.row j).WellFormed s.n := by
    rw [qubits]
    exact sound.rows j below
  obtain ⟨t, _, ran, _, product, _⟩ := rowmult_multiplies .allocated sound.layout (a := 0) (b := 1)
    (by omega) (by omega) (by decide) (formed 0 (by decide)) (formed 1 (by decide))
  exact ⟨s, t, qubits, ran, product⟩

end Sabot.State
