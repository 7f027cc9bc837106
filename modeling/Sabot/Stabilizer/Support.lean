import Sabot.Stabilizer.NormalForm

/-! The basis states that occur in the vector of a tableau in normal form: those that all
stabilizers without X bits fix.
-/

namespace Stabilizer

open Matrix Echelon

section Strings

variable {ι : Type*} [Fintype ι]

theorem iPow_eq_one_iff (k : ZMod 4) : iPow k = 1 ↔ k = 0 := by
  constructor
  · intro one
    have square : iPow (k + k) = 1 := by rw [iPow_add, one, one_mul]
    have doubled : ∀ a : ZMod 4, a + a = 0 ∨ a + a = 2 := by decide
    have even : ∀ a : ZMod 4, a + a = 0 → a = 0 ∨ a = 2 := by decide
    have apart : (-1 : ℂ) ≠ 1 := by norm_num
    rcases doubled k with zero | two
    · rcases even k zero with rfl | rfl
      · rfl
      · exact absurd (iPow_two ▸ one) apart
    · rw [two, iPow_two] at square
      exact absurd square apart
  · rintro rfl
    exact iPow_zero

/-- Without X bits a string multiplies a basis state by the sign of its phase and the overlap. -/
theorem PauliString.entry_eq {P : PauliString ι} (empty : P.x = 0) (b : ι → ZMod 2)
    : P.entry b = P.phase + signExponent (P.z ⬝ᵥ b) := by
  have column : ∀ z b : ZMod 2, columnEntry 0 z b = signExponent (z * b) := by decide
  simp only [entry, empty, Pi.zero_apply, column, dotProduct, map_sum]

/-- Such a string fixes every basis state that occurs in a vector which it fixes. -/
theorem PauliString.Fixes.entry_eq_zero {P : PauliString ι} {ψ : StateVector ι}
    (fixed : P.Fixes ψ) (empty : P.x = 0) {b : ι → ZMod 2} (occurs : ψ b ≠ 0)
    : P.entry b = 0 := by
  have here := congrFun fixed b
  rw [act, empty, add_zero] at here
  exact (iPow_eq_one_iff _).mp (mul_right_cancel₀ occurs (here.trans (one_mul _).symm))

end Strings

namespace Tableau

variable {n g : Nat} {T : Tableau (Fin n)}

/-- X bits that the stabilizers without X bits do not see are those of an element of the group. -/
theorem NormalForm.exists_mem_group (form : T.NormalForm g) (valid : T.Valid) {v : Fin n → ZMod 2}
    (unseen : ∀ i : Fin n, g ≤ i → (T.stabilizer i).z ⬝ᵥ v = 0)
    : ∃ P ∈ T.group, P.x = v := by
  have bits : ∀ a : ZMod 2, (if a = 1 then 1 else 0) = a := by decide
  have double : ∀ a : ZMod 2, a + a = 0 := by decide
  -- Z bits that make the string commute with the stabilizers.
  obtain ⟨z, solves⟩ := form.xLeads.exists_solution (fun i => (T.stabilizer i).z ⬝ᵥ v)
  let Q : PauliString (Fin n) := ⟨v, z, 0⟩
  have commutes (i : Fin n) : Q.form (T.stabilizer i) = 0 := by
    have split : Q.form (T.stabilizer i)
        = (T.stabilizer i).z ⬝ᵥ v + (T.stabilizer i).x ⬝ᵥ z := by
      simp only [PauliString.form, Q, dotProduct, ← Finset.sum_add_distrib, mul_comm]
    rw [split]
    by_cases before : (i : Nat) < g
    · rw [show (T.stabilizer i).x ⬝ᵥ z = _ from solves i (Nat.zero_le i) before]
      exact double _
    · rw [unseen i (not_lt.mp before), form.xEmpty i (not_lt.mp before), zero_dotProduct,
        add_zero]
  let chosen := (List.finRange n).filter fun i => Q.form (T.destabilizer i) = 1
  have nodup : chosen.Nodup := (List.nodup_finRange n).filter _
  have none (P : PauliString (Fin n)) : (1 : PauliString (Fin n)).form P = 0 := by
    simp [PauliString.form]
  have member := T.product_mem_group T.group.one_mem chosen
  refine ⟨_, member, (valid.basis.bits_eq (Q := Q) (fun j => ?_) (fun j => ?_)).1⟩
  · rw [form_product, none, zero_add, valid.sum_pairing j nodup, ← bits (Q.form _)]
    simp [chosen]
  · rw [commutes, PauliString.form_comm]
    exact valid.form_group member j

/-- The support of the vector of a tableau in normal form. -/
theorem NormalForm.occurs_iff (form : T.NormalForm g) (valid : T.Valid)
    {ψ : StateVector (Fin n)} (stabilizes : T.Stabilizes ψ) (b : Fin n → ZMod 2)
    : ψ b ≠ 0 ↔ ∀ i : Fin n, g ≤ i → (T.stabilizer i).entry b = 0 := by
  constructor
  · intro occurs i after
    exact (stabilizes.fixed i).entry_eq_zero (form.xEmpty i after) occurs
  · intro fixed
    obtain ⟨a, occurs⟩ := Function.ne_iff.mp stabilizes.nonzero
    have sign : ∀ (p : ZMod 4) (u v : ZMod 2), p + signExponent u = 0 → p + signExponent v = 0
        → u + v = 0 := by
      decide
    have unseen (i : Fin n) (after : g ≤ i) : (T.stabilizer i).z ⬝ᵥ (a + b) = 0 := by
      have empty := form.xEmpty i after
      have first := (stabilizes.fixed i).entry_eq_zero empty occurs
      have second := fixed i after
      rw [PauliString.entry_eq empty] at first second
      rw [dotProduct_add]
      exact sign _ _ _ first second
    obtain ⟨P, member, flips⟩ := form.exists_mem_group valid unseen
    have norm := (stabilizes.fixes member).norm_eq a
    have double : ∀ x y : ZMod 2, x + (x + y) = y := by decide
    have target : a + P.x = b := by
      rw [flips]
      exact funext fun q => double _ _
    rw [target] at norm
    rw [← norm_ne_zero_iff, norm, norm_ne_zero_iff]
    exact occurs

end Tableau

end Stabilizer
