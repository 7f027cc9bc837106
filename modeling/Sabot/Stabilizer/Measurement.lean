import Sabot.Stabilizer.StateVector

/-! Outcome probabilities of a computational basis measurement on a stabilized vector.
A stabilizer with an X bit on the measured qubit makes both outcomes equally likely; a signed
Z stabilizer makes its own outcome certain.
-/

namespace Stabilizer

variable {ι : Type*} [Fintype ι] [DecidableEq ι]

-----------------------------------------------------------------------------------------
-- Weights
-----------------------------------------------------------------------------------------

namespace StateVector

/-- The squared norm. -/
noncomputable def weight (ψ : StateVector ι) : ℝ := ∑ b, ‖ψ b‖ ^ 2

/-- The probability of reading `outcome` on qubit `q`, by Born's rule. -/
noncomputable def probability (q : ι) (outcome : Bool) (ψ : StateVector ι) : ℝ :=
  weight (project q outcome ψ) / weight ψ

theorem weight_eq_zero_iff (ψ : StateVector ι) : weight ψ = 0 ↔ ψ = 0 := by
  rw [weight, Finset.sum_eq_zero_iff_of_nonneg (fun b _ => sq_nonneg ‖ψ b‖)]
  constructor
  · intro zero
    ext b
    simpa using zero b (Finset.mem_univ b)
  · rintro rfl
    simp

theorem weight_ne_zero {ψ : StateVector ι} (nonzero : ψ ≠ 0) : weight ψ ≠ 0 :=
  fun zero => nonzero ((weight_eq_zero_iff ψ).mp zero)

/-- Every basis state belongs to exactly one outcome. -/
theorem weight_project_add (q : ι) (ψ : StateVector ι)
    : weight (project q false ψ) + weight (project q true ψ) = weight ψ := by
  have bits : ∀ a : ZMod 2, a ≠ 1 → a = 0 := by decide
  rw [weight, weight, weight, ← Finset.sum_add_distrib]
  apply Finset.sum_congr rfl
  intro b _
  by_cases one : b q = 1
  · simp [project, one]
  · simp [project, bits _ one]

/-- Projecting onto a certain outcome changes nothing, so its probability is one. -/
theorem probability_eq_one {q : ι} {outcome : Bool} {ψ : StateVector ι} (nonzero : ψ ≠ 0)
    (certain : project q outcome ψ = ψ)
    : probability q outcome ψ = 1 := by
  rw [probability, certain]
  exact div_self (weight_ne_zero nonzero)

/-- Two outcomes of equal weight are equally likely. -/
theorem probability_eq_half {q : ι} {ψ : StateVector ι} (nonzero : ψ ≠ 0)
    (balanced : weight (project q false ψ) = weight (project q true ψ)) (outcome : Bool)
    : probability q outcome ψ = 1 / 2 := by
  have total := weight_project_add q ψ
  have half : weight (project q outcome ψ) = weight ψ / 2 := by
    cases outcome <;> linarith
  rw [probability, half]
  field_simp [weight_ne_zero nonzero]

/-- An outcome of positive probability leaves a nonzero vector. -/
theorem project_ne_zero {q : ι} {outcome : Bool} {ψ : StateVector ι}
    (likely : probability q outcome ψ ≠ 0)
    : project q outcome ψ ≠ 0 := by
  intro zero
  apply likely
  rw [probability, (weight_eq_zero_iff _).mpr zero, zero_div]

end StateVector

-----------------------------------------------------------------------------------------
-- Stabilizers and projections
-----------------------------------------------------------------------------------------

namespace PauliString

open StateVector

omit [DecidableEq ι] in
/-- A fixed vector has equal moduli along the orbit of the string's X bits. -/
theorem Fixes.norm_eq {P : PauliString ι} {ψ : StateVector ι} (fixed : P.Fixes ψ)
    (b : ι → ZMod 2)
    : ‖ψ (b + P.x)‖ = ‖ψ b‖ := by
  have entry := congrFun fixed b
  rw [← entry]
  simp [act, norm_iPow]

/-- A stabilizer with an X bit on `q` exchanges the two outcomes of `q`. -/
theorem Fixes.balanced {P : PauliString ι} {ψ : StateVector ι} {q : ι}
    (fixed : P.Fixes ψ) (bit : P.x q = 1)
    : weight (project q false ψ) = weight (project q true ψ) := by
  refine Fintype.sum_equiv (Equiv.addRight P.x) _ _ ?_
  intro b
  have bits : ∀ a : ZMod 2, (a = 0 ↔ a + 1 = 1) := by decide
  simp only [Equiv.coe_addRight, project, Pi.add_apply, bit, Bool.false_eq_true, if_false,
    if_true, ← bits]
  split
  · rw [fixed.norm_eq]
  · rfl

/-- The entry of a signed Z is its sign times the sign of the measured bit. -/
theorem signedZ_entry (q : ι) (sign : Bool) (b : ι → ZMod 2)
    : (signedZ q sign).entry b
      = (if sign then 2 else 0) + (if b q = 1 then 2 else 0) := by
  have off (j : ι) (ne : j ≠ q) : columnEntry 0 ((Pi.single q 1 : ι → ZMod 2) j) (b j) = 0 := by
    rw [Pi.single_eq_of_ne ne]
    rfl
  simp only [entry, signedZ, Pi.zero_apply]
  rw [Fintype.sum_eq_single q off, Pi.single_eq_same]
  rfl

theorem signedZ_act (q : ι) (sign : Bool) (ψ : StateVector ι) (b : ι → ZMod 2)
    : (signedZ q sign).act ψ b
      = iPow ((if sign then 2 else 0) + (if b q = 1 then 2 else 0)) * ψ b := by
  rw [act, signedZ_entry]
  simp [signedZ]

/-- A projection is fixed by the signed Z of its outcome. -/
theorem signedZ_fixes_project (q : ι) (outcome : Bool) (ψ : StateVector ι)
    : (signedZ q outcome).Fixes (project q outcome ψ) := by
  have exponents : ∀ o : Bool, ∀ a : ZMod 2, a = (if o then 1 else 0) →
      (if o then 2 else 0) + (if a = 1 then 2 else 0) = (0 : ZMod 4) := by
    decide
  ext b
  rw [signedZ_act]
  by_cases inside : b q = if outcome then 1 else 0
  · rw [exponents outcome (b q) inside, iPow_zero, one_mul]
  · simp [project, inside]

/-- A vector fixed by a signed Z lies in the projection of its outcome. -/
theorem Fixes.project_eq {q : ι} {outcome : Bool} {ψ : StateVector ι}
    (fixed : (signedZ q outcome).Fixes ψ)
    : project q outcome ψ = ψ := by
  have exponents : ∀ o : Bool, ∀ a : ZMod 2, a ≠ (if o then 1 else 0) →
      (if o then 2 else 0) + (if a = 1 then 2 else 0) = (2 : ZMod 4) := by
    decide
  ext b
  by_cases inside : b q = if outcome then 1 else 0
  · simp [project, inside]
  · have entry := congrFun fixed b
    rw [signedZ_act, exponents outcome (b q) inside, iPow_two] at entry
    have zero : ψ b = 0 := by linear_combination (-1 / 2 : ℂ) * entry
    simp [project, inside, zero]

omit [DecidableEq ι] in
/-- A string without an X bit on `q` commutes with projections of `q`. -/
theorem Fixes.project {P : PauliString ι} {ψ : StateVector ι} {q : ι}
    (fixed : P.Fixes ψ) (bit : P.x q = 0) (outcome : Bool)
    : P.Fixes (project q outcome ψ) := by
  ext b
  have entry := congrFun fixed b
  simp only [act, StateVector.project, Pi.add_apply, bit, add_zero] at entry ⊢
  by_cases inside : b q = if outcome then 1 else 0
  · rw [if_pos inside, if_pos inside, entry]
  · rw [if_neg inside, if_neg inside, mul_zero]

end PauliString

-----------------------------------------------------------------------------------------
-- Gates keep vectors nonzero
-----------------------------------------------------------------------------------------

namespace StateVector

omit [Fintype ι] [DecidableEq ι] in
/-- A gate with a left inverse that kills zero keeps vectors nonzero. -/
theorem ne_zero_of_leftInverse {g back : StateVector ι → StateVector ι}
    (inverse : Function.LeftInverse back g) (kills : back 0 = 0) {ψ : StateVector ι}
    (nonzero : ψ ≠ 0)
    : g ψ ≠ 0 := by
  intro zero
  apply nonzero
  rw [← inverse ψ, zero, kills]

omit [Fintype ι] in
/-- Two Hadamards cancel: the cross terms of the double sum have opposite signs. -/
theorem hadamard_hadamard (q : ι) (ψ : StateVector ι) : hadamard q (hadamard q ψ) = ψ := by
  have bits : ∀ a : ZMod 2, a = 0 ∨ a = 1 := by decide
  have signs : iPow (2 * lift 1 * lift 1) = -1 := by
    rw [show 2 * lift 1 * lift 1 = 2 by decide, iPow_two]
  have trivial (a : ZMod 2) : iPow (2 * lift a * lift 0) = 1 := by
    rw [show lift 0 = 0 by decide, mul_zero, iPow_zero]
  have trivial' (a : ZMod 2) : iPow (2 * lift 0 * lift a) = 1 := by
    rw [show lift 0 = 0 by decide, mul_zero, zero_mul, iPow_zero]
  have root : (1 / Real.sqrt 2 : ℂ) * (1 / Real.sqrt 2 : ℂ) = 1 / 2 := by
    rw [div_mul_div_comm, one_mul, ← Complex.ofReal_mul,
      Real.mul_self_sqrt (by norm_num : (0 : ℝ) ≤ 2)]
    norm_num
  have double (f : ZMod 2 → ℂ) : ∑ a, f a = f 0 + f 1 := Fin.sum_univ_two f
  ext b
  have same : Function.update b q (b q) = b := Function.update_eq_self q b
  simp only [hadamard, double, Function.update_self, Function.update_idem]
  rcases bits (b q) with zero | one
  · rw [zero] at same
    rw [zero, same]
    simp only [trivial, trivial', signs]
    linear_combination 2 * ψ b * root
  · rw [one] at same
    rw [one, same]
    simp only [trivial, trivial', signs]
    linear_combination 2 * ψ b * root

omit [Fintype ι] in
theorem hadamard_ne_zero (q : ι) {ψ : StateVector ι} (nonzero : ψ ≠ 0)
    : hadamard q ψ ≠ 0 := by
  refine ne_zero_of_leftInverse (hadamard_hadamard q) ?_ nonzero
  ext b
  simp [hadamard]

omit [Fintype ι] [DecidableEq ι] in
theorem phaseGate_ne_zero (q : ι) {ψ : StateVector ι} (nonzero : ψ ≠ 0)
    : phaseGate q ψ ≠ 0 := by
  intro zero
  apply nonzero
  ext b
  have entry : iPow (lift (b q)) * ψ b = 0 := congrFun zero b
  exact (mul_eq_zero.mp entry).resolve_left (iPow_ne_zero _)

omit [Fintype ι] in
/-- Two equal controlled-nots cancel. -/
theorem cnot_cnot {c t : ι} (distinct : c ≠ t) (ψ : StateVector ι)
    : cnot c t (cnot c t ψ) = ψ := by
  have double : ∀ u v : ZMod 2, u + v + v = u := by decide
  ext b
  simp [cnot, Function.update_of_ne distinct, double]

omit [Fintype ι] in
theorem cnot_ne_zero {c t : ι} (distinct : c ≠ t) {ψ : StateVector ι} (nonzero : ψ ≠ 0)
    : cnot c t ψ ≠ 0 :=
  ne_zero_of_leftInverse (cnot_cnot distinct) rfl nonzero

omit [DecidableEq ι] in
/-- Pauli operators move amplitudes and multiply them by units. -/
theorem act_ne_zero (P : PauliString ι) {ψ : StateVector ι} (nonzero : ψ ≠ 0)
    : P.act ψ ≠ 0 := by
  have double : ∀ u v : ZMod 2, u + v + v = u := by decide
  intro zero
  apply nonzero
  ext b
  have entry : iPow (P.entry (b + P.x)) * ψ (b + P.x + P.x) = 0 := congrFun zero (b + P.x)
  have back : b + P.x + P.x = b := funext (fun j => double (b j) (P.x j))
  rw [back] at entry
  exact (mul_eq_zero.mp entry).resolve_left (iPow_ne_zero _)

omit [DecidableEq ι] in
theorem zeroState_ne_zero : (zeroState : StateVector ι) ≠ 0 := by
  intro zero
  simpa [zeroState] using congrFun zero 0

/-- The all-zero state is stabilized by every positive Z. -/
theorem zeroState_fixed (q : ι) : (PauliString.signedZ q false).Fixes zeroState := by
  have certain : project q false (zeroState : StateVector ι) = zeroState := by
    ext b
    by_cases zero : b = 0
    · simp [project, zero]
    · simp [project, zeroState, zero]
  rw [← certain]
  exact PauliString.signedZ_fixes_project q false zeroState

end StateVector

end Stabilizer
