import Sabot.Stabilizer.Circuit

/-! The group of signed Pauli strings. Gates conjugate its elements multiplicatively. -/

namespace Stabilizer

variable {ι : Type*} [Fintype ι]

namespace PauliString

-----------------------------------------------------------------------------------------
-- The group
-----------------------------------------------------------------------------------------

instance : One (PauliString ι) where
  one := ⟨0, 0, 0⟩

/-- A string is inverted by conjugating its power of `i`. -/
instance : Inv (PauliString ι) where
  inv P := { P with phase := -P.phase }

omit [Fintype ι] in
@[simp] theorem one_x : (1 : PauliString ι).x = 0 := rfl

omit [Fintype ι] in
@[simp] theorem one_z : (1 : PauliString ι).z = 0 := rfl

omit [Fintype ι] in
@[simp] theorem one_phase : (1 : PauliString ι).phase = 0 := rfl

/-- The powers of `i` of a triple product do not depend on the bracketing. -/
theorem columnPhase_assoc (a b c d e f : ZMod 2)
    : columnPhase a b c d + columnPhase (a + c) (b + d) e f
      = columnPhase c d e f + columnPhase a b (c + e) (d + f) := by
  revert a b c d e f
  decide

instance : Group (PauliString ι) where
  mul_assoc P Q R := by
    have columns : ∑ j, columnPhase (P.x j) (P.z j) (Q.x j) (Q.z j)
          + ∑ j, columnPhase ((P * Q).x j) ((P * Q).z j) (R.x j) (R.z j)
        = ∑ j, columnPhase (Q.x j) (Q.z j) (R.x j) (R.z j)
          + ∑ j, columnPhase (P.x j) (P.z j) ((Q * R).x j) ((Q * R).z j) := by
      rw [← Finset.sum_add_distrib, ← Finset.sum_add_distrib]
      exact Finset.sum_congr rfl (fun j _ => columnPhase_assoc _ _ _ _ _ _)
    refine PauliString.ext (add_assoc _ _ _) (add_assoc _ _ _) ?_
    rw [mul_phase, mul_phase, mul_phase, mul_phase]
    linear_combination columns
  one_mul P := by
    have columns : ∀ x z : ZMod 2, columnPhase 0 0 x z = 0 := by decide
    refine PauliString.ext (zero_add _) (zero_add _) ?_
    simp [mul_phase, columns]
  mul_one P := by
    have columns : ∀ x z : ZMod 2, columnPhase x z 0 0 = 0 := by decide
    refine PauliString.ext (add_zero _) (add_zero _) ?_
    simp [mul_phase, columns]
  inv_mul_cancel P := by
    have columns : ∀ x z : ZMod 2, columnPhase x z x z = 0 := by decide
    have double (f : ι → ZMod 2) : f + f = 0 := by
      funext j
      exact CharTwo.add_self_eq_zero (f j)
    refine PauliString.ext (double P.x) (double P.z) ?_
    rw [mul_phase]
    simp [Inv.inv, columns]

/-- A signed string is its own inverse. -/
theorem Hermitian.mul_self {P : PauliString ι} (sign : P.Hermitian) : P * P = 1 := by
  have phases : ∀ k : ZMod 4, parity k = 0 → k + k = 0 := by decide
  have columns : ∀ x z : ZMod 2, columnPhase x z x z = 0 := by decide
  have double (f : ι → ZMod 2) : f + f = 0 := by
    funext j
    exact CharTwo.add_self_eq_zero (f j)
  refine PauliString.ext (double P.x) (double P.z) ?_
  simp [mul_phase, columns, phases _ sign]

theorem Hermitian.inv_eq {P : PauliString ι} (sign : P.Hermitian) : P⁻¹ = P :=
  inv_eq_of_mul_eq_one_left sign.mul_self

/-- Strings with form zero commute. -/
theorem mul_comm_of_form {P Q : PauliString ι} (commute : P.form Q = 0) : P * Q = Q * P := by
  rw [mul_eq_flip, commute]
  rfl

-----------------------------------------------------------------------------------------
-- Gates are automorphisms
-----------------------------------------------------------------------------------------

section Gates

variable [DecidableEq ι]

omit [Fintype ι] [DecidableEq ι] in
theorem ite_add_two (condition : Prop) [Decidable condition] (k : ZMod 4)
    : (if condition then k + 2 else k) = k + if condition then 2 else 0 := by
  split <;> simp

theorem hadamard_mul (q : ι) (P Q : PauliString ι)
    : (P * Q).hadamard q = P.hadamard q * Q.hadamard q := by
  have column : ∀ a b c d : ZMod 2,
      columnPhase a b c d + (if a + c = 1 ∧ b + d = 1 then 2 else 0)
      = columnPhase b a d c
        + ((if a = 1 ∧ b = 1 then 2 else 0) + if c = 1 ∧ d = 1 then 2 else 0) := by
    decide
  have sums := sum_add_congr_single
    (f := fun j => columnPhase (P.x j) (P.z j) (Q.x j) (Q.z j))
    (g := fun j => columnPhase ((P.hadamard q).x j) ((P.hadamard q).z j) ((Q.hadamard q).x j)
      ((Q.hadamard q).z j))
    (a := if P.x q + Q.x q = 1 ∧ P.z q + Q.z q = 1 then 2 else 0)
    (b := (if P.x q = 1 ∧ P.z q = 1 then 2 else 0) + if Q.x q = 1 ∧ Q.z q = 1 then 2 else 0)
    q (fun j off => by simp [hadamard, off])
    ((column (P.x q) (P.z q) (Q.x q) (Q.z q)).trans (by simp [hadamard]))
  refine PauliString.ext ?_ ?_ ?_
  · funext j
    by_cases here : j = q <;> simp [hadamard, here]
  · funext j
    by_cases here : j = q <;> simp [hadamard, here]
  · simp only [mul_phase, hadamard, mul_x, mul_z, Pi.add_apply, ite_add_two] at sums ⊢
    linear_combination sums

theorem phaseGate_mul (q : ι) (P Q : PauliString ι)
    : (P * Q).phaseGate q = P.phaseGate q * Q.phaseGate q := by
  have column : ∀ a b c d : ZMod 2,
      columnPhase a b c d + (if a + c = 1 ∧ b + d = 1 then 2 else 0)
      = columnPhase a (b + a) c (d + c)
        + ((if a = 1 ∧ b = 1 then 2 else 0) + if c = 1 ∧ d = 1 then 2 else 0) := by
    decide
  have sums := sum_add_congr_single
    (f := fun j => columnPhase (P.x j) (P.z j) (Q.x j) (Q.z j))
    (g := fun j => columnPhase ((P.phaseGate q).x j) ((P.phaseGate q).z j)
      ((Q.phaseGate q).x j) ((Q.phaseGate q).z j))
    (a := if P.x q + Q.x q = 1 ∧ P.z q + Q.z q = 1 then 2 else 0)
    (b := (if P.x q = 1 ∧ P.z q = 1 then 2 else 0) + if Q.x q = 1 ∧ Q.z q = 1 then 2 else 0)
    q (fun j off => by simp [phaseGate, off])
    ((column (P.x q) (P.z q) (Q.x q) (Q.z q)).trans (by simp [phaseGate]))
  refine PauliString.ext rfl ?_ ?_
  · funext j
    by_cases here : j = q
    · simp only [phaseGate, here, mul_x, mul_z, Pi.add_apply, Function.update_self]
      ring
    · simp [phaseGate, here]
  · simp only [mul_phase, phaseGate, mul_x, mul_z, Pi.add_apply, ite_add_two] at sums ⊢
    linear_combination sums

theorem cnot_mul {c t : ι} (distinct : c ≠ t) (P Q : PauliString ι)
    : (P * Q).cnot c t = P.cnot c t * Q.cnot c t := by
  have columns : ∀ xc zc xt zt uc vc ut vt : ZMod 2,
      columnPhase xc zc uc vc + columnPhase xt zt ut vt
        + (if xc + uc = 1 ∧ zt + vt = 1 ∧ xt + ut = zc + vc then 2 else 0)
      = columnPhase xc (zc + zt) uc (vc + vt) + columnPhase (xt + xc) zt (ut + uc) vt
        + ((if xc = 1 ∧ zt = 1 ∧ xt = zc then 2 else 0)
          + if uc = 1 ∧ vt = 1 ∧ ut = vc then 2 else 0) := by
    decide
  have sums := sum_add_congr_pair
    (f := fun j => columnPhase (P.x j) (P.z j) (Q.x j) (Q.z j))
    (g := fun j => columnPhase ((P.cnot c t).x j) ((P.cnot c t).z j) ((Q.cnot c t).x j)
      ((Q.cnot c t).z j))
    (a := if P.x c + Q.x c = 1 ∧ P.z t + Q.z t = 1 ∧ P.x t + Q.x t = P.z c + Q.z c then 2 else 0)
    (b := (if P.x c = 1 ∧ P.z t = 1 ∧ P.x t = P.z c then 2 else 0)
      + if Q.x c = 1 ∧ Q.z t = 1 ∧ Q.x t = Q.z c then 2 else 0)
    distinct (fun j offC offT => by simp [cnot, offC, offT])
    ((columns (P.x c) (P.z c) (P.x t) (P.z t) (Q.x c) (Q.z c) (Q.x t) (Q.z t)).trans
      (by simp [cnot, distinct, distinct.symm]))
  refine PauliString.ext ?_ ?_ ?_
  · funext j
    by_cases here : j = t
    · simp only [cnot, here, mul_x, Pi.add_apply, Function.update_self]
      ring
    · simp [cnot, here]
  · funext j
    by_cases here : j = c
    · simp only [cnot, here, mul_z, Pi.add_apply, Function.update_self]
      ring
    · simp [cnot, here]
  · simp only [mul_phase, cnot, mul_x, mul_z, Pi.add_apply, ite_add_two] at sums ⊢
    linear_combination sums

omit [DecidableEq ι] in
theorem flip_mul (a b : ZMod 2) (P Q : PauliString ι)
    : (P * Q).flip (a + b) = P.flip a * Q.flip b := by
  refine PauliString.ext rfl rfl ?_
  rw [flip_phase, mul_phase, mul_phase, flip_phase, flip_phase, map_add]
  simp only [flip]
  ring

end Gates

end PauliString

section Conjugation

variable [DecidableEq ι]

/-- Conjugation by a gate is multiplicative. -/
theorem Gate.conjugate_mul (g : Gate ι) (P Q : PauliString ι)
    : g.conjugate (P * Q) = g.conjugate P * g.conjugate Q := by
  cases g with
  | identity => rfl
  | hadamard q => exact PauliString.hadamard_mul q P Q
  | phase q => exact PauliString.phaseGate_mul q P Q
  | cnot control target distinct => exact PauliString.cnot_mul distinct P Q
  | pauli R =>
      rw [Gate.conjugate, PauliString.form_mul_left]
      exact PauliString.flip_mul _ _ P Q

/-- Conjugation by a gate as an endomorphism of the group. -/
def Gate.conjugation (g : Gate ι) : PauliString ι →* PauliString ι :=
  MonoidHom.mk' g.conjugate g.conjugate_mul

end Conjugation

end Stabilizer
