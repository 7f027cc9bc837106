import Sabot.Stabilizer.Clifford

/-! State vectors over the computational basis: Pauli strings and Clifford gates as operators,
and the conjugation rules that tie both to the bit-level maps on strings.
-/

namespace Stabilizer

variable {ι : Type*}

/-- Amplitudes of the computational basis states; normalisation is not required. -/
abbrev StateVector (ι : Type*) := (ι → ZMod 2) → ℂ

-----------------------------------------------------------------------------------------
-- Powers of i
-----------------------------------------------------------------------------------------

/-- The complex number `i^k`. -/
noncomputable def iPow (k : ZMod 4) : ℂ := Complex.I ^ k.val

@[simp] theorem iPow_zero : iPow 0 = 1 := by
  simp [iPow]

theorem iPow_two : iPow 2 = -1 := Complex.I_sq

theorem iPow_add (k l : ZMod 4) : iPow (k + l) = iPow k * iPow l := by
  rw [iPow, iPow, iPow, ← pow_add, ZMod.val_add, ← Complex.I_pow_eq_pow_mod]

theorem norm_iPow (k : ZMod 4) : ‖iPow k‖ = 1 := by
  simp [iPow]

theorem iPow_ne_zero (k : ZMod 4) : iPow k ≠ 0 :=
  pow_ne_zero _ Complex.I_ne_zero

/-- A bit read as a power of `i`. -/
def lift (b : ZMod 2) : ZMod 4 := if b = 1 then 1 else 0

/-- A bit read as the power of `i` in the sign `(-1)^b`. -/
def signExponent : ZMod 2 →+ ZMod 4 where
  toFun b := 2 * lift b
  map_zero' := by decide
  map_add' := by decide

/-- Signs cancel in pairs. -/
theorem signExponent_add_self (b : ZMod 2) : signExponent b + signExponent b = 0 := by
  revert b
  decide

-----------------------------------------------------------------------------------------
-- Operators
-----------------------------------------------------------------------------------------

/-- The power of `i` in the matrix entry of a column Pauli in row `b`: `Z` has `(-1)^b` there
and `Y` has `i` or `-i`.
-/
def columnEntry (x z b : ZMod 2) : ZMod 4 :=
  if z = 1 then (if x = 1 then (if b = 1 then 1 else -1) else if b = 1 then 2 else 0) else 0

namespace PauliString

variable [Fintype ι]

/-- The power of `i` in the only nonzero entry of row `b` of the string's matrix. -/
def entry (P : PauliString ι) (b : ι → ZMod 2) : ZMod 4 :=
  P.phase + ∑ j, columnEntry (P.x j) (P.z j) (b j)

/-- The string as an operator on state vectors. -/
noncomputable def act (P : PauliString ι) (ψ : StateVector ι) : StateVector ι :=
  fun b => iPow (P.entry b) * ψ (b + P.x)

/-- A string fixes a vector when it acts on it as the identity. -/
def Fixes (P : PauliString ι) (ψ : StateVector ι) : Prop := P.act ψ = ψ

end PauliString

namespace StateVector

variable [DecidableEq ι]

/-- The vector of `|0...0>`. -/
def zeroState [Fintype ι] : StateVector ι := Pi.single 0 1

/-- The Hadamard gate on qubit `q`. -/
noncomputable def hadamard (q : ι) (ψ : StateVector ι) : StateVector ι :=
  fun b => (1 / Real.sqrt 2 : ℂ)
    * ∑ a : ZMod 2, iPow (2 * lift a * lift (b q)) * ψ (Function.update b q a)

/-- The phase gate on qubit `q`. -/
noncomputable def phaseGate (q : ι) (ψ : StateVector ι) : StateVector ι :=
  fun b => iPow (lift (b q)) * ψ b

/-- The controlled-not gate with control `c` and target `t`. -/
def cnot (c t : ι) (ψ : StateVector ι) : StateVector ι :=
  fun b => ψ (Function.update b t (b t + b c))

/-- Projection onto the basis states whose qubit `q` is `outcome`. -/
def project (q : ι) (outcome : Bool) (ψ : StateVector ι) : StateVector ι :=
  fun b => if b q = (if outcome then 1 else 0) then ψ b else 0

end StateVector

-----------------------------------------------------------------------------------------
-- Products of strings compose
-----------------------------------------------------------------------------------------

namespace PauliString

variable [Fintype ι]

/-- The product string acts as the composition, column by column. -/
theorem act_mul (P Q : PauliString ι) (ψ : StateVector ι)
    : (P * Q).act ψ = P.act (Q.act ψ) := by
  have column : ∀ x z u v b : ZMod 2,
      columnPhase x z u v + columnEntry (x + u) (z + v) b
      = columnEntry x z b + columnEntry u v (b + x) := by
    decide
  have columns (b : ι → ZMod 2)
      : ∑ j, columnPhase (P.x j) (P.z j) (Q.x j) (Q.z j)
          + ∑ j, columnEntry (P.x j + Q.x j) (P.z j + Q.z j) (b j)
        = ∑ j, columnEntry (P.x j) (P.z j) (b j)
          + ∑ j, columnEntry (Q.x j) (Q.z j) (b j + P.x j) := by
    rw [← Finset.sum_add_distrib, ← Finset.sum_add_distrib]
    exact Finset.sum_congr rfl (fun j _ => column _ _ _ _ _)
  ext b
  have exponents : (P * Q).entry b = P.entry b + Q.entry (b + P.x) := by
    simp only [entry, mul_phase, mul_x, mul_z, Pi.add_apply]
    linear_combination columns b
  simp only [act, mul_x, exponents, iPow_add, mul_assoc, add_assoc]

theorem Fixes.mul {P Q : PauliString ι} {ψ : StateVector ι} (hp : P.Fixes ψ)
    (hq : Q.Fixes ψ)
    : (P * Q).Fixes ψ := by
  unfold Fixes at *
  rw [act_mul, hq, hp]

omit [Fintype ι] in
theorem flip_phase (bit : ZMod 2) (P : PauliString ι)
    : (flip bit P).phase = signExponent bit + P.phase := by
  have phases : ∀ a : ZMod 2, ∀ k : ZMod 4,
      (if a = 1 then k + 2 else k) = signExponent a + k := by
    decide
  exact phases bit P.phase

/-- Adding two to the phase negates the operator. -/
theorem act_flip (bit : ZMod 2) (P : PauliString ι) (ψ : StateVector ι)
    : (flip bit P).act ψ = iPow (signExponent bit) • P.act ψ := by
  have exponent (b : ι → ZMod 2)
      : (flip bit P).entry b = signExponent bit + P.entry b := by
    rw [entry, flip_phase, add_assoc]
    rfl
  have sameX : (flip bit P).x = P.x := rfl
  ext b
  simp only [act, exponent, sameX, iPow_add, Pi.smul_apply, smul_eq_mul, mul_assoc]

/-- Exchanging the factors of a product costs the sign of their commutation form. -/
theorem mul_eq_flip (P Q : PauliString ι) : P * Q = flip (P.form Q) (Q * P) := by
  have column : ∀ x z u v : ZMod 2,
      columnPhase x z u v = columnPhase u v x z + signExponent (x * v + z * u) := by
    decide
  ext j
  · exact add_comm _ _
  · exact add_comm _ _
  · rw [flip_phase, mul_phase, mul_phase, form, map_sum,
      Finset.sum_congr rfl (fun j _ => column (P.x j) (P.z j) (Q.x j) (Q.z j)),
      Finset.sum_add_distrib]
    ring

theorem act_act_comm (P Q : PauliString ι) (ψ : StateVector ι)
    : P.act (Q.act ψ) = iPow (signExponent (P.form Q)) • Q.act (P.act ψ) := by
  rw [← act_mul, ← act_mul, mul_eq_flip, act_flip]

/-- Conjugating by a Pauli operator negates exactly the strings that anticommute with it. -/
theorem act_flip_form (P Q : PauliString ι) (ψ : StateVector ι)
    : (flip (P.form Q) P).act (Q.act ψ) = Q.act (P.act ψ) := by
  rw [act_flip, act_act_comm P Q, smul_smul, ← iPow_add, signExponent_add_self, iPow_zero,
    one_smul]

end PauliString

-----------------------------------------------------------------------------------------
-- The gates conjugate strings as the bit-level maps say
-----------------------------------------------------------------------------------------

namespace PauliString

variable [Fintype ι] [DecidableEq ι]

/-- A phase gate only changes the matrix entry in its own column. -/
theorem act_phaseGate (q : ι) (P : PauliString ι) (ψ : StateVector ι)
    : (phaseGate q P).act (ψ.phaseGate q) = (P.act ψ).phaseGate q := by
  have column : ∀ x z b : ZMod 2, ∀ k : ZMod 4,
      columnEntry x (z + x) b + ((if x = 1 ∧ z = 1 then k + 2 else k) + lift (b + x))
      = columnEntry x z b + (k + lift b) := by
    decide
  ext b
  have sums := sum_add_congr_single q
    (f := fun j => columnEntry ((phaseGate q P).x j) ((phaseGate q P).z j) (b j))
    (g := fun j => columnEntry (P.x j) (P.z j) (b j))
    (a := (phaseGate q P).phase + lift ((b + P.x) q)) (b := P.phase + lift (b q))
    (fun j off => by simp [phaseGate, off])
    (by simpa [phaseGate] using column (P.x q) (P.z q) (b q) P.phase)
  have exponents : (phaseGate q P).entry b + lift ((b + P.x) q)
      = lift (b q) + P.entry b := by
    unfold entry
    linear_combination sums
  have sameX : (phaseGate q P).x = P.x := rfl
  simp only [act, StateVector.phaseGate, sameX, ← mul_assoc, ← iPow_add, exponents]

/-- A controlled-not relabels basis states and changes two columns of the entry. -/
theorem act_cnot {c t : ι} (distinct : c ≠ t) (P : PauliString ι) (ψ : StateVector ι)
    : (cnot c t P).act (ψ.cnot c t) = (P.act ψ).cnot c t := by
  have columns : ∀ xc zc xt zt bc bt : ZMod 2, ∀ k : ZMod 4,
      columnEntry xc (zc + zt) bc + columnEntry (xt + xc) zt bt
        + (if xc = 1 ∧ zt = 1 ∧ xt = zc then k + 2 else k)
      = columnEntry xc zc bc + columnEntry xt zt (bt + bc) + k := by
    decide
  ext b
  have sums := sum_add_congr_pair distinct
    (f := fun j => columnEntry ((cnot c t P).x j) ((cnot c t P).z j) (b j))
    (g := fun j => columnEntry (P.x j) (P.z j) (Function.update b t (b t + b c) j))
    (a := (cnot c t P).phase) (b := P.phase)
    (fun j hc ht => by simp [cnot, hc, ht])
    (by simpa [cnot, distinct, distinct.symm] using
          columns (P.x c) (P.z c) (P.x t) (P.z t) (b c) (b t) P.phase)
  have exponents : (cnot c t P).entry b = P.entry (Function.update b t (b t + b c)) := by
    unfold entry
    linear_combination sums
  have cancel : ∀ x u v w : ZMod 2, u + (x + v) + (w + v) = u + w + x := by decide
  have labels : Function.update (b + (cnot c t P).x) t
        ((b + (cnot c t P).x) t + (b + (cnot c t P).x) c)
      = Function.update b t (b t + b c) + P.x := by
    ext j
    by_cases here : j = t
    · subst here
      simp only [cnot, Function.update_self, Pi.add_apply, Function.update_of_ne distinct]
      exact cancel _ _ _ _
    · simp [cnot, here]
  simp only [act, StateVector.cnot, exponents, labels]

/-- A Hadamard sums over its qubit; the X bit of the string shifts the summation index. -/
theorem act_hadamard (q : ι) (P : PauliString ι) (ψ : StateVector ι)
    : (hadamard q P).act (ψ.hadamard q) = (P.act ψ).hadamard q := by
  have column : ∀ x z b a : ZMod 2, ∀ k : ZMod 4,
      columnEntry z x b
        + ((if x = 1 ∧ z = 1 then k + 2 else k) + 2 * lift a * lift (b + z))
      = columnEntry x z (a + x) + (k + 2 * lift (a + x) * lift b) := by
    decide
  have exponents (b : ι → ZMod 2) (a : ZMod 2)
      : (hadamard q P).entry b + 2 * lift a * lift ((b + (hadamard q P).x) q)
        = 2 * lift (a + P.x q) * lift (b q)
          + P.entry (Function.update b q (a + P.x q)) := by
    have sums := sum_add_congr_single q
      (f := fun j => columnEntry ((hadamard q P).x j) ((hadamard q P).z j) (b j))
      (g := fun j => columnEntry (P.x j) (P.z j) (Function.update b q (a + P.x q) j))
      (a := (hadamard q P).phase + 2 * lift a * lift ((b + (hadamard q P).x) q))
      (b := P.phase + 2 * lift (a + P.x q) * lift (b q))
      (fun j off => by simp [hadamard, off])
      (by simpa [hadamard] using column (P.x q) (P.z q) (b q) a P.phase)
    unfold entry
    linear_combination sums
  have labels (b : ι → ZMod 2) (a : ZMod 2)
      : Function.update (b + (hadamard q P).x) q a
        = Function.update b q (a + P.x q) + P.x := by
    have double : ∀ u v : ZMod 2, u = u + v + v := by decide
    ext j
    by_cases here : j = q
    · subst here
      simpa using double a (P.x j)
    · simp [hadamard, here]
  ext b
  simp only [act, StateVector.hadamard]
  rw [mul_left_comm, Finset.mul_sum]
  congr 1
  refine Fintype.sum_equiv (Equiv.addRight (P.x q)) _ _ ?_
  intro a
  simp only [Equiv.coe_addRight, ← mul_assoc, ← iPow_add, exponents, labels]

end PauliString

end Stabilizer
