import Mathlib

/-! Signed Pauli strings over a finite set of qubits, with their product and commutation form.
Bits live in `ZMod 2` and powers of `i` in `ZMod 4`, so every column fact is decidable.
-/

namespace Stabilizer

variable {ι : Type*}

/-- A power of `i` times one of I, X, Y, Z on each qubit, for `(x, z)` equal to
`(0, 0)`, `(1, 0)`, `(1, 1)` and `(0, 1)`.
-/
@[ext]
structure PauliString (ι : Type*) where
  x : ι → ZMod 2
  z : ι → ZMod 2
  phase : ZMod 4

-----------------------------------------------------------------------------------------
-- One column
-----------------------------------------------------------------------------------------

/-- The power of `i` picked up when the column Pauli `(x₁, z₁)` is multiplied on the right by
`(x₂, z₂)`: one for XY, YZ and ZX, minus one for XZ, YX and ZY.
-/
def columnPhase (x₁ z₁ x₂ z₂ : ZMod 2) : ZMod 4 :=
  if x₁ = 1 ∧ z₁ = 0 ∧ x₂ = 1 ∧ z₂ = 1 then 1
  else if x₁ = 1 ∧ z₁ = 0 ∧ x₂ = 0 ∧ z₂ = 1 then -1
  else if x₁ = 1 ∧ z₁ = 1 ∧ x₂ = 0 ∧ z₂ = 1 then 1
  else if x₁ = 1 ∧ z₁ = 1 ∧ x₂ = 1 ∧ z₂ = 0 then -1
  else if x₁ = 0 ∧ z₁ = 1 ∧ x₂ = 1 ∧ z₂ = 0 then 1
  else if x₁ = 0 ∧ z₁ = 1 ∧ x₂ = 1 ∧ z₂ = 1 then -1
  else 0

/-- The sign `-1` is `i ^ 2`; the numeral `2` rests on this fact wherever a phase is written. -/
scoped instance two_atLeastTwo : Nat.AtLeastTwo 2 := ⟨le_rfl⟩

/-- A sum over both values of a bit rests on this one. -/
scoped instance two_neZero : NeZero (2 : Nat) := ⟨two_ne_zero⟩

/-- Reduction of a power of `i` to its parity. -/
def parity : ZMod 4 →+* ZMod 2 := ZMod.castHom (by decide) (ZMod 2)

/-- A column product is imaginary exactly when the two columns anticommute. -/
theorem parity_columnPhase (x₁ z₁ x₂ z₂ : ZMod 2)
    : parity (columnPhase x₁ z₁ x₂ z₂) = x₁ * z₂ + z₁ * x₂ := by
  revert x₁ z₁ x₂ z₂
  decide

/-- Even powers of `i` are the two signs. -/
theorem parity_eq_zero_iff (k : ZMod 4) : parity k = 0 ↔ k = 0 ∨ k = 2 := by
  revert k
  decide

-----------------------------------------------------------------------------------------
-- Strings
-----------------------------------------------------------------------------------------

namespace PauliString

/-- `Z` on one qubit, with the sign `(-1)^sign`. -/
def signedZ [DecidableEq ι] (q : ι) (sign : Bool) : PauliString ι where
  x := 0
  z := Pi.single q 1
  phase := if sign then 2 else 0

/-- `X` on one qubit. -/
def singleX [DecidableEq ι] (q : ι) : PauliString ι where
  x := Pi.single q 1
  z := 0
  phase := 0

/-- `Y` on one qubit. -/
def singleY [DecidableEq ι] (q : ι) : PauliString ι where
  x := Pi.single q 1
  z := Pi.single q 1
  phase := 0

/-- The string is a sign times a tensor product of Pauli matrices. -/
def Hermitian (P : PauliString ι) : Prop := parity P.phase = 0

theorem signedZ_hermitian [DecidableEq ι] (q : ι) (sign : Bool)
    : (signedZ q sign).Hermitian := by
  cases sign with
  | false => exact map_zero parity
  | true => exact (parity_eq_zero_iff 2).mpr (Or.inr rfl)

variable [Fintype ι]

/-- The product of two strings, with the powers of `i` collected from all columns. -/
instance : Mul (PauliString ι) where
  mul P Q := {
    x := P.x + Q.x
    z := P.z + Q.z
    phase := P.phase + Q.phase + ∑ j, columnPhase (P.x j) (P.z j) (Q.x j) (Q.z j)
  }

@[simp] theorem mul_x (P Q : PauliString ι) : (P * Q).x = P.x + Q.x := rfl

@[simp] theorem mul_z (P Q : PauliString ι) : (P * Q).z = P.z + Q.z := rfl

theorem mul_phase (P Q : PauliString ι)
    : (P * Q).phase
      = P.phase + Q.phase + ∑ j, columnPhase (P.x j) (P.z j) (Q.x j) (Q.z j) :=
  rfl

/-- The commutation form: zero when the strings commute, one when they anticommute. -/
def form (P Q : PauliString ι) : ZMod 2 := ∑ j, (P.x j * Q.z j + P.z j * Q.x j)

theorem form_comm (P Q : PauliString ι) : form P Q = form Q P := by
  apply Finset.sum_congr rfl
  intro j _
  ring

/-- Every string commutes with itself, since `2 = 0` in every column. -/
@[simp] theorem form_self (P : PauliString ι) : form P P = 0 := by
  apply Finset.sum_eq_zero
  intro j _
  rw [mul_comm (P.z j), ← two_mul]
  exact zero_mul _

/-- Commutation is additive in the left factor, column by column. -/
@[simp] theorem form_mul_left (P Q R : PauliString ι)
    : form (P * Q) R = form P R + form Q R := by
  simp only [form, mul_x, mul_z, Pi.add_apply, ← Finset.sum_add_distrib]
  apply Finset.sum_congr rfl
  intro j _
  ring

@[simp] theorem form_mul_right (P Q R : PauliString ι)
    : form P (Q * R) = form P Q + form P R := by
  rw [form_comm, form_mul_left, form_comm Q, form_comm R]

/-- The parity of a product's phase records whether the factors anticommute. -/
theorem parity_mul (P Q : PauliString ι)
    : parity (P * Q).phase = parity P.phase + parity Q.phase + form P Q := by
  simp only [mul_phase, map_add, map_sum, parity_columnPhase, form]

/-- Commuting signed strings have a signed product. -/
theorem Hermitian.mul {P Q : PauliString ι} (hp : P.Hermitian) (hq : Q.Hermitian)
    (commute : form P Q = 0)
    : (P * Q).Hermitian := by
  unfold Hermitian at *
  rw [parity_mul, hp, hq, commute]
  rfl

/-- The form with `Z` on qubit `q` reads the string's X bit there. -/
@[simp] theorem form_signedZ [DecidableEq ι] (P : PauliString ι) (q : ι) (sign : Bool)
    : form P (signedZ q sign) = P.x q := by
  simp [form, signedZ, Pi.single_apply]

@[simp] theorem form_singleX [DecidableEq ι] (P : PauliString ι) (q : ι)
    : form P (singleX q) = P.z q := by
  simp [form, singleX, Pi.single_apply]

@[simp] theorem form_singleY [DecidableEq ι] (P : PauliString ι) (q : ι)
    : form P (singleY q) = P.x q + P.z q := by
  simp [form, singleY, Pi.single_apply, Finset.sum_add_distrib]

end PauliString

end Stabilizer
