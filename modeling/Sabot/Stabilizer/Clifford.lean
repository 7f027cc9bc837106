import Sabot.Stabilizer.Pauli

/-! Conjugation of signed Pauli strings by the Hadamard, phase and controlled-not gates, and
by the Pauli gates. Every conjugation keeps the commutation form and the two signs.
-/

namespace Stabilizer

variable {ι : Type*}

-----------------------------------------------------------------------------------------
-- Sums that differ in one or two columns
-----------------------------------------------------------------------------------------

/-- Two sums that agree off column `q` differ by what column `q` differs by. -/
theorem sum_add_congr_single [Fintype ι] [DecidableEq ι] {M : Type*} [AddCommMonoid M]
    {f g : ι → M} {a b : M} (q : ι) (rest : ∀ j, j ≠ q → f j = g j)
    (column : f q + a = g q + b)
    : ∑ j, f j + a = ∑ j, g j + b := by
  rw [← Finset.add_sum_erase Finset.univ f (Finset.mem_univ q),
    ← Finset.add_sum_erase Finset.univ g (Finset.mem_univ q)]
  have same : ∑ j ∈ Finset.univ.erase q, f j = ∑ j ∈ Finset.univ.erase q, g j :=
    Finset.sum_congr rfl (fun j member => rest j (Finset.ne_of_mem_erase member))
  rw [same, add_right_comm, column, add_right_comm]

/-- Two sums that agree off columns `c` and `t` differ by what these two differ by. -/
theorem sum_add_congr_pair [Fintype ι] [DecidableEq ι] {M : Type*} [AddCommMonoid M]
    {f g : ι → M} {a b : M} {c t : ι} (distinct : c ≠ t)
    (rest : ∀ j, j ≠ c → j ≠ t → f j = g j)
    (columns : f c + f t + a = g c + g t + b)
    : ∑ j, f j + a = ∑ j, g j + b := by
  have member : t ∈ Finset.univ.erase c := by simp [distinct.symm]
  rw [← Finset.add_sum_erase Finset.univ f (Finset.mem_univ c),
    ← Finset.add_sum_erase Finset.univ g (Finset.mem_univ c),
    ← Finset.add_sum_erase _ f member, ← Finset.add_sum_erase _ g member]
  have same : ∑ j ∈ (Finset.univ.erase c).erase t, f j
      = ∑ j ∈ (Finset.univ.erase c).erase t, g j := by
    apply Finset.sum_congr rfl
    intro j inside
    simp only [Finset.mem_erase] at inside
    exact rest j inside.2.1 inside.1
  rw [same, ← add_assoc, ← add_assoc, add_right_comm, columns, add_right_comm]

namespace PauliString

variable [DecidableEq ι]

-----------------------------------------------------------------------------------------
-- The generating gates
-----------------------------------------------------------------------------------------

/-- Conjugation by a Hadamard gate exchanges X and Z and negates Y. -/
def hadamard (q : ι) (P : PauliString ι) : PauliString ι where
  x := Function.update P.x q (P.z q)
  z := Function.update P.z q (P.x q)
  phase := if P.x q = 1 ∧ P.z q = 1 then P.phase + 2 else P.phase

/-- Conjugation by a phase gate takes X to Y and Y to `-X`. -/
def phaseGate (q : ι) (P : PauliString ι) : PauliString ι where
  x := P.x
  z := Function.update P.z q (P.z q + P.x q)
  phase := if P.x q = 1 ∧ P.z q = 1 then P.phase + 2 else P.phase

/-- Conjugation by a controlled-not copies X from control to target and Z back. -/
def cnot (c t : ι) (P : PauliString ι) : PauliString ι where
  x := Function.update P.x t (P.x t + P.x c)
  z := Function.update P.z c (P.z c + P.z t)
  phase := if P.x c = 1 ∧ P.z t = 1 ∧ P.x t = P.z c then P.phase + 2 else P.phase

/-- Conjugation by a Pauli gate negates the strings that anticommute with it. -/
def flip (bit : ZMod 2) (P : PauliString ι) : PauliString ι :=
  { P with phase := if bit = 1 then P.phase + 2 else P.phase }

/-- Phase, phase is the Pauli gate Z: it negates the strings with an X bit. -/
theorem phaseGate_phaseGate (q : ι) (P : PauliString ι)
    : phaseGate q (phaseGate q P) = flip (P.x q) P := by
  have column : ∀ x z : ZMod 2, ∀ k : ZMod 4,
      z + x + x = z
      ∧ (if x = 1 ∧ z + x = 1 then (if x = 1 ∧ z = 1 then k + 2 else k) + 2
        else if x = 1 ∧ z = 1 then k + 2 else k) = if x = 1 then k + 2 else k := by
    decide
  obtain ⟨zEq, phaseEq⟩ := column (P.x q) (P.z q) P.phase
  ext j
  · rfl
  · simp [phaseGate, flip, zEq]
  · simpa [phaseGate, flip] using phaseEq

/-- Hadamard, phase, phase, Hadamard is the Pauli gate X: it negates a Z bit. -/
theorem hadamard_flip_hadamard (q : ι) (P : PauliString ι)
    : hadamard q (phaseGate q (phaseGate q (hadamard q P))) = flip (P.z q) P := by
  have column : ∀ x z : ZMod 2, ∀ k : ZMod 4,
      (if z = 1 ∧ x = 1 then (if z = 1 then (if x = 1 ∧ z = 1 then k + 2 else k) + 2
          else if x = 1 ∧ z = 1 then k + 2 else k) + 2
        else if z = 1 then (if x = 1 ∧ z = 1 then k + 2 else k) + 2
          else if x = 1 ∧ z = 1 then k + 2 else k) = if z = 1 then k + 2 else k := by
    decide
  have phaseEq := column (P.x q) (P.z q) P.phase
  rw [phaseGate_phaseGate]
  ext j
  · simp [hadamard, flip]
  · simp [hadamard, flip]
  · simpa [hadamard, flip] using phaseEq

/-- A phase gate, the X gate and three phase gates make the Pauli gate Y. -/
theorem phaseGate_flip_phaseGate (q : ι) (P : PauliString ι)
    : phaseGate q (phaseGate q (phaseGate q (flip ((phaseGate q P).z q) (phaseGate q P))))
      = flip (P.x q + P.z q) P := by
  have column : ∀ x z : ZMod 2, ∀ k : ZMod 4,
      z + x + x = z
      ∧ (if x = 1 then
          (if x = 1 ∧ z + x = 1
            then (if z + x = 1 then (if x = 1 ∧ z = 1 then k + 2 else k) + 2
              else if x = 1 ∧ z = 1 then k + 2 else k) + 2
            else if z + x = 1 then (if x = 1 ∧ z = 1 then k + 2 else k) + 2
              else if x = 1 ∧ z = 1 then k + 2 else k) + 2
        else if x = 1 ∧ z + x = 1
            then (if z + x = 1 then (if x = 1 ∧ z = 1 then k + 2 else k) + 2
              else if x = 1 ∧ z = 1 then k + 2 else k) + 2
            else if z + x = 1 then (if x = 1 ∧ z = 1 then k + 2 else k) + 2
              else if x = 1 ∧ z = 1 then k + 2 else k)
        = if x + z = 1 then k + 2 else k := by
    decide
  obtain ⟨zEq, phaseEq⟩ := column (P.x q) (P.z q) P.phase
  rw [phaseGate_phaseGate]
  ext j
  · rfl
  · simp [phaseGate, flip, zEq]
  · simpa [phaseGate, flip] using phaseEq

/-- The Hadamard gate undoes itself. -/
theorem hadamard_hadamard (q : ι) (P : PauliString ι) : hadamard q (hadamard q P) = P := by
  have phases : ∀ k : ZMod 4, k + 2 + 2 = k := by decide
  ext j
  · simp [hadamard]
  · simp [hadamard]
  · by_cases both : P.x q = 1 ∧ P.z q = 1
    · simp [hadamard, both, phases]
    · have swapped : ¬(P.z q = 1 ∧ P.x q = 1) := fun h => both h.symm
      simp [hadamard, both, swapped]

/-- The controlled-not undoes itself. -/
theorem cnot_cnot {c t : ι} (distinct : c ≠ t) (P : PauliString ι)
    : cnot c t (cnot c t P) = P := by
  have column : ∀ xc zc xt zt : ZMod 2, ∀ k : ZMod 4,
      xt + xc + xc = xt ∧ zc + zt + zt = zc
      ∧ (if xc = 1 ∧ zt = 1 ∧ xt + xc = zc + zt
          then (if xc = 1 ∧ zt = 1 ∧ xt = zc then k + 2 else k) + 2
          else if xc = 1 ∧ zt = 1 ∧ xt = zc then k + 2 else k) = k := by
    decide
  obtain ⟨xEq, zEq, phaseEq⟩ := column (P.x c) (P.z c) (P.x t) (P.z t) P.phase
  ext j
  · simp [cnot, distinct, xEq]
  · simp [cnot, distinct.symm, zEq]
  · simpa [cnot, distinct, distinct.symm] using phaseEq

omit [DecidableEq ι] in
/-- Negating twice changes nothing. -/
theorem flip_flip (bit : ZMod 2) (P : PauliString ι) : flip bit (flip bit P) = P := by
  have phases : ∀ k : ZMod 4, k + 2 + 2 = k := by decide
  ext j
  · rfl
  · rfl
  · by_cases set : bit = 1
    · simp [flip, set, phases]
    · simp [flip, set]

/-- Three phase gates undo one. -/
theorem phaseGate_inverse (q : ι) (P : PauliString ι)
    : phaseGate q (phaseGate q (phaseGate q (phaseGate q P))) = P := by
  rw [phaseGate_phaseGate q P, phaseGate_phaseGate]
  exact flip_flip (P.x q) P

-----------------------------------------------------------------------------------------
-- The commutation form and the signs survive conjugation
-----------------------------------------------------------------------------------------

section Form

variable [Fintype ι]

/-- A Hadamard exchanges the two products of one column of the form. -/
theorem form_hadamard (q : ι) (P Q : PauliString ι)
    : form (hadamard q P) (hadamard q Q) = form P Q := by
  apply Finset.sum_congr rfl
  intro j _
  by_cases here : j = q
  · subst j
    simp only [hadamard, Function.update_self]
    ring
  · simp [hadamard, here]

/-- A phase gate adds the same product twice to one column of the form. -/
theorem form_phaseGate (q : ι) (P Q : PauliString ι)
    : form (phaseGate q P) (phaseGate q Q) = form P Q := by
  apply Finset.sum_congr rfl
  intro j _
  by_cases here : j = q
  · subst j
    have column : ∀ a b c d : ZMod 2, a * (d + c) + (b + a) * c = a * d + b * c := by decide
    simpa [phaseGate] using column (P.x q) (P.z q) (Q.x q) (Q.z q)
  · simp [phaseGate, here]

/-- A controlled-not moves one product from the target column to the control column. -/
theorem form_cnot {c t : ι} (distinct : c ≠ t) (P Q : PauliString ι)
    : form (cnot c t P) (cnot c t Q) = form P Q := by
  have columns : ∀ xc zc xt zt uc vc ut vt : ZMod 2,
      xc * (vc + vt) + (zc + zt) * uc + ((xt + xc) * vt + zt * (ut + uc))
      = xc * vc + zc * uc + (xt * vt + zt * ut) := by
    decide
  have sums := sum_add_congr_pair (a := (0 : ZMod 2)) (b := 0) distinct
    (f := fun j => (cnot c t P).x j * (cnot c t Q).z j + (cnot c t P).z j * (cnot c t Q).x j)
    (g := fun j => P.x j * Q.z j + P.z j * Q.x j)
    (fun j hc ht => by simp [cnot, hc, ht])
    (by simpa [cnot, distinct, distinct.symm] using columns (P.x c) (P.z c) (P.x t) (P.z t)
          (Q.x c) (Q.z c) (Q.x t) (Q.z t))
  simpa [form] using sums

omit [DecidableEq ι] in
@[simp] theorem form_flip_left (bit : ZMod 2) (P Q : PauliString ι)
    : form (flip bit P) Q = form P Q :=
  rfl

omit [DecidableEq ι] in
@[simp] theorem form_flip_right (bit : ZMod 2) (P Q : PauliString ι)
    : form P (flip bit Q) = form P Q :=
  rfl

end Form

/-- Adding two to the phase under any condition keeps its parity. -/
theorem parity_ite_add_two (condition : Prop) [Decidable condition] (k : ZMod 4)
    : parity (if condition then k + 2 else k) = parity k := by
  have two : parity 2 = 0 := (parity_eq_zero_iff 2).mpr (Or.inr rfl)
  split <;> simp [two]

theorem Hermitian.hadamard {P : PauliString ι} (h : P.Hermitian) (q : ι)
    : (hadamard q P).Hermitian :=
  (parity_ite_add_two _ _).trans h

theorem Hermitian.phaseGate {P : PauliString ι} (h : P.Hermitian) (q : ι)
    : (phaseGate q P).Hermitian :=
  (parity_ite_add_two _ _).trans h

theorem Hermitian.cnot {P : PauliString ι} (h : P.Hermitian) (c t : ι)
    : (cnot c t P).Hermitian :=
  (parity_ite_add_two _ _).trans h

omit [DecidableEq ι] in
theorem Hermitian.flip {P : PauliString ι} (h : P.Hermitian) (bit : ZMod 2)
    : (flip bit P).Hermitian :=
  (parity_ite_add_two _ _).trans h

end PauliString

end Stabilizer
