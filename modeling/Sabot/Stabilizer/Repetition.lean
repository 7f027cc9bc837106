import Sabot.Stabilizer.StabilizerGroup
import Sabot.Stabilizer.Machine

/-! Operations that keep a measured qubit measured. A qubit on which `Z` has a definite sign keeps
one as long as the gates commute with `Z` there up to a sign, whatever else is measured.
-/

namespace Stabilizer

variable {ι : Type*} [Fintype ι] [DecidableEq ι]

/-- The gate takes `Z` on the qubit to itself or its negative. -/
def Gate.Spares (q : ι) : Gate ι → Prop
  | .hadamard k => k ≠ q
  | .cnot _ target _ => target ≠ q
  | .identity | .phase _ | .pauli _ => True

/-- The gate negates `Z` on the qubit. -/
def Gate.negatesZ (q : ι) : Gate ι → Bool
  | .pauli P => P.x q = 1
  | .identity | .hadamard _ | .phase _ | .cnot _ _ _ => false

def Operation.Spares (q : ι) : Operation ι → Prop
  | .gate g => g.Spares q
  | .measure _ => True

def Operation.negatesZ (q : ι) : Operation ι → Bool
  | .gate g => g.negatesZ q
  | .measure _ => false

theorem Gate.conjugate_signedZ {g : Gate ι} {q : ι} (spares : g.Spares q) (sign : Bool)
    : g.conjugate (.signedZ q sign) = .signedZ q (sign ^^ g.negatesZ q) := by
  cases g with
  | identity => simp [conjugate, negatesZ]
  | hadamard k =>
      have off : k ≠ q := spares
      have zero : (PauliString.signedZ q sign).z k = 0 := Pi.single_eq_of_ne off 1
      refine PauliString.ext ?_ ?_ ?_
      · simp only [conjugate, PauliString.hadamard, zero]
        exact Function.update_eq_self k (0 : ι → ZMod 2)
      · simp only [conjugate, PauliString.hadamard]
        exact (congrArg (Function.update _ k) zero.symm).trans (Function.update_eq_self k _)
      · simp [conjugate, PauliString.hadamard, PauliString.signedZ, negatesZ]
  | phase k =>
      refine PauliString.ext rfl ?_ ?_
      · simp [conjugate, PauliString.phaseGate, PauliString.signedZ]
      · simp [conjugate, PauliString.phaseGate, PauliString.signedZ, negatesZ]
  | cnot c t distinct =>
      have off : t ≠ q := spares
      have zero : (PauliString.signedZ q sign).z t = 0 := Pi.single_eq_of_ne off 1
      refine PauliString.ext ?_ ?_ ?_
      · simp [conjugate, PauliString.cnot, PauliString.signedZ]
      · simp only [conjugate, PauliString.cnot, zero, add_zero, Function.update_eq_self]
        rfl
      · simp [conjugate, PauliString.cnot, PauliString.signedZ, negatesZ]
  | pauli P =>
      have bits : ∀ a : ZMod 2, ∀ sign : Bool,
          (if a = 1 then (if sign then (2 : ZMod 4) else 0) + 2 else if sign then 2 else 0)
          = if (sign ^^ decide (a = 1)) then 2 else 0 := by
        decide
      refine PauliString.ext rfl rfl ?_
      simp only [conjugate, PauliString.flip]
      rw [PauliString.form_comm, PauliString.form_signedZ]
      exact bits (P.x q) sign

/-- One operation carries the sign of `Z` along. -/
theorem Evolution.keeps_sign {op : Operation ι} {q : ι} (spares : op.Spares q)
    {ψ φ : StateVector ι} {coins left : Stream' Bool} {outcomes : List Bool} {sign : Bool}
    (evolves : Evolution [op] ψ coins outcomes φ left)
    (fixed : (PauliString.signedZ q sign).Fixes ψ)
    : (PauliString.signedZ q (sign ^^ op.negatesZ q)).Fixes φ := by
  have measured {k : ι} (outcome : Bool)
      : (PauliString.signedZ q (sign ^^ false)).Fixes (ψ.project k outcome) := by
    rw [Bool.xor_false]
    exact fixed.project rfl outcome
  cases evolves with
  | gate continues =>
      cases continues
      rename_i g
      unfold PauliString.Fixes at *
      rw [Operation.negatesZ, ← Gate.conjugate_signedZ spares, g.act_conjugate, fixed]
  | random _ _ continues =>
      cases continues
      exact measured _
  | determined _ continues =>
      cases continues
      exact measured _

/-- A measurement leaves `Z` with the sign of its outcome. -/
theorem Evolution.measured_sign {q : ι} {ψ φ : StateVector ι} {coins left : Stream' Bool}
    {outcome : Bool} (evolves : Evolution [.measure q] ψ coins [outcome] φ left)
    : (PauliString.signedZ q outcome).Fixes φ := by
  cases evolves with
  | random _ _ continues =>
      cases continues
      exact PauliString.signedZ_fixes_project q _ ψ
  | determined _ continues =>
      cases continues
      exact PauliString.signedZ_fixes_project q _ ψ

namespace Tableau

variable {order : List ι} {T : Tableau ι} {q : ι} {sign : Bool}

/-- Where `Z` has a definite sign, a measurement draws no coin and reports the sign. -/
theorem operate_of_sign (complete : ∀ i, i ∈ order) (once : order.Nodup) (valid : T.Valid)
    {ψ : StateVector ι} (stabilizes : T.Stabilizes ψ)
    (fixed : (PauliString.signedZ q sign).Fixes ψ) (coins : Stream' Bool)
    : T.operate order coins (.measure q) = ([sign], T, coins) := by
  have none : T.pivot order q = none := by
    cases found : T.pivot order q with
    | none => rfl
    | some p =>
        have half := stabilizes.probability_eq_half (pivot_bit found) sign
        have one := StateVector.probability_eq_one stabilizes.nonzero fixed.project_eq
        rw [half] at one
        norm_num at one
  have noPivot := (pivot_eq_none complete).mp none
  have readout := valid.readout_eq complete once noPivot
  have member : T.readout order q ∈ T.group := product_mem_group T (one_mem _) _
  rw [readout] at member
  have same := PauliString.signedZ_unique stabilizes.nonzero (stabilizes.fixes member) fixed
  simp only [operate, none, same]

end Tableau

end Stabilizer
