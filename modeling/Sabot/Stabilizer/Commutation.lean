import Sabot.Stabilizer.Repetition

/-! Operations on different qubits commute. A gate reads and writes its own qubits only, its phase
is decided there, and conjugation by it is multiplicative, so that it can be moved past gates and
measurements elsewhere.
-/

namespace Stabilizer

variable {ι : Type*} [Fintype ι] [DecidableEq ι]

namespace Gate

/-- The gate does not act on the qubit. -/
def Off (q : ι) : Gate ι → Prop
  | identity => True
  | hadamard k | phase k => k ≠ q
  | cnot control target _ => control ≠ q ∧ target ≠ q
  | pauli P => P.x q = 0 ∧ P.z q = 0

variable {g k : Gate ι} {P Q : PauliString ι} {q : ι}

/-- Qubits that a gate does not act on keep their bits. -/
theorem conjugate_off (off : g.Off q)
    : (g.conjugate P).x q = P.x q ∧ (g.conjugate P).z q = P.z q := by
  cases g with
  | identity => exact ⟨rfl, rfl⟩
  | hadamard k =>
      exact ⟨Function.update_of_ne (Ne.symm off) _ _, Function.update_of_ne (Ne.symm off) _ _⟩
  | phase k => exact ⟨rfl, Function.update_of_ne (Ne.symm off) _ _⟩
  | cnot control target distinct =>
      exact ⟨Function.update_of_ne (Ne.symm off.2) _ _, Function.update_of_ne (Ne.symm off.1) _ _⟩
  | pauli R => exact ⟨rfl, rfl⟩

/-- The two strings have the same bits on the qubits that the gate acts on. -/
def Agree (g : Gate ι) (P Q : PauliString ι) : Prop :=
  ∀ q, ¬g.Off q → P.x q = Q.x q ∧ P.z q = Q.z q

omit [DecidableEq ι] in
theorem Agree.form {R : PauliString ι} (agree : (pauli R).Agree P Q) : P.form R = Q.form R := by
  refine Finset.sum_congr rfl ?_
  intro q _
  by_cases off : (pauli R).Off q
  · rw [off.1, off.2, mul_zero, mul_zero, mul_zero, mul_zero]
  · obtain ⟨x, z⟩ := agree q off
    rw [x, z]

/-- What a gate does on its own qubits and to the phase is decided by the bits there. -/
theorem conjugate_agree (agree : g.Agree P Q)
    : g.Agree (g.conjugate P) (g.conjugate Q)
      ∧ (g.conjugate P).phase - P.phase = (g.conjugate Q).phase - Q.phase := by
  have phases (condition : Prop) [Decidable condition] (k : ZMod 4)
      : (if condition then k + 2 else k) - k = if condition then 2 else 0 := by
    split <;> ring
  cases g with
  | identity => exact ⟨agree, by simp [conjugate]⟩
  | hadamard k =>
      obtain ⟨x, z⟩ := agree k (fun off => off rfl)
      refine ⟨fun q on => ?_, ?_⟩
      · obtain rfl : k = q := not_not.mp on
        simp [conjugate, PauliString.hadamard, x, z]
      · simp only [conjugate, PauliString.hadamard, phases, x, z]
  | phase k =>
      obtain ⟨x, z⟩ := agree k (fun off => off rfl)
      refine ⟨fun q on => ?_, ?_⟩
      · obtain rfl : k = q := not_not.mp on
        simp [conjugate, PauliString.phaseGate, x, z]
      · simp only [conjugate, PauliString.phaseGate, phases, x, z]
  | cnot c t distinct =>
      obtain ⟨xc, zc⟩ := agree c (fun off => off.1 rfl)
      obtain ⟨xt, zt⟩ := agree t (fun off => off.2 rfl)
      refine ⟨fun q on => ?_, ?_⟩
      · obtain ⟨x, z⟩ := agree q on
        simp [conjugate, PauliString.cnot, Function.update_apply, xc, zc, xt, zt, x, z]
      · simp only [conjugate, PauliString.cnot, phases, xc, zc, xt, zt]
  | pauli R => exact ⟨agree, by simp only [conjugate, PauliString.flip, phases, agree.form]⟩

/-- The two gates act on different qubits. -/
def Disjoint (g k : Gate ι) : Prop := ∀ q, g.Off q ∨ k.Off q

omit [Fintype ι] [DecidableEq ι] in
theorem Disjoint.symm (disjoint : Disjoint g k) : Disjoint k g := fun q => (disjoint q).symm

/-- A gate elsewhere does not change what a gate sees. -/
theorem Disjoint.agree (disjoint : Disjoint g k) (P : PauliString ι)
    : g.Agree (k.conjugate P) P :=
  fun q on => conjugate_off ((disjoint q).resolve_left on)

/-- Gates on different qubits commute. -/
theorem conjugate_comm (disjoint : Disjoint g k) (P : PauliString ι)
    : g.conjugate (k.conjugate P) = k.conjugate (g.conjugate P) := by
  obtain ⟨bitsG, phaseG⟩ := conjugate_agree (disjoint.agree P)
  obtain ⟨bitsK, phaseK⟩ := conjugate_agree (disjoint.symm.agree P)
  have bits (q : ι)
      : (g.conjugate (k.conjugate P)).x q = (k.conjugate (g.conjugate P)).x q
        ∧ (g.conjugate (k.conjugate P)).z q = (k.conjugate (g.conjugate P)).z q := by
    by_cases off : g.Off q
    · have first := conjugate_off off (P := k.conjugate P)
      rw [first.1, first.2]
      by_cases offK : k.Off q
      · have second := conjugate_off offK (P := P)
        have third := conjugate_off offK (P := g.conjugate P)
        have fourth := conjugate_off off (P := P)
        rw [second.1, second.2, third.1, third.2, fourth.1, fourth.2]
        exact ⟨rfl, rfl⟩
      · exact ⟨(bitsK q offK).1.symm, (bitsK q offK).2.symm⟩
    · have first := conjugate_off ((disjoint q).resolve_left off) (P := g.conjugate P)
      rw [first.1, first.2]
      exact bitsG q off
  refine PauliString.ext (funext fun q => (bits q).1) (funext fun q => (bits q).2) ?_
  linear_combination phaseG - phaseK

/-- A gate elsewhere fixes `Z` on the qubit. -/
theorem conjugate_signedZ_off (off : g.Off q) (sign : Bool)
    : g.conjugate (.signedZ q sign) = .signedZ q sign := by
  have spares : g.Spares q := by
    cases g with
    | hadamard k => exact off
    | cnot control target distinct => exact off.2
    | identity | phase _ | pauli _ => trivial
  have keeps : g.negatesZ q = false := by
    cases g with
    | pauli R => simp [negatesZ, off.1]
    | identity | hadamard _ | phase _ | cnot _ _ _ => rfl
  rw [conjugate_signedZ spares, keeps, Bool.xor_false]

theorem conjugate_one (g : Gate ι) : g.conjugate 1 = 1 := map_one g.conjugation

end Gate

/-- The operation acts on none of the gate's qubits. -/
def Operation.Avoids (g : Gate ι) : Operation ι → Prop
  | .gate k => g.Disjoint k
  | .measure q => g.Off q

namespace Tableau

variable {order : List ι} {T : Tableau ι} {g : Gate ι} {q : ι}

/-- A gate elsewhere does not change where the pivot and the partners are. -/
theorem pivot_map (off : g.Off q) : (T.map g.conjugate).pivot order q = T.pivot order q := by
  simp only [pivot, map, (Gate.conjugate_off off).1]

theorem partners_map (off : g.Off q)
    : (T.map g.conjugate).partners order q = T.partners order q := by
  simp only [partners, map, (Gate.conjugate_off off).1]

theorem product_map (start : PauliString ι) (rows : List ι)
    : (T.map g.conjugate).product (g.conjugate start) rows
      = g.conjugate (T.product start rows) := by
  induction rows generalizing start with
  | nil => rfl
  | cons i rest ih =>
      simp only [product, List.foldl_cons, map] at ih ⊢
      rw [← Gate.conjugate_mul]
      exact ih _

theorem readout_map (off : g.Off q)
    : (T.map g.conjugate).readout order q = g.conjugate (T.readout order q) := by
  rw [readout, readout, partners_map off, ← product_map, Gate.conjugate_one]

theorem absorb_conjugate (off : g.Off q) (pivot row : PauliString ι)
    : absorb q (g.conjugate pivot) (g.conjugate row) = g.conjugate (absorb q pivot row) := by
  unfold absorb
  rw [(Gate.conjugate_off off).1, apply_ite g.conjugate, Gate.conjugate_mul]

theorem collapse_map (off : g.Off q) (p : ι) (outcome : Bool)
    : (T.map g.conjugate).collapse q p outcome = (T.collapse q p outcome).map g.conjugate := by
  apply Tableau.ext
  · funext i
    simp only [collapse, map, absorb_conjugate off]
    split <;> rfl
  · funext i
    simp only [collapse, map, absorb_conjugate off]
    split
    · exact (Gate.conjugate_signedZ_off off outcome).symm
    · rfl

/-- A gate can be moved past a measurement of another qubit. -/
theorem operate_map (valid : T.Valid) (complete : ∀ i, i ∈ order) (once : order.Nodup)
    (off : g.Off q) (coins : Stream' Bool)
    : (T.map g.conjugate).operate order coins (.measure q)
      = ((T.operate order coins (.measure q)).1,
          (T.operate order coins (.measure q)).2.1.map g.conjugate,
          (T.operate order coins (.measure q)).2.2) := by
  cases found : T.pivot order q with
  | some p => simp only [operate, pivot_map off, found, collapse_map off]
  | none =>
      have readout := valid.readout_eq complete once ((pivot_eq_none complete).mp found)
      have same : (T.map g.conjugate).readout order q = T.readout order q := by
        rw [readout_map off, readout]
        exact Gate.conjugate_signedZ_off off _
      simp only [operate, pivot_map off, found, same]

/-- A gate and an operation on other qubits can be run in either order. -/
theorem run_comm (valid : T.Valid) (complete : ∀ i, i ∈ order) (once : order.Nodup)
    {op : Operation ι} (avoids : op.Avoids g) (coins : Stream' Bool)
    : run order [.gate g, op] T coins = run order [op, .gate g] T coins := by
  cases op with
  | gate k =>
      simp only [run, operate, map, Gate.conjugate_comm avoids]
  | measure q =>
      have moved := operate_map valid complete once avoids coins
      simp only [run]
      rw [show T.operate order coins (.gate g) = ([], T.map g.conjugate, coins) from rfl, moved]
      rfl

end Tableau

end Stabilizer
