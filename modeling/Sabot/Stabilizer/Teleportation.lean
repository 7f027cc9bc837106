import Sabot.Stabilizer.CircuitEquivalence
import Sabot.Stabilizer.Sampling

/-! Teleportation: with a Bell pair shared between two qubits, measuring one of them together with a
third qubit moves the state of that qubit to the other half of the pair, up to corrections that the
two outcomes tell.
-/

namespace Stabilizer

open Function (update)

variable {ι : Type*} [Fintype ι] [DecidableEq ι] {a b c : ι}

/-- The bit of an outcome. -/
def outcomeBit (outcome : Bool) : ZMod 2 := if outcome then 1 else 0

namespace StateVector

-----------------------------------------------------------------------------------------
-- Bell pairs
-----------------------------------------------------------------------------------------

/-- The two qubits are in the state `|00> + |11>`. -/
def BellPair (b c : ι) (ψ : StateVector ι) : Prop :=
  ∀ v, ψ v = if v b = v c then ψ (update (update v b 0) c 0) else 0

omit [Fintype ι] in
/-- A Hadamard gate and a controlled-not gate make a Bell pair of two qubits in the state `|00>`. -/
theorem bellPair_prepared (distinct : b ≠ c) {ψ : StateVector ι}
    (zero : ∀ v, v b ≠ 0 ∨ v c ≠ 0 → ψ v = 0)
    : BellPair b c ((ψ.hadamard b).cnot b c) := by
  have double (f : ZMod 2 → ℂ) : ∑ x, f x = f 0 + f 1 := Fin.sum_univ_two f
  have equal : ∀ x y : ZMod 2, y + x = 0 ↔ x = y := by decide
  have one (v : ι → ZMod 2) : ψ (update v b 1) = 0 :=
    zero _ (Or.inl (by rw [Function.update_self]; decide))
  have amplitude (v : ι → ZMod 2) : (ψ.hadamard b).cnot b c v
      = if v b = v c then (1 / Real.sqrt 2 : ℂ) * ψ (update (update v b 0) c 0) else 0 := by
    rw [cnot, hadamard, double, one, mul_zero, add_zero, Function.update_of_ne distinct]
    split
    · rename_i same
      rw [(equal _ _).mpr same, Function.update_comm distinct.symm]
      simp [lift]
    · rename_i differ
      rw [zero _ (Or.inr ?_), mul_zero, mul_zero]
      rw [Function.update_of_ne distinct.symm, Function.update_self]
      exact fun sum => differ ((equal _ _).mp sum)
  intro v
  rw [amplitude, amplitude]
  simp [Function.update_of_ne distinct, Function.update_comm distinct]

omit [DecidableEq ι] in
/-- No qubit of the basis state zero is set. -/
theorem zeroState_apply {v : ι → ZMod 2} (other : v b ≠ 0 ∨ v c ≠ 0)
    : (zeroState : StateVector ι) v = 0 := by
  refine Pi.single_eq_of_ne ?_ _
  intro zero
  subst zero
  exact other.elim (fun ne => ne rfl) (fun ne => ne rfl)

omit [Fintype ι] in
theorem add_single (q : ι) (v : ι → ZMod 2) : v + Pi.single q 1 = update v q (v q + 1) := by
  ext j
  by_cases same : j = q
  · simp [same]
  · simp [same]

theorem singleX_act (q : ι) (ψ : StateVector ι) (v : ι → ZMod 2)
    : (PauliString.singleX q).act ψ v = ψ (update v q (v q + 1)) := by
  have entry : (PauliString.singleX q).entry v = 0 := by
    simp [PauliString.entry, PauliString.singleX, columnEntry]
  rw [PauliString.act, entry, iPow_zero, one_mul, ← add_single]
  rfl

theorem singleY_act (q : ι) (ψ : StateVector ι) (v : ι → ZMod 2)
    : (PauliString.singleY q).act ψ v = iPow (3 + 2 * lift (v q)) * ψ (update v q (v q + 1)) := by
  have bits : ∀ x : ZMod 2, columnEntry 1 1 x = 3 + 2 * lift x := by decide
  have off (j : ι) (ne : j ≠ q) : columnEntry ((Pi.single q 1 : ι → ZMod 2) j)
      ((Pi.single q 1 : ι → ZMod 2) j) (v j) = 0 := by
    rw [Pi.single_eq_of_ne ne]
    rfl
  have entry : (PauliString.singleY q).entry v = 3 + 2 * lift (v q) := by
    simp only [PauliString.entry, PauliString.singleY, zero_add]
    rw [Fintype.sum_eq_single q off, Pi.single_eq_same, bits]
  rw [PauliString.act, entry, ← add_single]
  rfl

/-- A flip of another qubit keeps a Bell pair. -/
theorem BellPair.singleX {ψ : StateVector ι} (pair : BellPair b c ψ) (ab : a ≠ b) (ac : a ≠ c)
    : BellPair b c ((PauliString.singleX a).act ψ) := by
  intro v
  rw [singleX_act, singleX_act, pair]
  simp only [Function.update_of_ne ab.symm, Function.update_of_ne ac.symm, Function.update_of_ne ab,
    Function.update_of_ne ac, Function.update_comm ab, Function.update_comm ac]

-----------------------------------------------------------------------------------------
-- Teleportation
-----------------------------------------------------------------------------------------

/-- The vector with the state of the first qubit moved to the third, and the first two qubits in the
basis states of the outcomes.
-/
def moved (a b c : ι) (first second : Bool) (ψ : StateVector ι) : StateVector ι := fun v =>
  if v a = outcomeBit first ∧ v b = outcomeBit second
  then ψ (update (update (update v a (v c)) b 0) c 0) else 0

/-- The corrections that the outcomes call for. -/
noncomputable def corrected (c : ι) (first second : Bool) (ψ : StateVector ι) : StateVector ι :=
  let φ := if second then (PauliString.singleX c).act ψ else ψ
  if first then (PauliString.signedZ c false).act φ else φ

omit [Fintype ι] [DecidableEq ι] in
theorem project_apply (q : ι) (outcome : Bool) (ψ : StateVector ι) (v : ι → ZMod 2)
    : project q outcome ψ v = if v q = outcomeBit outcome then ψ v else 0 :=
  rfl

theorem corrected_apply (c : ι) (first second : Bool) (ψ : StateVector ι) (v : ι → ZMod 2)
    : corrected c first second ψ v
      = iPow (2 * lift (v c) * lift (outcomeBit first))
        * ψ (update v c (v c + outcomeBit second)) := by
  have bits : ∀ x : ZMod 2,
      ((if false then 2 else 0) + (if x = 1 then 2 else 0) : ZMod 4) = 2 * lift x := by
    decide
  have signed (φ : StateVector ι) : (PauliString.signedZ c false).act φ v
      = iPow (2 * lift (v c)) * φ v := by
    rw [PauliString.signedZ_act, bits]
  cases first <;> cases second <;>
    simp [corrected, signed, singleX_act, outcomeBit, show lift 1 = 1 from rfl,
      show lift 0 = 0 from rfl]

/-- Projected on the outcomes and corrected, the vector has the state of the first qubit moved to the
third.
-/
theorem corrected_projected (ab : a ≠ b) (ac : a ≠ c) (bc : b ≠ c) {ψ : StateVector ι}
    (pair : BellPair b c ψ) (first second : Bool)
    : corrected c first second
        ((((ψ.cnot a b).hadamard a).project a first).project b second)
      = (1 / Real.sqrt 2 : ℂ) • moved a b c first second ψ := by
  have select : ∀ x y z : ZMod 2, y + x = z ↔ x = y + z := by decide
  have amplitude (v : ι → ZMod 2) : (ψ.cnot a b).hadamard a v
      = (1 / Real.sqrt 2 : ℂ) * (iPow (2 * lift (v b + v c) * lift (v a))
        * ψ (update (update (update v a (v b + v c)) b 0) c 0)) := by
    have term (x : ZMod 2) : ψ.cnot a b (update v a x)
        = if x = v b + v c then ψ (update (update (update v a x) b 0) c 0) else 0 := by
      rw [cnot, pair]
      simp only [Function.update_self, Function.update_of_ne ab.symm, Function.update_of_ne bc.symm,
        Function.update_of_ne ac.symm, Function.update_idem, select]
    simp only [hadamard, term, mul_ite, mul_zero, Finset.sum_ite_eq', Finset.mem_univ, if_true]
  -- The sign of the projected amplitude is undone by the correction.
  have undone : ∀ x y : ZMod 2, 2 * lift x * lift y + 2 * lift x * lift y = (0 : ZMod 4) := by
    decide
  have back : ∀ x z : ZMod 2, z + (x + z) = x := by decide
  ext v
  rw [corrected_apply, project_apply, project_apply, amplitude, Pi.smul_apply, smul_eq_mul, moved]
  simp only [Function.update_of_ne ac, Function.update_of_ne bc, Function.update_self]
  by_cases atSecond : v b = outcomeBit second
  · by_cases atFirst : v a = outcomeBit first
    · rw [if_pos atSecond, if_pos atFirst, if_pos ⟨atFirst, atSecond⟩, atFirst, atSecond, back,
        Function.update_comm ac.symm, Function.update_comm bc.symm, Function.update_idem,
        mul_left_comm, ← mul_assoc (iPow _) (iPow _), ← iPow_add, undone, iPow_zero, one_mul]
    · rw [if_pos atSecond, if_neg atFirst, if_neg (fun both => atFirst both.1), mul_zero, mul_zero]
  · rw [if_neg atSecond, if_neg (fun both => atSecond both.2), mul_zero, mul_zero]

/-- A vector that lies in a projection has its bit. -/
theorem fixes_of_project {q : ι} {outcome : Bool} {ψ : StateVector ι}
    (certain : project q outcome ψ = ψ)
    : (PauliString.signedZ q outcome).Fixes ψ := by
  rw [← certain]
  exact PauliString.signedZ_fixes_project q outcome ψ

/-- Where the first qubit has a definite bit, the third one has it afterwards. -/
theorem moved_fixed {ψ : StateVector ι} {sign : Bool} (ab : a ≠ b) (ac : a ≠ c)
    (fixed : (PauliString.signedZ a sign).Fixes ψ) (first second : Bool)
    : (PauliString.signedZ c sign).Fixes (moved a b c first second ψ) := by
  refine fixes_of_project (funext fun v => ?_)
  rw [project_apply]
  split
  · rfl
  · rename_i other
    rw [moved, ← fixed.project_eq, project_apply, Function.update_of_ne ac,
      Function.update_of_ne ab, Function.update_self, if_neg other, ite_self]

-----------------------------------------------------------------------------------------
-- Dense coding
-----------------------------------------------------------------------------------------

/-- Two bits that are encoded in one half of a Bell pair are the bits of both qubits once the pair
is rotated out of the Bell basis.
-/
theorem encoded_rotated (ab : a ≠ b) {ψ : StateVector ι} (pair : BellPair a b ψ)
    (first second : Bool) {v : ι → ZMod 2}
    (other : v a ≠ outcomeBit first ∨ v b ≠ outcomeBit second)
    : ((corrected a first second ψ).cnot a b).hadamard a v = 0 := by
  have cancel : ∀ x y z : ZMod 2, x + z = y + x ↔ y = z := by decide
  have term (x : ZMod 2) : (corrected a first second ψ).cnot a b (update v a x)
      = iPow (2 * lift x * lift (outcomeBit first))
        * if v b = outcomeBit second then ψ (update (update v a 0) b 0) else 0 := by
    rw [cnot, corrected_apply, pair]
    simp only [Function.update_self, Function.update_of_ne ab, Function.update_of_ne ab.symm,
      Function.update_idem, Function.update_comm ab, cancel]
  simp only [hadamard, term]
  by_cases atSecond : v b = outcomeBit second
  · have atFirst : v a ≠ outcomeBit first := other.resolve_right (fun ne => ne atSecond)
    have opposite : ∀ x y : ZMod 2, x ≠ y
        → 2 * lift 1 * lift x + 2 * lift 1 * lift y = (2 : ZMod 4) := by
      decide
    have none : ∀ x : ZMod 2, 2 * lift 0 * lift x = (0 : ZMod 4) := by decide
    have double (f : ZMod 2 → ℂ) : ∑ x, f x = f 0 + f 1 := Fin.sum_univ_two f
    rw [double, ← mul_assoc, ← mul_assoc, ← iPow_add, ← iPow_add, opposite _ _ atFirst, none, none,
      add_zero, iPow_zero, iPow_two]
    ring
  · simp only [if_neg atSecond, mul_zero, Finset.sum_const_zero]

theorem encoded_fixed (ab : a ≠ b) {ψ : StateVector ι} (pair : BellPair a b ψ)
    (first second : Bool)
    : (PauliString.signedZ a first).Fixes (((corrected a first second ψ).cnot a b).hadamard a)
      ∧ (PauliString.signedZ b second).Fixes
          (((corrected a first second ψ).cnot a b).hadamard a) := by
  constructor
  · refine fixes_of_project (funext fun v => ?_)
    rw [project_apply]
    split
    · rfl
    · rename_i other
      exact (encoded_rotated ab pair first second (Or.inl other)).symm
  · refine fixes_of_project (funext fun v => ?_)
    rw [project_apply]
    split
    · rfl
    · rename_i other
      exact (encoded_rotated ab pair first second (Or.inr other)).symm

end StateVector

/-- The Pauli gate that encodes two bits. -/
def encoding (a : ι) : Bool → Bool → Gate ι
  | false, false => .identity
  | false, true => .pauli (.singleX a)
  | true, false => .pauli (.signedZ a false)
  | true, true => .pauli (.singleY a)

/-- An encoding is a pair of corrections, up to a factor. -/
theorem exists_encoding (a : ι) (first second : Bool)
    : ∃ k : ℂ, k ≠ 0 ∧ ∀ ψ, (encoding a first second).unitary ψ
        = k • StateVector.corrected a first second ψ := by
  cases first with
  | false =>
      refine ⟨1, one_ne_zero, fun ψ => ?_⟩
      cases second <;> exact (one_smul ℂ _).symm
  | true =>
      cases second with
      | false => exact ⟨1, one_ne_zero, fun ψ => (one_smul ℂ _).symm⟩
      | true =>
          refine ⟨iPow 3, iPow_ne_zero 3, fun ψ => ?_⟩
          ext v
          rw [encoding, Gate.unitary, StateVector.singleY_act, Pi.smul_apply,
            StateVector.corrected_apply, iPow_add, smul_eq_mul, mul_assoc]
          simp [outcomeBit, show lift 1 = 1 from rfl]

/-- A measurement projects on the outcome that it reports. -/
theorem Evolution.measured {q : ι} {rest : List (Operation ι)} {ψ φ : StateVector ι}
    {coins left : Stream' Bool} {outcomes : List Bool}
    (run : Evolution (.measure q :: rest) ψ coins outcomes φ left)
    : ∃ outcome more coins, outcomes = outcome :: more ∧ 0 < ψ.probability q outcome
        ∧ Evolution rest (ψ.project q outcome) coins more φ left := by
  cases run with
  | random likelyFalse likelyTrue continues =>
      refine ⟨_, _, _, rfl, ?_, continues⟩
      cases coins.head with
      | false => rw [likelyFalse]; norm_num
      | true => rw [likelyTrue]; norm_num
  | determined certain continues =>
      refine ⟨_, _, _, rfl, ?_, continues⟩
      rw [certain]
      exact one_pos

/-- A run on a multiple of a vector. -/
theorem Evolution.smul {circuit : List (Operation ι)} {ψ φ : StateVector ι}
    {coins left : Stream' Bool} {outcomes : List Bool} {k : ℂ} (scalar : k ≠ 0)
    (run : Evolution circuit ψ coins outcomes φ left)
    : Evolution circuit (k • ψ) coins outcomes (k • φ) left := by
  induction run with
  | done => exact .done
  | gate _ ih =>
      refine .gate ?_
      rw [Gate.unitary_smul]
      exact ih
  | random likelyFalse likelyTrue _ ih =>
      refine .random ?_ ?_ ?_
      · rw [StateVector.probability_smul _ _ scalar, likelyFalse]
      · rw [StateVector.probability_smul _ _ scalar, likelyTrue]
      · rw [StateVector.project_smul]
        exact ih
  | determined certain _ ih =>
      refine .determined ((StateVector.probability_smul _ _ scalar _).trans certain) ?_
      rw [StateVector.project_smul]
      exact ih

/-- The measurement of two qubits in the Bell basis. -/
def bellMeasurement (a b : ι) (ab : a ≠ b) : List (Operation ι) :=
  [.gate (.cnot a b ab), .gate (.hadamard a), .measure a, .measure b]

/-- The corrections as operations. -/
def corrections (c : ι) (first second : Bool) : List (Operation ι) :=
  (if second then [.gate (.pauli (PauliString.singleX c))] else [])
    ++ if first then [.gate (.pauli (PauliString.signedZ c false))] else []

/-- A circuit behind the corrections runs on the corrected vector. -/
theorem Evolution.of_corrections {first second : Bool} {rest : List (Operation ι)}
    {ψ φ : StateVector ι} {coins left : Stream' Bool} {outcomes : List Bool}
    (run : Evolution (corrections c first second ++ rest) ψ coins outcomes φ left)
    : Evolution rest (StateVector.corrected c first second ψ) coins outcomes φ left := by
  cases first with
  | false =>
      cases second with
      | false => exact run
      | true =>
          cases run with
          | gate run => exact run
  | true =>
      cases second with
      | false =>
          cases run with
          | gate run => exact run
      | true =>
          cases run with
          | gate run =>
              cases run with
              | gate run => exact run

/-- Teleportation. After a Bell measurement with one half of a Bell pair, a circuit that follows the
corrections runs as on the vector with the state of the measured qubit moved to the other half.
-/
theorem Evolution.teleports (ab : a ≠ b) (ac : a ≠ c) (bc : b ≠ c) {ψ φ : StateVector ι}
    (pair : StateVector.BellPair b c ψ) {coins left : Stream' Bool} {outcomes : List Bool}
    (run : Evolution (bellMeasurement a b ab) ψ coins outcomes φ left)
    : ∃ first second, outcomes = [first, second] ∧
        ∀ {rest coins later χ last},
          Evolution (corrections c first second ++ rest) φ coins later χ last
          → ∃ χ, Evolution rest (StateVector.moved a b c first second ψ) coins later χ last := by
  cases run with
  | gate run =>
      cases run with
      | gate run =>
          obtain ⟨first, _, _, rfl, _, following⟩ := run.measured
          obtain ⟨second, _, _, rfl, _, final⟩ := following.measured
          cases final
          refine ⟨first, second, rfl, fun {rest coins later χ last} corrects => ?_⟩
          have scalar : (Real.sqrt 2 : ℂ) ≠ 0 := by simp
          have continues := (corrects.of_corrections).smul scalar
          simp only [Gate.unitary, StateVector.corrected_projected ab ac bc pair, smul_smul,
            one_div, mul_inv_cancel₀ scalar, one_smul] at continues
          exact ⟨_, continues⟩

/-- A measurement reports the bit that the qubit has, and leaves the vector. -/
theorem Evolution.reports {q : ι} {sign : Bool} {rest : List (Operation ι)} {ψ φ : StateVector ι}
    (fixed : (PauliString.signedZ q sign).Fixes ψ) {coins left : Stream' Bool}
    {outcomes : List Bool} (run : Evolution (.measure q :: rest) ψ coins outcomes φ left)
    : ∃ more, outcomes = sign :: more ∧ Evolution rest ψ coins more φ left := by
  have never := StateVector.probability_eq_zero fixed.project_eq
  cases run with
  | random likelyFalse likelyTrue _ =>
      cases sign with
      | false => exact absurd (likelyTrue.symm.trans never) (by norm_num)
      | true => exact absurd (likelyFalse.symm.trans never) (by norm_num)
  | @determined _ outcome _ _ _ more _ _ certain continues =>
      obtain rfl : outcome = sign := by
        by_contra differ
        rw [← Bool.eq_not_of_ne differ] at never
        exact one_ne_zero (certain.symm.trans never)
      exact ⟨more, rfl, fixed.project_eq ▸ continues⟩

/-- Dense coding. The measurement of a Bell pair in the Bell basis reads the two bits that were
encoded in one half of it, without a coin.
-/
theorem Evolution.decodes (ab : a ≠ b) {ψ φ : StateVector ι} (pair : StateVector.BellPair a b ψ)
    {first second : Bool} {coins left : Stream' Bool} {outcomes : List Bool}
    (run : Evolution (bellMeasurement a b ab) ((encoding a first second).unitary ψ) coins outcomes
      φ left)
    : outcomes = [first, second] ∧ left = coins := by
  obtain ⟨k, scalar, encoded⟩ := exists_encoding a first second
  rw [encoded] at run
  replace run := run.smul (inv_ne_zero scalar)
  rw [smul_smul, inv_mul_cancel₀ scalar, one_smul] at run
  generalize k⁻¹ • φ = χ at run
  cases run with
  | gate run =>
      cases run with
      | gate run =>
          obtain ⟨fixedA, fixedB⟩ := StateVector.encoded_fixed ab pair first second
          obtain ⟨_, rfl, following⟩ := run.reports fixedA
          obtain ⟨_, rfl, final⟩ := following.reports fixedB
          cases final
          exact ⟨rfl, rfl⟩

end Stabilizer
