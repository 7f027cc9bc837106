import Sabot.Stabilizer.Tableau

/-! Stabilizer circuits with measurements, run on state vectors and on tableaux. Both runs take
their randomness from a stream of coins, and the tableau run simulates the vector run.
-/

namespace Stabilizer

variable {ι : Type*}

/-- The unitary gates of a stabilizer circuit. -/
inductive Gate (ι : Type*) where
  | identity
  | hadamard (q : ι)
  | phase (q : ι)
  | cnot (control target : ι) (distinct : control ≠ target)
  | pauli (P : PauliString ι)

/-- One operation of a circuit. -/
inductive Operation (ι : Type*) where
  | gate (g : Gate ι)
  | measure (q : ι)

def Operation.isMeasure : Operation ι → Bool
  | .gate _ => false
  | .measure _ => true

namespace Gate

variable [Fintype ι] [DecidableEq ι]

/-- The gate on state vectors. -/
noncomputable def unitary : Gate ι → StateVector ι → StateVector ι
  | identity, ψ => ψ
  | hadamard q, ψ => ψ.hadamard q
  | phase q, ψ => ψ.phaseGate q
  | cnot control target _, ψ => ψ.cnot control target
  | pauli P, ψ => P.act ψ

/-- The gate on the strings that it conjugates. -/
def conjugate : Gate ι → PauliString ι → PauliString ι
  | identity, Q => Q
  | hadamard q, Q => Q.hadamard q
  | phase q, Q => Q.phaseGate q
  | cnot control target _, Q => Q.cnot control target
  | pauli P, Q => Q.flip (Q.form P)

/-- Conjugated strings act behind the gate as the strings did before it. -/
theorem act_conjugate (g : Gate ι) (Q : PauliString ι) (ψ : StateVector ι)
    : (g.conjugate Q).act (g.unitary ψ) = g.unitary (Q.act ψ) := by
  cases g with
  | identity => rfl
  | hadamard q => exact Q.act_hadamard q ψ
  | phase q => exact Q.act_phaseGate q ψ
  | cnot control target distinct => exact Q.act_cnot distinct ψ
  | pauli P => exact Q.act_flip_form P ψ

/-- Every gate but the phase gate undoes itself. -/
theorem conjugate_conjugate {g : Gate ι} (off : ∀ q, g ≠ phase q) (P : PauliString ι)
    : g.conjugate (g.conjugate P) = P := by
  cases g with
  | identity => rfl
  | hadamard q => exact PauliString.hadamard_hadamard q P
  | phase q => exact absurd rfl (off q)
  | cnot control target distinct => exact PauliString.cnot_cnot distinct P
  | pauli Q =>
      rw [conjugate, conjugate, PauliString.form_flip_left]
      exact PauliString.flip_flip (P.form Q) P

theorem form_conjugate (g : Gate ι) (P Q : PauliString ι)
    : (g.conjugate P).form (g.conjugate Q) = P.form Q := by
  cases g with
  | identity => rfl
  | hadamard q => exact PauliString.form_hadamard q P Q
  | phase q => exact PauliString.form_phaseGate q P Q
  | cnot control target distinct => exact PauliString.form_cnot distinct P Q
  | pauli R => rfl

theorem hermitian_conjugate (g : Gate ι) {P : PauliString ι} (sign : P.Hermitian)
    : (g.conjugate P).Hermitian := by
  cases g with
  | identity => exact sign
  | hadamard q => exact sign.hadamard q
  | phase q => exact sign.phaseGate q
  | cnot control target distinct => exact sign.cnot control target
  | pauli R => exact sign.flip _

theorem unitary_ne_zero (g : Gate ι) {ψ : StateVector ι} (nonzero : ψ ≠ 0)
    : g.unitary ψ ≠ 0 := by
  cases g with
  | identity => exact nonzero
  | hadamard q => exact StateVector.hadamard_ne_zero q nonzero
  | phase q => exact StateVector.phaseGate_ne_zero q nonzero
  | cnot control target distinct => exact StateVector.cnot_ne_zero distinct nonzero
  | pauli P => exact StateVector.act_ne_zero P nonzero

end Gate

-----------------------------------------------------------------------------------------
-- Runs of a circuit
-----------------------------------------------------------------------------------------

section Runs

variable [Fintype ι] [DecidableEq ι]

/-- The runs of a circuit on a state vector: from a vector and a stream of coins to the
outcomes, the final vector and the coins left. A measurement takes its outcome from a coin when
both outcomes are equally likely, and reports a certain outcome otherwise.
-/
inductive Evolution
    : List (Operation ι) → StateVector ι → Stream' Bool
      → List Bool → StateVector ι → Stream' Bool → Prop where
  | done {ψ coins} : Evolution [] ψ coins [] ψ coins
  | gate {g rest ψ coins outcomes φ left}
      (continues : Evolution rest (g.unitary ψ) coins outcomes φ left)
      : Evolution (.gate g :: rest) ψ coins outcomes φ left
  | random {q rest ψ coins outcomes φ left}
      (likelyFalse : ψ.probability q false = 1 / 2)
      (likelyTrue : ψ.probability q true = 1 / 2)
      (continues : Evolution rest (ψ.project q coins.head) coins.tail outcomes φ left)
      : Evolution (.measure q :: rest) ψ coins (coins.head :: outcomes) φ left
  | determined {q outcome rest ψ coins outcomes φ left}
      (certain : ψ.probability q outcome = 1)
      (continues : Evolution rest (ψ.project q outcome) coins outcomes φ left)
      : Evolution (.measure q :: rest) ψ coins (outcome :: outcomes) φ left

/-- One operation on a tableau. A measurement with a pivot takes a coin; without one it reads
the outcome off the product of the stabilizers whose partners have an X bit on the qubit.
-/
inductive Tableau.Step (T : Tableau ι) (coins : Stream' Bool)
    : Operation ι → List Bool → Tableau ι → Stream' Bool → Prop where
  | gate (g : Gate ι) : Step T coins (.gate g) [] (T.map g.conjugate) coins
  | random {q p : ι} (pivot : (T.stabilizer p).x q = 1)
      : Step T coins (.measure q) [coins.head] (T.collapse q p coins.head) coins.tail
  | determined {q m : ι} {rest : List ι} (noPivot : ∀ i, (T.stabilizer i).x q = 0)
      (nodup : (m :: rest).Nodup)
      (listed : ∀ i, i ∈ m :: rest ↔ (T.destabilizer i).x q = 1)
      : Step T coins (.measure q) [decide ((T.product (T.stabilizer m) rest).phase = 2)] T coins

/-- Every operation keeps the symplectic invariant. -/
theorem Tableau.Step.valid {T U : Tableau ι} {coins left : Stream' Bool}
    {op : Operation ι} {outcomes : List Bool} (step : T.Step coins op outcomes U left)
    (valid : T.Valid)
    : U.Valid := by
  cases step with
  | gate g => exact valid.map g.form_conjugate g.hermitian_conjugate
  | random pivot => exact valid.collapse pivot _
  | determined noPivot nodup listed => exact valid

/-- One operation on a tableau is matched by the vector that the tableau stabilizes. -/
theorem Tableau.Step.simulates {T U : Tableau ι} {coins left : Stream' Bool}
    {op : Operation ι} {outcomes : List Bool} (step : T.Step coins op outcomes U left)
    (valid : T.Valid) {ψ : StateVector ι} (stabilizes : T.Stabilizes ψ)
    : ∃ φ, Evolution [op] ψ coins outcomes φ left ∧ U.Stabilizes φ := by
  cases step with
  | gate g =>
      refine ⟨g.unitary ψ, .gate .done, ?_⟩
      exact stabilizes.map g.act_conjugate (g.unitary_ne_zero stabilizes.nonzero)
  | @random q p pivot =>
      refine ⟨ψ.project q coins.head, .random ?_ ?_ .done, stabilizes.collapse pivot _⟩
      · exact stabilizes.probability_eq_half pivot false
      · exact stabilizes.probability_eq_half pivot true
  | @determined q m rest noPivot nodup listed =>
      have fixed := T.product_fixes stabilizes.fixed (stabilizes.fixed m) rest
      rw [valid.product_eq_signedZ noPivot nodup listed] at fixed
      obtain ⟨certain, kept⟩ := stabilizes.determined fixed
      exact ⟨_, .determined certain .done, kept⟩

/-- Runs of consecutive parts of a circuit make a run of the whole. -/
theorem Evolution.append {first second : List (Operation ι)} {ψ φ χ : StateVector ι}
    {coins middle left : Stream' Bool} {outcomes more : List Bool}
    (before : Evolution first ψ coins outcomes φ middle)
    (after : Evolution second φ middle more χ left)
    : Evolution (first ++ second) ψ coins (outcomes ++ more) χ left := by
  induction before with
  | done => exact after
  | gate _ ih => exact .gate (ih after)
  | random likelyFalse likelyTrue _ ih => exact .random likelyFalse likelyTrue (ih after)
  | determined certain _ ih => exact .determined certain (ih after)

/-- A run has one outcome for each measurement. -/
theorem Evolution.length_outcomes {circuit : List (Operation ι)} {ψ φ : StateVector ι}
    {coins left : Stream' Bool} {outcomes : List Bool}
    (run : Evolution circuit ψ coins outcomes φ left)
    : outcomes.length = circuit.countP Operation.isMeasure := by
  induction run with
  | done => rfl
  | gate _ ih => simp [ih, Operation.isMeasure]
  | random _ _ _ ih => simp [ih, List.countP_cons, Operation.isMeasure]
  | determined _ _ ih => simp [ih, List.countP_cons, Operation.isMeasure]

end Runs

end Stabilizer
