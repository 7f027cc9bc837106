import Sabot.Coins
import Sabot.Stabilizer.Observation

/-! With fair coins the outcomes of a run on a tableau follow Born's rule: the chance of a string of
outcomes is the product of the probabilities of its measurements along the projected vectors.
-/

namespace Stabilizer

open Coins

variable {ι : Type*} [Fintype ι] [DecidableEq ι]

/-- The probability that a circuit reports the outcomes, by Born's rule: each measurement projects
the vector that the next operation acts on.
-/
noncomputable def bornProbability : List (Operation ι) → StateVector ι → List Bool → ℝ
  | [], _, [] => 1
  | [], _, _ :: _ => 0
  | .gate g :: rest, ψ, outcomes => bornProbability rest (g.unitary ψ) outcomes
  | .measure _ :: _, _, [] => 0
  | .measure q :: rest, ψ, outcome :: outcomes =>
      ψ.probability q outcome * bornProbability rest (ψ.project q outcome) outcomes

/-- When one outcome is certain, the other one does not occur. -/
theorem StateVector.probability_eq_zero {q : ι} {outcome : Bool} {ψ : StateVector ι}
    (certain : project q outcome ψ = ψ)
    : probability q (!outcome) ψ = 0 := by
  have total := weight_project_add q ψ
  have other : weight (project q (!outcome) ψ) = 0 := by
    cases outcome with
    | false =>
        rw [certain] at total
        exact add_eq_left.mp total
    | true =>
        rw [certain] at total
        exact add_eq_right.mp total
  rw [probability, other, zero_div]

namespace Tableau

variable {order : List ι} {T : Tableau ι} {q : ι} {ψ : StateVector ι}

/-- A measurement with a pivot: the first coin is the outcome, and the rest runs on the tableau of
that outcome.
-/
theorem chance_random {p : ι} (found : T.pivot order q = some p) (rest : List (Operation ι))
    (D : Nat) (outcome : Bool) (outcomes : List Bool)
    : chance (D + 1) (fun coins => (run order (.measure q :: rest) T coins).1 = outcome :: outcomes)
      = chance D (fun coins =>
          (run order rest (T.collapse q p outcome) coins).1 = outcomes) / 2 := by
  have taken (first : Bool) (coins : Stream' Bool)
      : (run order (.measure q :: rest) T (Stream'.cons first coins)).1 = outcome :: outcomes
        ↔ first = outcome ∧ (run order rest (T.collapse q p first) coins).1 = outcomes := by
    simp [run, operate, found]
  rw [chance_succ]
  simp only [taken]
  cases outcome with
  | false => simp [chance_false]
  | true => simp [chance_false]

/-- A measurement without a pivot takes no coin. -/
theorem chance_determined (found : T.pivot order q = none) (rest : List (Operation ι)) (D : Nat)
    {sign : Bool} (reads : decide ((T.readout order q).phase = 2) = sign) (outcome : Bool)
    (outcomes : List Bool)
    : chance D (fun coins => (run order (.measure q :: rest) T coins).1 = outcome :: outcomes)
      = if outcome = sign then chance D (fun coins => (run order rest T coins).1 = outcomes)
        else 0 := by
  have taken (coins : Stream' Bool)
      : (run order (.measure q :: rest) T coins).1 = outcome :: outcomes
        ↔ sign = outcome ∧ (run order rest T coins).1 = outcomes := by
    simp [run, operate, found, reads]
  simp only [taken]
  split
  · rename_i same
    simp [same]
  · rename_i differ
    simp [Ne.symm differ, chance_false]

/-- A run that measures reports something. -/
theorem chance_measure_nil (rest : List (Operation ι)) (D : Nat)
    : chance D (fun coins => (run order (.measure q :: rest) T coins).1 = []) = 0 := by
  have never (coins : Stream' Bool)
      : (run order (.measure q :: rest) T coins).1 = [] ↔ False := by
    cases found : T.pivot order q <;> simp [run, operate, found]
  simp only [never]
  exact chance_false D

/-- With as many fair coins as there are measurements, the outcomes of a run are distributed as on
the vector that the tableau stabilizes. By induction on the circuit: a measurement with a pivot
halves the chance, and one without leaves it or makes it vanish.
-/
theorem chance_run (complete : ∀ i, i ∈ order) (once : order.Nodup) (valid : T.Valid)
    (stabilizes : T.Stabilizes ψ) (circuit : List (Operation ι)) {D : Nat}
    (enough : circuit.countP Operation.isMeasure ≤ D) (outcomes : List Bool)
    : chance D (fun coins => (run order circuit T coins).1 = outcomes)
      = bornProbability circuit ψ outcomes := by
  induction circuit generalizing T ψ D outcomes with
  | nil =>
      cases outcomes with
      | nil => simpa [run, bornProbability] using chance_true D
      | cons outcome outcomes => simpa [run, bornProbability] using chance_false D
  | cons op rest ih =>
      cases op with
      | gate g =>
          have counted : rest.countP Operation.isMeasure ≤ D := by
            simpa [Operation.isMeasure] using enough
          exact ih (valid.map g.form_conjugate g.hermitian_conjugate)
            (stabilizes.map g.act_conjugate (g.unitary_ne_zero stabilizes.nonzero)) counted outcomes
      | measure q =>
          have counted : rest.countP Operation.isMeasure + 1 ≤ D := by
            simpa [Operation.isMeasure, List.countP_cons] using enough
          cases outcomes with
          | nil => exact chance_measure_nil rest D
          | cons outcome outcomes =>
              cases found : T.pivot order q with
              | some p =>
                  have bit := pivot_bit found
                  obtain ⟨D, rfl⟩ : ∃ k, D = k + 1 := ⟨D - 1, by omega⟩
                  rw [chance_random found, ih (valid.collapse bit outcome)
                    (stabilizes.collapse bit outcome) (by omega), bornProbability,
                    stabilizes.probability_eq_half bit]
                  ring
              | none =>
                  have noPivot := (pivot_eq_none complete).mp found
                  have readout := valid.readout_eq complete once noPivot
                  have member : T.readout order q ∈ T.group := product_mem_group T (one_mem _) _
                  rw [readout] at member
                  have fixed := stabilizes.fixes member
                  obtain ⟨certain, kept⟩ := stabilizes.determined fixed
                  rw [chance_determined found rest D rfl, bornProbability]
                  split
                  · rename_i same
                    rw [same, certain, one_mul]
                    exact ih valid kept (by omega) outcomes
                  · rename_i differ
                    have never := StateVector.probability_eq_zero fixed.project_eq
                    rw [← Bool.eq_not_of_ne differ] at never
                    rw [never, zero_mul]

end Tableau

end Stabilizer
