import Sabot.Stabilizer.Sampling
import Sabot.State.Observation

/-! Measured with fair coins, a stored state reports results with the probabilities of quantum
mechanics.
-/

namespace Sabot.State

open Stabilizer
open Sabot.Language (Instruction Program circuit)

variable {n : Nat}

/-- `measure_state` writes these results. -/
def Reports (s : ChpState) (p : Program) (grants : Stream' (Option Int)) (outcomes : List Bool)
    (coins : Stream' Bool) : Prop :=
  ∃ m, measureState s p .empty ⟨coins, grants⟩ = some (true, m)
    ∧ m.buffer.Holds (outcomes.map character)

/-- Let the coins of the generator be fair, and let there be at least as many as the program has
measurements. Then the chance that `measure_state` writes some results to the buffer is the
probability of these outcomes, by Born's rule, on any vector that the state stabilizes.
-/
theorem measureState_samples (small : n < 2 ^ 31) {s : ChpState}
    (reachable : Reachable n s ∨ CallReachable n s) {p : Program} {instructions : List Instruction}
    (stored : p.instructions.Holds instructions)
    (within : ∀ instruction ∈ instructions, instruction.Within n) {ψ : StateVector (Fin n)}
    (stabilizes : (s.tableau n).Stabilizes ψ) (grants : Stream' (Option Int)) {D : Nat}
    (enough : instructions.countP isMeasure ≤ D) (outcomes : List Bool)
    : Coins.chance D (Reports s p grants outcomes)
      = bornProbability (circuit n instructions) ψ outcomes := by
  have prepared := prepared_of_reachable small reachable
  rw [← countP_circuit within] at enough
  rw [← Tableau.chance_run List.mem_finRange (List.nodup_finRange n) prepared.valid stabilizes
    (circuit n instructions) enough outcomes]
  refine Coins.chance_congr fun coins => ?_
  obtain ⟨measured, m, ran, buffer, _, _, runs⟩ :=
    prepared.measureState stored within ⟨coins, grants⟩
  have outcome : (Tableau.run (List.finRange n) (circuit n instructions) (s.tableau n) coins).1
      = measured := congrArg Prod.fst runs
  rw [outcome]
  constructor
  · rintro ⟨next, ranN, holds⟩
    obtain rfl : m = next := by simpa [ran] using ranN
    exact List.map_injective_iff.mpr character_injective (holds_unique buffer holds)
  · rintro rfl
    exact ⟨m, ran, buffer⟩

/-- A fresh qubit behind a Hadamard gate. -/
theorem measureState_samples_one
    : ∃ s p, Reachable 1 s
        ∧ Coins.chance 1 (Reports s p (.const (some 0)) [true])
          = bornProbability (circuit 1 [⟨.hadamard, .cons 0 .nil⟩, ⟨.measure, .cons 0 .nil⟩])
            StateVector.zeroState [true] := by
  have small : 1 < 2 ^ 31 := by decide
  have granted : Granted (.const (some 0)) := fun _ _ => rfl
  obtain ⟨s, ran, _, fresh⟩ := initState_refines small .allocated (.stale 0) granted
  obtain ⟨p, _, stored⟩ := Program.ofArray_holds
    [⟨.hadamard, .cons 0 .nil⟩, ⟨.measure, .cons 0 .nil⟩]
  refine ⟨s, p, .initialised ran, ?_⟩
  exact measureState_samples small (Or.inl (.initialised ran)) stored (by decide)
    (fresh ▸ Tableau.initial_stabilizes) (.const (some 0)) (by decide) [true]

end Sabot.State
