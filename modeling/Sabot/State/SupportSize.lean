import Sabot.Stabilizer.SupportSize
import Sabot.State.Observation

/-! What `gaussian` returns is the base-two logarithm of the number of basis states that occur in the
vector of the state.
-/

namespace Sabot.State

open Stabilizer
open Sabot.Language (circuit)

variable {n : Nat}

/-- A reachable state stabilizes one vector up to a factor. It has `2 ^ g` nonzero amplitudes, all of
the same modulus, where `g` is what `gaussian` returns.
-/
theorem gaussian_counts_support (small : n < 2 ^ 31) {s : ChpState}
    (reachable : Reachable n s ∨ CallReachable n s) (d : Discipline)
    : ∃ g t, gaussian d s = some (g, t)
        ∧ ∃ ψ, (s.tableau n).Stabilizes ψ
          ∧ (∀ φ, (s.tableau n).Stabilizes φ → ∃ c : ℂ, c ≠ 0 ∧ φ = c • ψ)
          ∧ {b | ψ b ≠ 0}.ncard = 2 ^ g
          ∧ ∀ a b, ψ a ≠ 0 → ψ b ≠ 0 → ‖ψ a‖ = ‖ψ b‖ := by
  obtain ⟨sound, valid, ψ, stabilizes⟩ := prepared_of_reachable small reachable
  obtain ⟨g, t, ran, _, validT, group, rank, form⟩ := gaussian_eliminates sound valid d
  have onResult {φ : StateVector (Fin n)} (before : (s.tableau n).Stabilizes φ)
      : (t.tableau n).Stabilizes φ :=
    before.of_group group
  have rankT : (t.tableau n).xRows.rank = g := (Tableau.rank_xRows group).trans rank
  refine ⟨g, t, ran, ψ, stabilizes, ?_, ?_, ?_⟩
  · intro φ other
    exact form.stabilizes_unique validT (onResult stabilizes) (onResult other)
  · exact form.ncard_support validT (onResult stabilizes) rankT
  · intro a b occursA occursB
    exact form.norm_eq validT (onResult stabilizes) occursA occursB

/-- Three entangled qubits. -/
theorem gaussian_counts_support_three
    : ∃ s g t, s.tableau 3 = (Tableau.run (List.finRange 3) (circuit 3 catCircuit)
            Tableau.initial (.const true)).2.1
        ∧ gaussian .allocated s = some (g, t)
        ∧ ∃ ψ, (s.tableau 3).Stabilizes ψ ∧ {b | ψ b ≠ 0}.ncard = 2 ^ g := by
  obtain ⟨s, reachable, ran⟩ := exists_cat
  obtain ⟨g, t, eliminates, ψ, stabilizes, _, size, _⟩ :=
    gaussian_counts_support (by decide) (Or.inl reachable) .allocated
  exact ⟨s, g, t, ran, eliminates, ψ, stabilizes, size⟩

end Sabot.State
