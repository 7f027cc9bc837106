import Sabot.Stabilizer.Support

/-! The vector that a tableau stabilizes: it is unique up to a factor, and the number of its nonzero
amplitudes, all of one modulus, is a power of two whose exponent is the rank of the X bits.
-/

namespace Stabilizer

open Matrix Echelon

namespace Tableau

variable {n g : Nat} {T : Tableau (Fin n)} {ψ φ : StateVector (Fin n)}

/-- The X bits of the elements of the group are the span of those of the stabilizers. -/
theorem mem_span_xRows_iff {v : Fin n → ZMod 2}
    : v ∈ Submodule.span (ZMod 2) (Set.range T.xRows.row) ↔ ∃ P ∈ T.group, P.x = v := by
  rw [span_xRows]
  constructor
  · intro member
    induction member using Submodule.span_induction with
    | mem v image => exact image
    | zero => exact ⟨1, one_mem _, rfl⟩
    | add v w _ _ first second =>
        obtain ⟨P, memP, rfl⟩ := first
        obtain ⟨Q, memQ, rfl⟩ := second
        exact ⟨P * Q, mul_mem memP memQ, rfl⟩
    | smul c v _ ih =>
        have bits : ∀ a : ZMod 2, a = 0 ∨ a = 1 := by decide
        rcases bits c with rfl | rfl
        · exact ⟨1, one_mem _, (zero_smul _ _).symm⟩
        · rwa [one_smul]
  · rintro ⟨P, member, rfl⟩
    exact Submodule.subset_span ⟨P, member, rfl⟩

/-- From one basis state that occurs, the elements of the group lead to all others. -/
theorem NormalForm.occurs_iff_span (form : T.NormalForm g) (valid : T.Valid)
    (stabilizes : T.Stabilizes ψ) {a : Fin n → ZMod 2} (occurs : ψ a ≠ 0) (b : Fin n → ZMod 2)
    : ψ b ≠ 0 ↔ a + b ∈ Submodule.span (ZMod 2) (Set.range T.xRows.row) := by
  have double : ∀ x y : ZMod 2, x + (x + y) = y := by decide
  rw [mem_span_xRows_iff]
  constructor
  · intro occursB
    refine form.exists_mem_group valid fun i after => ?_
    have sign : ∀ (p : ZMod 4) (u v : ZMod 2), p + signExponent u = 0 → p + signExponent v = 0
        → u + v = 0 := by
      decide
    have first := (form.occurs_iff valid stabilizes a).mp occurs i after
    have second := (form.occurs_iff valid stabilizes b).mp occursB i after
    rw [PauliString.entry_eq (form.xEmpty i after)] at first second
    rw [dotProduct_add]
    exact sign _ _ _ first second
  · rintro ⟨P, member, flips⟩
    have target : a + P.x = b := by
      rw [flips]
      exact funext fun q => double _ _
    rw [← norm_ne_zero_iff, ← target, (stabilizes.fixes member).norm_eq, norm_ne_zero_iff]
    exact occurs

/-- All amplitudes that do not vanish have one modulus. -/
theorem NormalForm.norm_eq (form : T.NormalForm g) (valid : T.Valid) (stabilizes : T.Stabilizes ψ)
    {a b : Fin n → ZMod 2} (occursA : ψ a ≠ 0) (occursB : ψ b ≠ 0)
    : ‖ψ a‖ = ‖ψ b‖ := by
  have double : ∀ x y : ZMod 2, x + (x + y) = y := by decide
  obtain ⟨P, member, flips⟩ := mem_span_xRows_iff.mp
    ((form.occurs_iff_span valid stabilizes occursA b).mp occursB)
  have target : a + P.x = b := by
    rw [flips]
    exact funext fun q => double _ _
  rw [← (stabilizes.fixes member).norm_eq a, target]

/-- The basis states that occur are a coset of the span, which has `2 ^ g` elements. -/
theorem NormalForm.ncard_support (form : T.NormalForm g) (valid : T.Valid)
    (stabilizes : T.Stabilizes ψ) (rank : T.xRows.rank = g)
    : {b | ψ b ≠ 0}.ncard = 2 ^ g := by
  have double : ∀ x y : ZMod 2, x + (x + y) = y := by decide
  obtain ⟨a, occurs⟩ := Function.ne_iff.mp stabilizes.nonzero
  have coset : {b | ψ b ≠ 0}
      = (a + ·) '' (Submodule.span (ZMod 2) (Set.range T.xRows.row) : Set (Fin n → ZMod 2)) := by
    ext b
    refine (form.occurs_iff_span valid stabilizes occurs b).trans ?_
    have back : a + (a + b) = b := funext fun q => double _ _
    constructor
    · intro member
      exact ⟨a + b, member, back⟩
    · rintro ⟨v, member, rfl⟩
      have cancelled : a + (a + v) = v := funext fun q => double _ _
      rwa [cancelled]
  rw [coset, Set.ncard_image_of_injective _ (add_right_injective a), ← Nat.card_coe_set_eq]
  have size := Module.natCard_eq_pow_finrank (K := ZMod 2)
    (V := Submodule.span (ZMod 2) (Set.range T.xRows.row))
  rwa [← Matrix.rank_eq_finrank_span_row, rank, Nat.card_zmod] at size

/-- Two stabilized vectors differ by a factor: amplitudes along the group are multiples of one. -/
theorem NormalForm.stabilizes_unique (form : T.NormalForm g) (valid : T.Valid)
    (stabilizes : T.Stabilizes ψ) (other : T.Stabilizes φ)
    : ∃ c : ℂ, c ≠ 0 ∧ φ = c • ψ := by
  have double : ∀ x y : ZMod 2, x + (y + x) = y := by decide
  obtain ⟨a, occurs⟩ := Function.ne_iff.mp stabilizes.nonzero
  have support (b : Fin n → ZMod 2) : φ b ≠ 0 ↔ ψ b ≠ 0 :=
    (form.occurs_iff valid other b).trans (form.occurs_iff valid stabilizes b).symm
  have occursO : φ a ≠ 0 := (support a).mpr occurs
  refine ⟨φ a / ψ a, div_ne_zero occursO occurs, funext fun b => ?_⟩
  by_cases zero : ψ b = 0
  · have zeroO : φ b = 0 := not_not.mp (mt (support b).mp (not_not.mpr zero))
    simp [zero, zeroO]
  · obtain ⟨P, member, flips⟩ := mem_span_xRows_iff.mp
      ((form.occurs_iff_span valid stabilizes occurs b).mp zero)
    have target : b + P.x = a := by
      rw [flips]
      exact funext fun q => double _ _
    have here := congrFun (stabilizes.fixes member) b
    have there := congrFun (other.fixes member) b
    rw [PauliString.act, target] at here there
    have nonzero : ψ a ≠ 0 := occurs
    rw [← there, Pi.smul_apply, ← here, smul_eq_mul]
    field_simp

end Tableau

end Stabilizer
