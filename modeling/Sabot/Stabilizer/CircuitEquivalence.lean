import Sabot.Stabilizer.Observation

/-! Lists of gates are equal as operators, up to a global phase, exactly when they conjugate `X` and
`Z` on every qubit alike.
-/

namespace Stabilizer

variable {ι : Type*} [Fintype ι] [DecidableEq ι]

-----------------------------------------------------------------------------------------
-- Gates are unitary
-----------------------------------------------------------------------------------------

namespace StateVector

omit [Fintype ι]

theorem hadamard_add (q : ι) (ψ φ : StateVector ι)
    : hadamard q (ψ + φ) = hadamard q ψ + hadamard q φ := by
  funext b
  simp only [hadamard, Pi.add_apply, mul_add, Finset.sum_add_distrib]

theorem hadamard_smul (q : ι) (c : ℂ) (ψ : StateVector ι)
    : hadamard q (c • ψ) = c • hadamard q ψ := by
  funext b
  simp only [hadamard, Pi.smul_apply, smul_eq_mul, mul_left_comm _ c, ← Finset.mul_sum]

end StateVector

namespace Gate

/-- Gates are linear. -/
theorem unitary_add (g : Gate ι) (ψ φ : StateVector ι)
    : g.unitary (ψ + φ) = g.unitary ψ + g.unitary φ := by
  cases g with
  | identity => rfl
  | hadamard q => exact StateVector.hadamard_add q ψ φ
  | phase q => exact funext fun _ => mul_add _ _ _
  | cnot c t distinct => rfl
  | pauli P => exact P.act_add ψ φ

theorem unitary_smul (g : Gate ι) (c : ℂ) (ψ : StateVector ι)
    : g.unitary (c • ψ) = c • g.unitary ψ := by
  cases g with
  | identity => rfl
  | hadamard q => exact StateVector.hadamard_smul q c ψ
  | phase q => exact funext fun _ => mul_left_comm _ _ _
  | cnot _ t distinct => rfl
  | pauli P => exact funext fun _ => mul_left_comm _ _ _

/-- The gate as a linear map. -/
noncomputable def linear (g : Gate ι) : StateVector ι →ₗ[ℂ] StateVector ι where
  toFun := g.unitary
  map_add' := g.unitary_add
  map_smul' := g.unitary_smul

theorem unitary_injective (g : Gate ι) : Function.Injective g.unitary := by
  have kernel (ψ : StateVector ι) (zero : g.linear ψ = 0) : ψ = 0 := by
    by_contra nonzero
    exact g.unitary_ne_zero nonzero zero
  exact (injective_iff_map_eq_zero g.linear).mpr kernel

theorem unitary_surjective (g : Gate ι) : Function.Surjective g.unitary :=
  LinearMap.surjective_of_injective (f := g.linear) g.unitary_injective

end Gate

namespace StateVector

omit [Fintype ι] [DecidableEq ι] in
theorem project_smul (q : ι) (outcome : Bool) (c : ℂ) (ψ : StateVector ι)
    : project q outcome (c • ψ) = c • project q outcome ψ :=
  funext fun _ => (mul_ite_zero _ _ _).symm

theorem weight_smul (c : ℂ) (ψ : StateVector ι) : weight (c • ψ) = ‖c‖ ^ 2 * weight ψ := by
  simp only [weight, Pi.smul_apply, smul_eq_mul, norm_mul, mul_pow, Finset.mul_sum]

/-- Probabilities do not depend on the length of the vector. -/
theorem probability_smul (q : ι) (outcome : Bool) {c : ℂ} (scalar : c ≠ 0) (ψ : StateVector ι)
    : probability q outcome (c • ψ) = probability q outcome ψ := by
  have positive : ‖c‖ ^ 2 ≠ 0 := pow_ne_zero 2 (norm_ne_zero_iff.mpr scalar)
  rw [probability, project_smul, weight_smul, weight_smul, mul_div_mul_left _ _ positive]
  rfl

theorem weight_act (P : PauliString ι) (ψ : StateVector ι) : weight (P.act ψ) = weight ψ := by
  refine Fintype.sum_equiv (Equiv.addRight P.x) _ _ fun b => ?_
  simp only [PauliString.act, norm_mul, norm_iPow, one_mul, Equiv.coe_addRight]

theorem weight_phaseGate (q : ι) (ψ : StateVector ι) : weight (phaseGate q ψ) = weight ψ := by
  refine Finset.sum_congr rfl fun b _ => ?_
  simp only [phaseGate, norm_mul, norm_iPow, one_mul]

theorem weight_cnot {c t : ι} (distinct : c ≠ t) (ψ : StateVector ι)
    : weight (cnot c t ψ) = weight ψ := by
  have double : ∀ u v : ZMod 2, u + v + v = u := by decide
  let move (b : ι → ZMod 2) : ι → ZMod 2 := Function.update b t (b t + b c)
  have twice : Function.Involutive move := by
    intro b
    simp [move, Function.update_of_ne distinct, double]
  exact Fintype.sum_equiv twice.toPerm _ _ fun b => rfl

/-- The norms of two basis states that differ on one qubit, summed over all pairs. -/
theorem weight_pairs (q : ι) (ψ : StateVector ι)
    : ∑ b, (‖ψ b‖ ^ 2 + ‖ψ (b + Pi.single q 1)‖ ^ 2) = 2 * weight ψ := by
  have shifted : ∑ b, ‖ψ (b + Pi.single q 1)‖ ^ 2 = weight ψ :=
    Fintype.sum_equiv (Equiv.addRight (Pi.single q 1)) _ _ fun _ => rfl
  rw [Finset.sum_add_distrib, shifted, two_mul]
  rfl

omit [Fintype ι] in
/-- A Hadamard gate mixes the amplitudes of such a pair by a parallelogram. -/
theorem hadamard_pair (q : ι) (ψ : StateVector ι) (b : ι → ZMod 2)
    : ‖hadamard q ψ b‖ ^ 2 + ‖hadamard q ψ (b + Pi.single q 1)‖ ^ 2
      = ‖ψ b‖ ^ 2 + ‖ψ (b + Pi.single q 1)‖ ^ 2 := by
  have bits : ∀ a : ZMod 2, a = 0 ∨ a = 1 := by decide
  have double (f : ZMod 2 → ℂ) : ∑ a, f a = f 0 + f 1 := Fin.sum_univ_two f
  have other (a : ZMod 2) : Function.update (b + Pi.single q 1) q a = Function.update b q a := by
    funext k
    rcases eq_or_ne k q with rfl | off
    · simp
    · simp [off]
  have half : ‖(1 / Real.sqrt 2 : ℂ)‖ ^ 2 = 1 / 2 := by
    rw [norm_div, norm_one, Complex.norm_real, Real.norm_of_nonneg (Real.sqrt_nonneg 2), div_pow,
      one_pow, Real.sq_sqrt (by norm_num)]
  have signs : iPow (2 * lift 1 * lift 1) = -1 := by
    rw [show 2 * lift 1 * lift 1 = 2 by decide, iPow_two]
  have trivial (a : ZMod 2) : iPow (2 * lift a * lift 0) = 1 := by
    rw [show lift 0 = 0 by decide, mul_zero, iPow_zero]
  have trivial' (a : ZMod 2) : iPow (2 * lift 0 * lift a) = 1 := by
    rw [show lift 0 = 0 by decide, mul_zero, zero_mul, iPow_zero]
  have law (u v : ℂ) : ‖u + v‖ ^ 2 + ‖u - v‖ ^ 2 = 2 * (‖u‖ ^ 2 + ‖v‖ ^ 2) := by
    simpa only [sq] using parallelogram_law_with_norm ℝ u v
  have same : Function.update b q (b q) = b := Function.update_eq_self q b
  have flipped : Function.update b q (b q + 1) = b + Pi.single q 1 := by
    funext k
    rcases eq_or_ne k q with rfl | off
    · simp
    · simp [off]
  have here : (b + Pi.single q 1 : ι → ZMod 2) q = b q + 1 := by simp
  simp only [hadamard, double, other, here, norm_mul, mul_pow, half]
  rcases bits (b q) with zero | one
  · have next : (0 : ZMod 2) + 1 = 1 := rfl
    rw [zero] at same flipped
    rw [next] at flipped
    rw [zero, next, same, flipped]
    simp only [trivial, trivial', signs, one_mul, neg_mul, ← sub_eq_add_neg]
    linarith [law (ψ b) (ψ (b + Pi.single q 1))]
  · have next : (1 : ZMod 2) + 1 = 0 := rfl
    rw [one] at same flipped
    rw [next] at flipped
    rw [one, next, same, flipped]
    simp only [trivial, trivial', signs, one_mul, neg_mul, ← sub_eq_add_neg]
    linarith [law (ψ (b + Pi.single q 1)) (ψ b)]

theorem weight_hadamard (q : ι) (ψ : StateVector ι) : weight (hadamard q ψ) = weight ψ := by
  have pairs := weight_pairs q (hadamard q ψ)
  simp only [hadamard_pair] at pairs
  linarith [weight_pairs q ψ]

end StateVector

theorem Gate.weight_unitary (g : Gate ι) (ψ : StateVector ι)
    : StateVector.weight (g.unitary ψ) = StateVector.weight ψ := by
  cases g with
  | identity => rfl
  | hadamard q => exact StateVector.weight_hadamard q ψ
  | phase q => exact StateVector.weight_phaseGate q ψ
  | cnot c t distinct => exact StateVector.weight_cnot distinct ψ
  | pauli P => exact StateVector.weight_act P ψ

-----------------------------------------------------------------------------------------
-- Lists of gates as operators
-----------------------------------------------------------------------------------------

/-- A list of gates on a vector, the first gate first. -/
noncomputable def unitaryAll (gates : List (Gate ι)) (ψ : StateVector ι) : StateVector ι :=
  gates.foldl (fun ψ g => g.unitary ψ) ψ

theorem unitaryAll_add (gates : List (Gate ι)) (ψ φ : StateVector ι)
    : unitaryAll gates (ψ + φ) = unitaryAll gates ψ + unitaryAll gates φ := by
  induction gates generalizing ψ φ with
  | nil => rfl
  | cons g rest ih =>
      have step := ih (g.unitary ψ) (g.unitary φ)
      rw [← g.unitary_add] at step
      exact step

theorem unitaryAll_smul (gates : List (Gate ι)) (c : ℂ) (ψ : StateVector ι)
    : unitaryAll gates (c • ψ) = c • unitaryAll gates ψ := by
  induction gates generalizing ψ with
  | nil => rfl
  | cons g rest ih =>
      have step := ih (g.unitary ψ)
      rw [← g.unitary_smul] at step
      exact step

theorem unitaryAll_bijective (gates : List (Gate ι)) : Function.Bijective (unitaryAll gates) := by
  induction gates with
  | nil => exact Function.bijective_id
  | cons g rest ih => exact ih.comp ⟨g.unitary_injective, g.unitary_surjective⟩

theorem weight_unitaryAll (gates : List (Gate ι)) (ψ : StateVector ι)
    : StateVector.weight (unitaryAll gates ψ) = StateVector.weight ψ := by
  induction gates generalizing ψ with
  | nil => rfl
  | cons g rest ih => exact (ih (g.unitary ψ)).trans (g.weight_unitary ψ)

/-- A run of gates takes no coins and applies the gates. -/
theorem evolution_gates_iff {gates : List (Gate ι)} {ψ φ : StateVector ι}
    {coins left : Stream' Bool} {outcomes : List Bool}
    : Evolution (gates.map .gate) ψ coins outcomes φ left
      ↔ outcomes = [] ∧ φ = unitaryAll gates ψ ∧ left = coins := by
  induction gates generalizing ψ with
  | nil =>
      constructor
      · rintro ⟨⟩
        exact ⟨rfl, rfl, rfl⟩
      · rintro ⟨rfl, rfl, rfl⟩
        exact .done
  | cons g rest ih =>
      constructor
      · rintro (_ | ⟨continues⟩)
        exact ih.mp continues
      · intro ends
        exact .gate (ih.mpr ends)

/-- Conjugated strings act behind the gates as the strings did before them. -/
theorem act_conjugateAll (gates : List (Gate ι)) (P : PauliString ι) (ψ : StateVector ι)
    : (conjugateAll gates P).act (unitaryAll gates ψ) = unitaryAll gates (P.act ψ) := by
  induction gates generalizing P ψ with
  | nil => rfl
  | cons g rest ih =>
      have step := ih (g.conjugate P) (g.unitary ψ)
      rw [g.act_conjugate] at step
      exact step

-----------------------------------------------------------------------------------------
-- Generators
-----------------------------------------------------------------------------------------

/-- `X` and `Z` on the qubits and the powers of `i` generate all strings: the bits of a string are
removed one qubit after another.
-/
theorem PauliString.closure_generators
    : Subgroup.closure (Set.range (singleX : ι → PauliString ι)
          ∪ Set.range (fun q => signedZ q false) ∪ Set.range (fun k => ⟨0, 0, k⟩))
      = (⊤ : Subgroup (PauliString ι)) := by
  set S := Set.range (singleX : ι → PauliString ι)
    ∪ Set.range (fun q => signedZ q false) ∪ Set.range (fun k => ⟨0, 0, k⟩) with def_S
  have bits : ∀ a : ZMod 2, a = 0 ∨ a = 1 := by decide
  have cutX (q : ι) (a : ZMod 2)
      : ∃ X ∈ Subgroup.closure S, X.x = Pi.single q a ∧ X.z = 0 := by
    rcases bits a with rfl | rfl
    · exact ⟨1, one_mem _, (Pi.single_zero q).symm, rfl⟩
    · exact ⟨singleX q, Subgroup.subset_closure (Or.inl (Or.inl ⟨q, rfl⟩)), rfl, rfl⟩
  have cutZ (q : ι) (a : ZMod 2)
      : ∃ Z ∈ Subgroup.closure S, Z.x = 0 ∧ Z.z = Pi.single q a := by
    rcases bits a with rfl | rfl
    · exact ⟨1, one_mem _, rfl, (Pi.single_zero q).symm⟩
    · exact ⟨signedZ q false, Subgroup.subset_closure (Or.inl (Or.inr ⟨q, rfl⟩)), rfl, rfl⟩
  have inside (qubits : List ι) (P : PauliString ι)
      (empty : ∀ q, q ∉ qubits → P.x q = 0 ∧ P.z q = 0)
      : P ∈ Subgroup.closure S := by
    induction qubits generalizing P with
    | nil =>
        refine Subgroup.subset_closure (Or.inr ⟨P.phase, ?_⟩)
        exact PauliString.ext (funext fun q => (empty q (by simp)).1.symm)
          (funext fun q => (empty q (by simp)).2.symm) rfl
    | cons q rest ih =>
        obtain ⟨X, memX, xX, zX⟩ := cutX q (P.x q)
        obtain ⟨Z, memZ, xZ, zZ⟩ := cutZ q (P.z q)
        have stripped : P * X * Z ∈ Subgroup.closure S := by
          refine ih _ fun k outside => ?_
          simp only [mul_x, mul_z, Pi.add_apply, xX, zX, xZ, zZ, Pi.zero_apply, add_zero]
          rcases eq_or_ne k q with rfl | off
          · simp only [Pi.single_eq_same]
            exact ⟨CharTwo.add_self_eq_zero _, CharTwo.add_self_eq_zero _⟩
          · simp only [Pi.single_eq_of_ne off, add_zero]
            exact empty k (by simp [off, outside])
        rwa [Subgroup.mul_mem_cancel_right _ memZ, Subgroup.mul_mem_cancel_right _ memX]
          at stripped
  exact eq_top_iff.mpr fun P _ => inside Finset.univ.toList P (by simp)

/-- Conjugation by a list of gates as an endomorphism of the group. -/
def conjugationAll (gates : List (Gate ι)) : PauliString ι →* PauliString ι :=
  MonoidHom.mk' (conjugateAll gates) (by
    intro P Q
    induction gates generalizing P Q with
    | nil => rfl
    | cons g rest ih =>
        have step := ih (g.conjugate P) (g.conjugate Q)
        rw [← g.conjugate_mul] at step
        exact step)

/-- Gates conjugate a string as they conjugate its generators. -/
theorem conjugateAll_eq {gates others : List (Gate ι)}
    (sameX : ∀ q, conjugateAll gates (.singleX q) = conjugateAll others (.singleX q))
    (sameZ : ∀ q, conjugateAll gates (.signedZ q false) = conjugateAll others (.signedZ q false))
    : conjugateAll gates = conjugateAll others := by
  have whole : (conjugationAll gates).eqLocus (conjugationAll others) = ⊤ := by
    rw [eq_top_iff, ← PauliString.closure_generators, Subgroup.closure_le]
    rintro _ ((⟨q, rfl⟩ | ⟨q, rfl⟩) | ⟨k, rfl⟩)
    · exact sameX q
    · exact sameZ q
    · exact (conjugateAll_scalar gates k).trans (conjugateAll_scalar others k).symm
  funext P
  have member : P ∈ (conjugationAll gates).eqLocus (conjugationAll others) := by
    rw [whole]
    exact Subgroup.mem_top P
  exact member

-----------------------------------------------------------------------------------------
-- Equal conjugation is equality up to a phase
-----------------------------------------------------------------------------------------

namespace PauliString

omit [DecidableEq ι] in
theorem act_smul (P : PauliString ι) (c : ℂ) (ψ : StateVector ι) : P.act (c • ψ) = c • P.act ψ :=
  funext fun _ => mul_left_comm _ _ _

/-- Only the identity acts as the identity. -/
theorem eq_one_of_act {P : PauliString ι} (trivial : ∀ ψ, P.act ψ = ψ) : P = 1 := by
  have empty : P.x = 0 := by
    by_contra moves
    have here := congrFun (trivial .zeroState) 0
    simp [act, StateVector.zeroState, moves] at here
  have entry (b : ι → ZMod 2) : P.phase + signExponent (P.z ⬝ᵥ b) = 0 := by
    have here := congrFun (trivial fun _ => 1) b
    rw [← entry_eq empty]
    exact (iPow_eq_one_iff _).mp ((mul_one _).symm.trans here)
  have phase : P.phase = 0 := by simpa using entry 0
  have sign : ∀ a : ZMod 2, signExponent a = 0 → a = 0 := by decide
  refine PauliString.ext empty (funext fun q => sign _ ?_) phase
  simpa [phase] using entry (Pi.single q 1)

/-- A string is determined by its operator. -/
theorem act_injective {P Q : PauliString ι} (same : ∀ ψ, P.act ψ = Q.act ψ) : P = Q := by
  refine (inv_mul_eq_one.mp (eq_one_of_act fun ψ => ?_))
  rw [act_mul, ← same, ← act_mul, inv_mul_cancel, act_one]

omit [DecidableEq ι] in
/-- Strings of `X` take the basis state zero to every other one. -/
theorem act_zeroState (b : ι → ZMod 2)
    : (⟨b, 0, 0⟩ : PauliString ι).act .zeroState = Pi.single b 1 := by
  have columns : ∀ x b : ZMod 2, columnEntry x 0 b = 0 := by decide
  have cancel : ∀ u v : ZMod 2, u + v = 0 ↔ u = v := by decide
  have target (a : ι → ZMod 2) : a + b = 0 ↔ a = b := by simp [funext_iff, cancel]
  funext a
  simp [act, entry, columns, StateVector.zeroState, Pi.single_apply, target]

end PauliString

/-- A list of gates as a linear map. -/
noncomputable def linearAll (gates : List (Gate ι)) : StateVector ι →ₗ[ℂ] StateVector ι where
  toFun := unitaryAll gates
  map_add' := unitaryAll_add gates
  map_smul' := unitaryAll_smul gates

/-- A vector that every `Z` fixes is a multiple of the basis state zero. -/
theorem eq_smul_zeroState {ψ : StateVector ι} (fixed : ∀ q, (PauliString.signedZ q false).Fixes ψ)
    : ψ = ψ 0 • StateVector.zeroState := by
  funext b
  rcases eq_or_ne b 0 with rfl | off
  · simp [StateVector.zeroState]
  · obtain ⟨q, bit⟩ := Function.ne_iff.mp off
    have here := congrFun (fixed q).project_eq b
    rw [StateVector.project, if_neg (by simpa using bit)] at here
    simp [StateVector.zeroState, off, ← here]

/-- Gates that conjugate all strings alike are equal up to a phase. It is found on the basis state
zero, whose image is fixed by the images of all `Z`, and the other basis states are images of that
one under strings of `X`.
-/
theorem exists_phase {gates others : List (Gate ι)}
    (same : conjugateAll gates = conjugateAll others)
    : ∃ c : ℂ, ‖c‖ = 1 ∧ ∀ ψ, unitaryAll gates ψ = c • unitaryAll others ψ := by
  obtain ⟨φ, image⟩ := (unitaryAll_bijective others).surjective (unitaryAll gates .zeroState)
  have fixed (q : ι) : (PauliString.signedZ q false).Fixes φ := by
    apply (unitaryAll_bijective others).injective
    rw [← act_conjugateAll, image, ← same, act_conjugateAll, StateVector.zeroState_fixed q]
  have onZero : unitaryAll gates .zeroState = φ 0 • unitaryAll others .zeroState := by
    rw [← image, ← unitaryAll_smul, ← eq_smul_zeroState fixed]
  have onBasis (b : ι → ZMod 2)
      : unitaryAll gates (Pi.single b 1) = φ 0 • unitaryAll others (Pi.single b 1) := by
    rw [← PauliString.act_zeroState, ← act_conjugateAll, ← act_conjugateAll, onZero, same,
      PauliString.act_smul]
  have maps : linearAll gates = φ 0 • linearAll others := by
    refine LinearMap.pi_ext fun b x => ?_
    have scaled : (Pi.single b x : StateVector ι) = x • Pi.single b 1 := by
      rw [← Pi.single_smul, smul_eq_mul, mul_one]
    rw [scaled, map_smul, map_smul]
    exact congrArg (x • ·) (onBasis b)
  refine ⟨φ 0, ?_, fun ψ => LinearMap.congr_fun maps ψ⟩
  have weights := congrArg StateVector.weight onZero
  rw [StateVector.weight_smul, weight_unitaryAll, weight_unitaryAll] at weights
  have unit := mul_right_cancel₀ (StateVector.weight_ne_zero StateVector.zeroState_ne_zero)
    ((one_mul _).trans weights)
  exact (pow_eq_one_iff_of_nonneg (norm_nonneg _) two_ne_zero).mp unit.symm

/-- Gates that are equal up to a factor conjugate all strings alike. -/
theorem conjugateAll_eq_of_unitaryAll {gates others : List (Gate ι)} {c : ℂ}
    (same : ∀ ψ, unitaryAll gates ψ = c • unitaryAll others ψ)
    : conjugateAll gates = conjugateAll others := by
  funext P
  refine PauliString.act_injective fun φ => ?_
  obtain ⟨ψ, rfl⟩ := (unitaryAll_bijective gates).surjective φ
  calc (conjugateAll gates P).act (unitaryAll gates ψ)
      = c • unitaryAll others (P.act ψ) := by rw [act_conjugateAll, same]
    _ = (conjugateAll others P).act (unitaryAll gates ψ) := by
        rw [same, PauliString.act_smul, act_conjugateAll]

end Stabilizer
