import Sabot.Stabilizer.PauliGroup

/-! The signed group that the stabilizer rows of a tableau generate, and what a measurement with
a pivot makes of it.
-/

namespace Stabilizer

variable {ι : Type*} [Fintype ι]

namespace Tableau

/-- The signed group that the stabilizer rows generate. -/
def group (T : Tableau ι) : Subgroup (PauliString ι) := Subgroup.closure (Set.range T.stabilizer)

theorem stabilizer_mem_group (T : Tableau ι) (i : ι) : T.stabilizer i ∈ T.group :=
  Subgroup.subset_closure ⟨i, rfl⟩

/-- Products of stabilizer rows are in the group. -/
theorem product_mem_group (T : Tableau ι) {start : PauliString ι} (starts : start ∈ T.group)
    (rows : List ι)
    : T.product start rows ∈ T.group := by
  induction rows generalizing start with
  | nil => exact starts
  | cons i rest ih => exact ih (T.group.mul_mem (T.stabilizer_mem_group i) starts)

/-- What fixes a stabilized vector is closed under products and inverses. -/
theorem Stabilizes.fixes {T : Tableau ι} {ψ : StateVector ι} (stabilizes : T.Stabilizes ψ)
    {P : PauliString ι} (member : P ∈ T.group)
    : P.Fixes ψ := by
  have one : (1 : PauliString ι).Fixes ψ := by
    have entries : ∀ b : ZMod 2, columnEntry 0 0 b = 0 := by decide
    funext b
    simp [PauliString.act, PauliString.entry, entries]
  induction member using Subgroup.closure_induction with
  | mem P generator =>
      obtain ⟨i, rfl⟩ := generator
      exact stabilizes.fixed i
  | one => exact one
  | mul P Q _ _ hp hq => exact hp.mul hq
  | inv P _ hp =>
      unfold PauliString.Fixes at *
      rw [← hp, ← PauliString.act_mul, inv_mul_cancel, one, hp]

/-- All elements of the group commute with the stabilizer rows. -/
theorem Valid.form_group [DecidableEq ι] {T : Tableau ι} (valid : T.Valid) {P : PauliString ι}
    (member : P ∈ T.group) (i : ι)
    : (T.stabilizer i).form P = 0 := by
  induction member using Subgroup.closure_induction with
  | mem P generator =>
      obtain ⟨j, rfl⟩ := generator
      exact valid.basis.stabilizers i j
  | one => simp [PauliString.form]
  | mul P Q _ _ hp hq => rw [PauliString.form_mul_right, hp, hq, add_zero]
  | inv P _ hp => exact hp

end Tableau

-----------------------------------------------------------------------------------------
-- Measured observables
-----------------------------------------------------------------------------------------

theorem PauliString.commute_iff_form {P Q : PauliString ι} : Commute P Q ↔ P.form Q = 0 := by
  constructor
  · intro commute
    have phases : ∀ k : ZMod 4, ∀ a : ZMod 2, (if a = 1 then k + 2 else k) = k → a = 0 := by decide
    have flipped : (Q * P).flip (P.form Q) = Q * P := by
      rw [← mul_eq_flip]
      exact commute
    exact phases _ _ (congrArg PauliString.phase flipped)
  · exact mul_comm_of_form

variable [DecidableEq ι]

/-- A nonzero vector is fixed by at most one of `Z` and `-Z` on a qubit. -/
theorem PauliString.signedZ_unique {ψ : StateVector ι} (nonzero : ψ ≠ 0) {q : ι} {a b : Bool}
    (first : (signedZ q a).Fixes ψ) (second : (signedZ q b).Fixes ψ)
    : a = b := by
  by_contra differ
  have both (outcome : Bool) : ψ.project q outcome = ψ := by
    have cases : outcome = a ∨ outcome = b := by
      cases outcome <;> cases a <;> cases b <;> simp_all
    rcases cases with rfl | rfl
    · exact first.project_eq
    · exact second.project_eq
  have sum := StateVector.weight_project_add q ψ
  rw [both, both, add_eq_left] at sum
  exact StateVector.weight_ne_zero nonzero sum

namespace Tableau

/-- Multiplied by the pivot where they have an X bit on the measured qubit, the elements of the
group are in the collapsed group.
-/
theorem Valid.absorb_mem_collapse {T : Tableau ι} (valid : T.Valid) {q p : ι}
    (bit : (T.stabilizer p).x q = 1) (outcome : Bool) {P : PauliString ι} (member : P ∈ T.group)
    : absorb q (T.stabilizer p) P ∈ (T.collapse q p outcome).group := by
  have bits : ∀ a b : ZMod 2, a = 1 → (a + b = 1 ↔ ¬b = 1) := by decide
  have zero : ∀ a b : ZMod 2, ¬a = 1 → (a + b = 1 ↔ b = 1) := by decide
  have square := (valid.stabilizerSign p).mul_self
  have exchange {Q : PauliString ι} (inside : Q ∈ T.group)
      : T.stabilizer p * Q = Q * T.stabilizer p :=
    PauliString.mul_comm_of_form (valid.form_group inside p)
  induction member using Subgroup.closure_induction with
  | mem P generator =>
      obtain ⟨i, rfl⟩ := generator
      rcases eq_or_ne i p with rfl | off
      · rw [absorb, if_pos bit, square]
        exact one_mem _
      · have row := stabilizer_mem_group (T.collapse q p outcome) i
        rwa [collapse_stabilizer_of_ne T q outcome off] at row
  | one =>
      rw [absorb, if_neg (by simp)]
      exact one_mem _
  | mul P Q inP inQ hp hq =>
      have product := (T.collapse q p outcome).group.mul_mem hp hq
      simp only [absorb, PauliString.mul_x, Pi.add_apply] at product ⊢
      by_cases hasP : P.x q = 1 <;> by_cases hasQ : Q.x q = 1
      · -- The two pivots cancel.
        rw [if_pos hasP, if_pos hasQ, exchange inP, mul_assoc, ← mul_assoc (T.stabilizer p),
          square, one_mul] at product
        rwa [if_neg (by simp [bits _ _ hasP, hasQ])]
      · rw [if_pos hasP, if_neg hasQ, mul_assoc] at product
        rwa [if_pos ((bits _ _ hasP).mpr hasQ)]
      · rw [if_neg hasP, if_pos hasQ, ← mul_assoc, ← exchange inP, mul_assoc] at product
        rwa [if_pos ((zero _ _ hasP).mpr hasQ)]
      · rw [if_neg hasP, if_neg hasQ] at product
        rwa [if_neg (by simp [zero _ _ hasP, hasQ])]
  | inv P inP hp =>
      have inverse := (T.collapse q p outcome).group.inv_mem hp
      have same : P⁻¹.x q = P.x q := rfl
      simp only [absorb, same] at inverse ⊢
      split at inverse
      · rename_i has
        rw [mul_inv_rev, (valid.stabilizerSign p).inv_eq, ← exchange (T.group.inv_mem inP)]
          at inverse
        rwa [if_pos has]
      · rename_i none
        rwa [if_neg none]

/-- A measurement with a pivot keeps the elements that commute with the observable, with their
signs, and adds the observable with the sign of the outcome.
-/
theorem Valid.group_collapse {T : Tableau ι} (valid : T.Valid) {q p : ι}
    (bit : (T.stabilizer p).x q = 1) (outcome : Bool)
    : (T.collapse q p outcome).group
      = Subgroup.closure (insert (PauliString.signedZ q outcome)
          {P | P ∈ T.group ∧ Commute P (PauliString.signedZ q false)}) := by
  apply le_antisymm
  · rw [group, Subgroup.closure_le]
    rintro _ ⟨i, rfl⟩
    apply Subgroup.subset_closure
    rcases eq_or_ne i p with rfl | off
    · rw [collapse_stabilizer_pivot]
      exact Set.mem_insert _ _
    · rw [collapse_stabilizer_of_ne T q outcome off]
      refine Set.mem_insert_of_mem _ ⟨?_, ?_⟩
      · unfold absorb
        split
        · exact T.group.mul_mem (T.stabilizer_mem_group p) (T.stabilizer_mem_group i)
        · exact T.stabilizer_mem_group i
      · rw [PauliString.commute_iff_form, PauliString.form_signedZ]
        exact absorb_x bit _
  · rw [Subgroup.closure_le]
    intro P member
    rcases Set.mem_insert_iff.mp member with rfl | ⟨inside, commute⟩
    · have pivot := stabilizer_mem_group (T.collapse q p outcome) p
      rwa [collapse_stabilizer_pivot] at pivot
    · have kept := valid.absorb_mem_collapse bit outcome inside
      rw [PauliString.commute_iff_form, PauliString.form_signedZ] at commute
      rwa [absorb, commute, if_neg (by decide)] at kept

end Tableau

end Stabilizer
