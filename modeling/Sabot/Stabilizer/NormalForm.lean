import Sabot.Echelon
import Sabot.Stabilizer.StabilizerGroup

/-! The stabilizers of a tableau as two matrices of bits, and elimination in one of them at a time.
A pivot keeps the signed group, and with it the rank of the X bits.
-/

namespace Stabilizer

open Matrix Echelon

variable {n : Nat}

namespace Tableau

/-- One part of the bits of the stabilizers, a row for each. -/
def rows (part : PauliString (Fin n) → Fin n → ZMod 2) (T : Tableau (Fin n))
    : Matrix (Fin n) (Fin n) (ZMod 2) :=
  Matrix.of fun i => part (T.stabilizer i)

/-- The X bits of the stabilizers. -/
abbrev xRows (T : Tableau (Fin n)) : Matrix (Fin n) (Fin n) (ZMod 2) := T.rows PauliString.x

/-- The Z bits of the stabilizers. -/
abbrev zRows (T : Tableau (Fin n)) : Matrix (Fin n) (Fin n) (ZMod 2) := T.rows PauliString.z

/-- What elimination arrives at: `g` stabilizers with leading X bits in increasing columns, and
after them stabilizers without X bits, with leading Z bits in increasing columns.
-/
structure NormalForm (T : Tableau (Fin n)) (g : Nat) : Prop where
  xLeads : Staircase T.xRows 0 g
  xEmpty : ∀ i : Fin n, g ≤ i → (T.stabilizer i).x = 0
  zLeads : Staircase T.zRows g n

/-- A pivot: stabilizer `p` has the bit and is exchanged with `i`, and it is multiplied into the
stabilizers after `i` that have the bit as well.
-/
structure Pivots (bit : PauliString (Fin n) → ZMod 2) (i p : Fin n) (T T' : Tableau (Fin n))
    : Prop where
  present : bit (T.stabilizer p) = 1
  above : i ≤ p
  kept : ∀ k < i, T'.stabilizer k = T.stabilizer k
  pivot : T'.stabilizer i = T.stabilizer p
  later
    : ∀ k, i < k → T'.stabilizer k
      = if bit (T.stabilizer (Equiv.swap i p k)) = 1
        then T.stabilizer p * T.stabilizer (Equiv.swap i p k)
        else T.stabilizer (Equiv.swap i p k)

variable {T T' : Tableau (Fin n)} {bit : PauliString (Fin n) → ZMod 2} {i p : Fin n}

/-- An exchange with `i` moves later rows to `i` at the earliest. -/
theorem le_swap {i k : Fin n} (p : Fin n) (after : i < k) : i ≤ Equiv.swap i p k := by
  rw [Equiv.swap_apply_def, if_neg after.ne']
  split
  · exact le_rfl
  · exact after.le

/-- Each stabilizer is a product of those of the other tableau. -/
theorem Pivots.group_eq (pivots : Pivots bit i p T T') : T'.group = T.group := by
  have member := T.stabilizer_mem_group
  have member' := T'.stabilizer_mem_group
  have pivot : T.stabilizer p ∈ T'.group := pivots.pivot ▸ member' i
  apply le_antisymm
  · rw [group, Subgroup.closure_le]
    rintro _ ⟨k, rfl⟩
    rcases lt_trichotomy k i with before | rfl | after
    · rw [pivots.kept k before]
      exact member k
    · rw [pivots.pivot]
      exact member p
    · rw [pivots.later k after]
      split
      · exact T.group.mul_mem (member p) (member _)
      · exact member _
  · rw [group, Subgroup.closure_le]
    rintro _ ⟨j, rfl⟩
    obtain ⟨k, rfl⟩ := (Equiv.swap i p).surjective j
    rcases lt_trichotomy k i with before | rfl | after
    · rw [Equiv.swap_apply_of_ne_of_ne before.ne (before.trans_le pivots.above).ne,
        ← pivots.kept k before]
      exact member' k
    · rw [Equiv.swap_apply_left]
      exact pivot
    · have row := member' k
      rw [pivots.later k after] at row
      split at row
      · exact (T'.group.mul_mem_cancel_left pivot).mp row
      · exact row

section Part

variable {part : PauliString (Fin n) → Fin n → ZMod 2}
  (additive : ∀ P Q, part (P * Q) = part P + part Q)
include additive

/-- Where the rows from the pivot on are empty, they stay so. -/
theorem Pivots.empty (pivots : Pivots bit i p T T') {c : Fin n}
    (empty : ∀ k, i ≤ k → part (T.stabilizer k) c = 0) {k : Fin n} (after : i ≤ k)
    : part (T'.stabilizer k) c = 0 := by
  rcases after.eq_or_lt with rfl | after
  · rw [pivots.pivot]
    exact empty p pivots.above
  · have row := empty _ (le_swap p after)
    rw [pivots.later k after]
    split
    · rw [additive, Pi.add_apply, empty p pivots.above, row, add_zero]
    · exact row

/-- The pivot's column is empty below the pivot. -/
theorem Pivots.cleared {q : Fin n} (pivots : Pivots (fun P => part P q) i p T T') {k : Fin n}
    (after : i < k)
    : part (T'.stabilizer k) q = 0 := by
  have bits : ∀ a : ZMod 2, a ≠ 1 → a = 0 := by decide
  rw [pivots.later k after]
  split
  · rename_i has
    rw [additive, Pi.add_apply, pivots.present, has]
    decide
  · rename_i lacks
    exact bits _ lacks

/-- A pivot in a column does one more row. -/
theorem Pivots.swept {q : Fin n} {first : Nat} (pivots : Pivots (fun P => part P q) i p T T')
    (swept : Swept (T.rows part) first i q)
    : Swept (T'.rows part) first (i + 1) (q + 1) := by
  have empty {k : Fin n} (after : i ≤ k) {c : Fin n} (before : c < q)
      : part (T'.stabilizer k) c = 0 :=
    pivots.empty additive (fun k after => swept.cleared k after c before) after
  refine swept.pivot ?_ ⟨fun c before => empty le_rfl before, ?_⟩ ?_
  · intro k _ before
    exact congrArg part (pivots.kept k before)
  · show part (T'.stabilizer i) q ≠ 0
    rw [pivots.pivot, pivots.present]
    decide
  · intro k after c before
    rcases before.eq_or_lt with rfl | before
    · exact pivots.cleared additive after
    · exact empty after.le before

/-- A pivot in another part keeps a part whose rows are empty from there on. -/
theorem Pivots.swept_other {first g : Nat} (pivots : Pivots bit i p T T') (low : g ≤ i)
    (swept : Swept (T.rows part) first g n)
    : Swept (T'.rows part) first g n := by
  refine swept.congr (fun k _ before => congrArg part (pivots.kept k (by omega))) ?_
  intro k from_g c inside
  by_cases before : k < i
  · show part (T'.stabilizer k) c = 0
    rw [pivots.kept k before]
    exact swept.cleared k from_g c inside
  · exact pivots.empty additive (fun k after => swept.cleared k (low.trans after) c inside)
      (not_lt.mp before)

end Part

-----------------------------------------------------------------------------------------
-- Rank
-----------------------------------------------------------------------------------------

/-- The X bits of the group are spanned by those of the stabilizers. -/
theorem span_xRows (T : Tableau (Fin n))
    : Submodule.span (ZMod 2) (Set.range T.xRows.row)
      = Submodule.span (ZMod 2) (PauliString.x '' (T.group : Set (PauliString (Fin n)))) := by
  apply le_antisymm
  · refine Submodule.span_mono ?_
    rintro _ ⟨i, rfl⟩
    exact ⟨T.stabilizer i, T.stabilizer_mem_group i, rfl⟩
  · rw [Submodule.span_le]
    rintro _ ⟨P, member, rfl⟩
    induction member using Subgroup.closure_induction with
    | mem P generator =>
        obtain ⟨i, rfl⟩ := generator
        exact Submodule.subset_span ⟨i, rfl⟩
    | one => exact Submodule.zero_mem _
    | mul P Q _ _ hp hq => exact Submodule.add_mem _ hp hq
    | inv P _ hp => exact hp

/-- The rank of the X bits depends on the group only. -/
theorem rank_xRows (same : T'.group = T.group) : T'.xRows.rank = T.xRows.rank := by
  rw [Matrix.rank_eq_finrank_span_row, Matrix.rank_eq_finrank_span_row, span_xRows, span_xRows,
    same]

/-- A stabilizer without X bits has Z bits, since it anticommutes with its destabilizer. -/
theorem Valid.stabilizer_z_ne_zero (valid : T.Valid) (empty : (T.stabilizer i).x = 0)
    : (T.stabilizer i).z ≠ 0 := by
  intro none
  have paired := valid.basis.pairing i i
  simp [PauliString.form, empty, none] at paired

/-- Swept by both parts, a valid tableau is in normal form. -/
theorem Valid.normalForm (valid : T.Valid) {g h : Nat} (sweptX : Swept T.xRows 0 g n)
    (sweptZ : Swept T.zRows g h n)
    : T.NormalForm g := by
  have empty (k : Fin n) (after : g ≤ k) : (T.stabilizer k).x = 0 :=
    funext fun c => sweptX.cleared k after c c.isLt
  have all (k : Fin n) (after : g ≤ k) : (k : Nat) < h := by
    by_contra past
    exact valid.stabilizer_z_ne_zero (empty k after)
      (funext fun c => sweptZ.cleared k (not_lt.mp past) c c.isLt)
  refine ⟨sweptX.staircase, empty, ?_, ?_⟩
  · intro k low _
    exact sweptZ.staircase.lead k low (all k low)
  · intro k l low between _
    exact sweptZ.increasing k l low between (all l (low.trans between.le))

end Tableau

end Stabilizer
