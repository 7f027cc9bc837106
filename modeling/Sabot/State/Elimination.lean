import Sabot.State.PackedCalls
import Sabot.Stabilizer.NormalForm

/-! Gaussian elimination leaves the stabilizers in normal form: each column is a pivot or is passed
over, first in the X bits and then in the Z bits.
-/

namespace Sabot.State

open Stabilizer Echelon
open Sabot.Language (circuit)

variable {n : Nat}

/-- The invariant rule for loops that cannot fail, with the round. -/
theorem loop_rounds {σ : Type} (P : Nat → σ → Prop) {count : Nat} {body : Nat → σ → σ} {s : σ}
    (start : P 0 s) (round : ∀ k < count, ∀ s, P k s → P (k + 1) (body k s))
    : P count (loop count body s) := by
  induction count with
  | zero => exact start
  | succ count ih => exact round count (by omega) _ (ih (fun k below => round k (by omega)))

/-- The same for the columns. -/
theorem forColumns_rounds {σ : Type} (P : Nat → σ → Prop) {body : Fin n → σ → σ} {s : σ}
    (start : P 0 s) (round : ∀ q : Fin n, ∀ s, P q s → P (q + 1) (body q s))
    : P n (forColumns n body s) := by
  have rounds (k : Nat) (inside : k ≤ n)
      : P k (((List.finRange n).take k).foldl (fun s q => body q s) s) := by
    induction k with
    | zero => exact start
    | succ k ih =>
        have next := round ⟨k, inside⟩ _ (ih (by omega))
        rw [List.take_succ_eq_append_getElem (by simpa using inside), List.foldl_append]
        simpa using next
  have whole := rounds n le_rfl
  rwa [List.take_of_length_le (by simp)] at whole

/-- A search finds an index with the property, or there is none. -/
theorem first_cases (f : Nat → Bool) (count p : Nat)
    : (first f count p < p + count ∧ f (first f count p) = true)
      ∨ first f count p = p + count ∧ ∀ k, p ≤ k → k < p + count → f k = false := by
  induction count generalizing p with
  | zero => exact Or.inr ⟨rfl, fun k low high => absurd low (by omega)⟩
  | succ count ih =>
      rw [first]
      cases here : f p with
      | true => exact Or.inl ⟨by simp, by simpa using here⟩
      | false =>
          rcases ih (p + 1) with ⟨inside, has⟩ | ⟨past, none⟩
          · refine Or.inl ⟨?_, by simpa using has⟩
            simp only [Bool.false_eq_true, if_false]
            omega
          · refine Or.inr ⟨?_, ?_⟩
            · simp only [Bool.false_eq_true, if_false]
              omega
            · intro k low high
              rcases low.eq_or_lt with rfl | low
              · exact here
              · exact none k low (by omega)

namespace BitTableau

/-- The loop body of `eliminateColumn` for row `i + 1 + t`. -/
def clearRow (bit : BitRow n → Bool) (i t : Nat) (C : BitTableau n) : BitTableau n :=
  if bit (C (i + 1 + t)) then (C.rowmult (i + 1 + t) i).rowmult (i - n) (i + 1 + t - n) else C

section Pivot

variable {bit : BitRow n → Bool} {bit' : PauliString (Fin n) → ZMod 2}
  (reads : ∀ R : BitRow n, bit R = true ↔ bit' R.toPauli = 1)

/-- The first `r` stabilizers below the pivot have been multiplied by it if they have the bit. -/
def Clears (bit' : PauliString (Fin n) → ZMod 2) (S : BitTableau n) (pivot : Fin n) (r : Nat)
    (C : BitTableau n) : Prop :=
  ∀ k : Fin n, C.tableau.stabilizer k
    = if pivot < k ∧ (k : Nat) < pivot + 1 + r ∧ bit' (S.tableau.stabilizer k) = 1
      then S.tableau.stabilizer pivot * S.tableau.stabilizer k else S.tableau.stabilizer k

include reads

theorem clearRow_clears {S C : BitTableau n} {pivot : Fin n} {r : Nat}
    (inside : pivot + n + 1 + r < 2 * n) (clears : Clears bit' S pivot r C)
    : Clears bit' S pivot (r + 1) (clearRow bit (pivot + n) r C) := by
  have indices : (pivot : Nat) + n - n = pivot ∧ pivot + n + 1 + r - n = pivot + 1 + r
      ∧ (pivot : Nat) + 1 + r + n = pivot + n + 1 + r := by
    omega
  let next : Fin n := ⟨pivot + 1 + r, by omega⟩
  have here : C.tableau.stabilizer next = S.tableau.stabilizer next :=
    (clears next).trans (if_neg (by simp [next]))
  have top : C.tableau.stabilizer pivot = S.tableau.stabilizer pivot :=
    (clears pivot).trans (if_neg (by simp))
  have test : bit (C (pivot + n + 1 + r)) = true ↔ bit' (S.tableau.stabilizer next) = 1 := by
    rw [reads, ← here]
    simp only [tableau, next, indices]
  intro k
  -- One more row is counted, which makes a difference if it has the bit.
  have counted (other : k = next → ¬bit' (S.tableau.stabilizer k) = 1)
      : (pivot < k ∧ (k : Nat) < pivot + 1 + r ∧ bit' (S.tableau.stabilizer k) = 1)
        = (pivot < k ∧ (k : Nat) < pivot + 1 + (r + 1) ∧ bit' (S.tableau.stabilizer k) = 1) := by
    have differ (has : bit' (S.tableau.stabilizer k) = 1) : (k : Nat) ≠ pivot + 1 + r :=
      fun same => other (Fin.ext same) has
    refine propext (and_congr_right fun _ => and_congr_left fun has => ?_)
    have := differ has
    omega
  by_cases has : bit' (S.tableau.stabilizer next) = 1
  · rw [clearRow, if_pos (test.mpr has), tableau_addRow C (by omega) (by omega) (by omega) inside]
    simp only [Tableau.addRow, indices, Function.update_apply]
    by_cases same : k = next
    · have counts : pivot < next ∧ (next : Nat) < pivot + 1 + (r + 1) :=
        ⟨Fin.lt_def.mpr (by simp only [next]; omega), by simp only [next]; omega⟩
      rw [if_pos same, same, if_pos ⟨counts.1, counts.2, has⟩]
      exact congrArg₂ _ top here
    · rw [if_neg same, clears k]
      simp only [counted (fun wrong => absurd wrong same)]
  · rw [clearRow, if_neg (fun wrong => has (test.mp wrong)), clears k]
    simp only [counted (fun same => same ▸ has)]

/-- A column of the elimination is a pivot, or no stabilizer from there on has the bit. -/
theorem eliminateColumn_cases (B : BitTableau n) {i : Nat} (low : n ≤ i)
    : (∃ (a p : Fin n), (a : Nat) + n = i ∧ (B.eliminateColumn bit i).1 = i + 1
          ∧ Tableau.Pivots bit' a p B.tableau (B.eliminateColumn bit i).2.tableau)
      ∨ B.eliminateColumn bit i = (i, B)
        ∧ ∀ k : Fin n, i ≤ k + n → bit' (B.tableau.stabilizer k) ≠ 1 := by
  have above := first_le (fun k => bit (B k)) (2 * n - i) i
  rcases first_cases (fun k => bit (B k)) (2 * n - i) i with ⟨found, has⟩ | ⟨past, none⟩
  · left
    generalize defK : first (fun k => bit (B k)) (2 * n - i) i = k at above found has
    obtain ⟨a, rfl⟩ : ∃ a : Fin n, (a : Nat) + n = i := ⟨⟨i - n, by omega⟩, by simp; omega⟩
    obtain ⟨p, rfl⟩ : ∃ p : Fin n, (p : Nat) + n = k := ⟨⟨k - n, by omega⟩, by simp; omega⟩
    let S : BitTableau n := (B.rowswap (a + n) (p + n)).rowswap (a + n - n) (p + n - n)
    let C : BitTableau n := loop (2 * n - (a + n + 1)) (clearRow bit (a + n)) S
    have ran : B.eliminateColumn bit (a + n) = (a + n + 1, C) := by
      simp only [eliminateColumn, defK, if_pos (show (p : Nat) + n < 2 * n by omega)]
      rfl
    have swapped (k : Fin n) : S.tableau.stabilizer k = B.tableau.stabilizer (Equiv.swap a p k) := by
      have indices : (a : Nat) + n - n = a ∧ (p : Nat) + n - n = p := by omega
      have same := tableau_swap B (i := a + n) (k := p + n) (by omega) (by omega) (by omega)
        (by omega)
      simp only [indices] at same
      simp only [S, indices, same]
      rfl
    have clears : Clears bit' S a (2 * n - (a + n + 1)) C :=
      loop_rounds (Clears bit' S a) (fun k => (if_neg (by omega)).symm)
        (fun r below C before => clearRow_clears reads (by omega) before)
    refine ⟨a, p, rfl, by rw [ran], ?_⟩
    rw [ran]
    constructor
    case present => exact (reads (B (p + n))).mp has
    case above => exact Fin.le_def.mpr (by omega)
    case kept =>
        intro k before
        have order : a ≤ p := Fin.le_def.mpr (by omega)
        rw [clears k, if_neg (fun wrong => wrong.1.not_gt before), swapped,
          Equiv.swap_apply_of_ne_of_ne before.ne (before.trans_le order).ne]
    case pivot => rw [clears a, if_neg (fun wrong => wrong.1.ne rfl), swapped, Equiv.swap_apply_left]
    case later =>
        intro k after
        have inside : (k : Nat) < a + 1 + (2 * n - (a + n + 1)) := by omega
        rw [clears k, swapped, swapped, Equiv.swap_apply_left]
        simp only [after, inside, true_and]
  · right
    have ran : B.eliminateColumn bit i = (i, B) := by
      simp only [eliminateColumn, past]
      exact if_neg (by omega)
    refine ⟨ran, fun k after has => ?_⟩
    have lacks := none (k + n) after (by omega)
    rw [(reads (B (k + n))).mpr has] at lacks
    cases lacks

end Pivot

/-- What the columns before `j` of a pass over one part, from row `i` on, have left. -/
structure Passed (part : PauliString (Fin n) → Fin n → ZMod 2) (B : BitTableau n) (i j : Nat)
    (p : Nat × BitTableau n) : Prop where
  low : i ≤ p.1
  high : p.1 ≤ 2 * n
  valid : p.2.tableau.Valid
  group : p.2.tableau.group = B.tableau.group
  swept : Swept (p.2.tableau.rows part) (i - n) (p.1 - n) j

/-- A pass does its part, and keeps another one whose rows are empty from `i` on. -/
theorem columns_passed {part : PauliString (Fin n) → Fin n → ZMod 2}
    (additive : ∀ P Q, part (P * Q) = part P + part Q) {bit : Fin n → BitRow n → Bool}
    (reads : ∀ q R, bit q R = true ↔ part R.toPauli q = 1) {B : BitTableau n}
    (valid : B.tableau.Valid) {i : Nat} (low : n ≤ i) (high : i ≤ 2 * n)
    {other : PauliString (Fin n) → Fin n → ZMod 2}
    (additive' : ∀ P Q, other (P * Q) = other P + other Q)
    : Passed part B i n (forColumns n (fun j p => p.2.eliminateColumn (bit j) p.1) (i, B))
      ∧ (Swept (B.tableau.rows other) 0 (i - n) n
        → Swept ((forColumns n (fun j p => p.2.eliminateColumn (bit j) p.1) (i, B)).2.tableau.rows
            other) 0 (i - n) n) := by
  refine forColumns_rounds (fun j p => Passed part B i j p
    ∧ (Swept (B.tableau.rows other) 0 (i - n) n → Swept (p.2.tableau.rows other) 0 (i - n) n))
    ⟨⟨le_rfl, high, valid, rfl, swept_start _ _⟩, id⟩ ?_
  rintro q ⟨k, C⟩ ⟨passed, keeps⟩
  have from_i : i ≤ k := passed.low
  have validNext := eliminateColumn_valid passed.valid (low.trans passed.low) (bit q)
  rcases @eliminateColumn_cases n (bit q) (fun P => part P q) (reads q) C k (low.trans from_i) with
    ⟨a, p, here, next, pivots⟩ | ⟨ran, lacks⟩
  · have row : k - n = a := by omega
    have swept := passed.swept
    simp only [row] at swept
    refine ⟨⟨?_, ?_, validNext, pivots.group_eq.trans passed.group, ?_⟩, ?_⟩
    · rw [next]
      exact passed.low.trans (Nat.le_succ _)
    · rw [next]
      omega
    · rw [next, show k + 1 - n = a + 1 by omega]
      exact pivots.swept additive swept
    · intro before
      exact pivots.swept_other additive' (by omega) (keeps before)
  · have bits : ∀ a : ZMod 2, a ≠ 1 → a = 0 := by decide
    rw [ran]
    refine ⟨⟨passed.low, passed.high, passed.valid, passed.group, passed.swept.skip ?_⟩, keeps⟩
    intro r after
    exact bits _ (lacks r (by omega))

/-- Elimination keeps the symplectic invariant and the signed group, and arrives at the normal form,
with as many rows in its X part as the rank says.
-/
theorem gaussian_spec {B : BitTableau n} (valid : B.tableau.Valid)
    : B.gaussian.2.tableau.Valid ∧ B.gaussian.2.tableau.group = B.tableau.group
      ∧ B.tableau.xRows.rank = B.gaussian.1 ∧ B.gaussian.2.tableau.NormalForm B.gaussian.1 := by
  have bitsX (q : Fin n) (R : BitRow n) : R.x q = true ↔ R.toPauli.x q = 1 := (scalar_eq_one _).symm
  have bitsZ (q : Fin n) (R : BitRow n) : R.z q = true ↔ R.toPauli.z q = 1 := (scalar_eq_one _).symm
  let first := forColumns n (fun j p => p.2.eliminateColumn (fun R => R.x j) p.1) (n, B)
  let second := forColumns n (fun j p => p.2.eliminateColumn (fun R => R.z j) p.1) first
  have ran : B.gaussian = (first.1 - n, second.2) := rfl
  obtain ⟨afterX, -⟩ := columns_passed PauliString.mul_x bitsX valid le_rfl (by omega)
    PauliString.mul_x
  obtain ⟨afterZ, keepsX⟩ := columns_passed PauliString.mul_z bitsZ afterX.valid afterX.low
    afterX.high PauliString.mul_x
  have sweptX : Swept first.2.tableau.xRows 0 (first.1 - n) n := by
    simpa only [Nat.sub_self] using afterX.swept
  have within : first.1 - n ≤ n := by
    have high : first.1 ≤ 2 * n := afterX.high
    omega
  rw [ran]
  refine ⟨afterZ.valid, afterZ.group.trans afterX.group, ?_, ?_⟩
  · rw [← Tableau.rank_xRows afterX.group]
    exact sweptX.rank_eq within
  · exact afterZ.valid.normalForm (keepsX sweptX) afterZ.swept

end BitTableau

/-- What elimination of a valid packed state comes to. -/
theorem gaussian_eliminates {s : ChpState} (sound : Sound n s) (valid : (s.tableau n).Valid)
    (d : Discipline)
    : ∃ g t, gaussian d s = some (g, t) ∧ Sound n t ∧ (t.tableau n).Valid
        ∧ (t.tableau n).group = (s.tableau n).group ∧ (s.tableau n).xRows.rank = g
        ∧ (t.tableau n).NormalForm g := by
  have represents := sound.represents (B := fun j => (s.row j).bits n) (fun _ _ => rfl)
  obtain ⟨t, ran, represented⟩ := represents.gaussian d
  have before := represents.tableau_eq
  rw [before] at valid ⊢
  obtain ⟨validT, group, rank, form⟩ := BitTableau.gaussian_spec valid
  refine ⟨_, t, ran, represented.sound, ?_⟩
  rw [represented.tableau_eq]
  exact ⟨validT, group, rank, form⟩

/-- Gaussian elimination of a valid state keeps the symplectic invariant with phases zero or two, and
the signed group of the stabilizers. It returns the rank `g` of their X bits, and leaves `g` rows
with leading X bits in increasing columns and after them rows without X bits, with leading Z bits in
increasing columns.
-/
theorem gaussian_normalForm {s : ChpState} (sound : Sound n s) (valid : (s.tableau n).Valid)
    (d : Discipline)
    : ∃ g t, gaussian d s = some (g, t)
        ∧ (Sound n t ∧ (t.tableau n).Valid ∧ ∀ j < 2 * n, t.r.cell j = 0 ∨ t.r.cell j = 2)
        ∧ (t.tableau n).group = (s.tableau n).group
        ∧ (s.tableau n).xRows.rank = g
        ∧ (t.tableau n).NormalForm g := by
  obtain ⟨g, t, ran, soundT, validT, group, rank, form⟩ := gaussian_eliminates sound valid d
  exact ⟨g, t, ran, ⟨soundT, validT, fun j below => soundT.phase_eq validT below⟩, group, rank,
    form⟩

/-- Three entangled qubits, in whose stabilizer rows both an X bit and a Z bit have to be cleared. -/
theorem gaussian_normalForm_three
    : ∃ s g t, s.tableau 3 = (Tableau.run (List.finRange 3) (circuit 3 catCircuit) Tableau.initial
            (.const true)).2.1
        ∧ gaussian .allocated s = some (g, t)
        ∧ (s.tableau 3).xRows.rank = g ∧ (t.tableau 3).NormalForm g := by
  obtain ⟨s, reachable, ran⟩ := exists_cat
  have prepared := reachable.prepared (by decide)
  obtain ⟨g, t, eliminates, _, _, rank, form⟩ :=
    gaussian_normalForm prepared.sound prepared.valid .allocated
  exact ⟨s, g, t, ran, eliminates, rank, form⟩

end Sabot.State
