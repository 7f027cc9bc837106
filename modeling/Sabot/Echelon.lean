import Mathlib

/-! Elimination of a matrix column by column: what holds after some columns, what one column adds,
the rank that can be read off at the end, and the solution of the equations from the last one up.
-/

namespace Echelon

open Matrix

variable {m n : Nat} {K : Type*}

/-- The rows from `first` to `stop` have leading entries, further right from row to row. -/
structure Staircase [Zero K] (A : Matrix (Fin m) (Fin n) K) (first stop : Nat) : Prop where
  lead : ∀ k : Fin m, first ≤ k → k < stop → ∃ c, A.IsLeadingEntry k c
  increasing
    : ∀ k l : Fin m, first ≤ k → k < l → l < stop
      → ∀ c d, A.IsLeadingEntry k c → A.IsLeadingEntry l d → c < d

/-- The columns before `j` are done. The rows from `first` to `i` have their leading entries there,
further right from row to row, and the rows from `i` on are empty there.
-/
structure Swept [Zero K] (A : Matrix (Fin m) (Fin n) K) (first i j : Nat) : Prop where
  lead : ∀ k : Fin m, first ≤ k → k < i → ∃ c : Fin n, c < j ∧ A.IsLeadingEntry k c
  increasing
    : ∀ k l : Fin m, first ≤ k → k < l → l < i
      → ∀ c d, A.IsLeadingEntry k c → A.IsLeadingEntry l d → c < d
  cleared : ∀ k : Fin m, i ≤ k → ∀ c : Fin n, c < j → A k c = 0

section Zero

variable [Zero K] {A B : Matrix (Fin m) (Fin n) K} {first i : Nat}

/-- A leading entry depends on its row only. -/
theorem isLeadingEntry_congr {k : Fin m} (same : B k = A k) (c : Fin n)
    : B.IsLeadingEntry k c ↔ A.IsLeadingEntry k c := by
  simp only [IsLeadingEntry, same]

theorem Swept.staircase {j : Nat} (swept : Swept A first i j) : Staircase A first i where
  lead k low high := by
    obtain ⟨c, -, leads⟩ := swept.lead k low high
    exact ⟨c, leads⟩
  increasing := swept.increasing

theorem swept_start (A : Matrix (Fin m) (Fin n) K) (first : Nat) : Swept A first first 0 where
  lead _ low high := absurd high (not_lt.mpr low)
  increasing _ _ low between high := absurd (low.trans between.le) (not_le.mpr high)
  cleared _ _ c impossible := absurd impossible (Nat.not_lt_zero c)

/-- The rows that are done stay, and those below stay empty. -/
theorem Swept.congr {j : Nat} (swept : Swept A first i j)
    (kept : ∀ k : Fin m, first ≤ k → k < i → B k = A k)
    (cleared : ∀ k : Fin m, i ≤ k → ∀ c : Fin n, c < j → B k c = 0)
    : Swept B first i j where
  lead k low high := by
    obtain ⟨c, before, leads⟩ := swept.lead k low high
    exact ⟨c, before, (isLeadingEntry_congr (kept k low high) c).mpr leads⟩
  increasing k l low between high c d leadsK leadsL :=
    swept.increasing k l low between high c d
      ((isLeadingEntry_congr (kept k low (by omega)) c).mp leadsK)
      ((isLeadingEntry_congr (kept l (by omega) high) d).mp leadsL)
  cleared := cleared

/-- A column without an entry is passed over. -/
theorem Swept.skip {q : Fin n} (swept : Swept A first i q)
    (empty : ∀ k : Fin m, i ≤ k → A k q = 0)
    : Swept A first i (q + 1) where
  lead k low high := by
    obtain ⟨c, before, leads⟩ := swept.lead k low high
    exact ⟨c, by omega, leads⟩
  increasing := swept.increasing
  cleared k low c before := by
    rcases Nat.lt_succ_iff_lt_or_eq.mp before with earlier | here
    · exact swept.cleared k low c earlier
    · rw [Fin.ext here]
      exact empty k low

/-- A column with a pivot gets one more row, once the rows below are cleared. -/
theorem Swept.pivot {i : Fin m} {q : Fin n} (swept : Swept A first i q)
    (kept : ∀ k : Fin m, first ≤ k → k < i → B k = A k)
    (leads : B.IsLeadingEntry i q)
    (cleared : ∀ k : Fin m, i < k → ∀ c : Fin n, c ≤ q → B k c = 0)
    : Swept B first (i + 1) (q + 1) := by
  have done (k : Fin m) (low : first ≤ k) (high : k < i)
      : ∃ c : Fin n, c < q ∧ B.IsLeadingEntry k c := by
    obtain ⟨c, before, leadsK⟩ := swept.lead k low high
    exact ⟨c, before, (isLeadingEntry_congr (kept k low high) c).mpr leadsK⟩
  have last (k : Fin m) (high : (k : Nat) < i + 1) : k < i ∨ k = i := by
    rcases Nat.lt_succ_iff_lt_or_eq.mp high with earlier | here
    · exact Or.inl earlier
    · exact Or.inr (Fin.ext here)
  constructor
  case lead =>
      intro k low high
      rcases last k high with earlier | rfl
      · obtain ⟨c, before, leadsK⟩ := done k low earlier
        exact ⟨c, Nat.lt_succ_of_lt before, leadsK⟩
      · exact ⟨q, Nat.lt_succ_self q, leads⟩
  case increasing =>
      intro k l low between high c d leadsK leadsL
      rcases last l high with earlier | rfl
      · exact swept.increasing k l low between earlier c d
          ((isLeadingEntry_congr (kept k low (between.trans earlier)) c).mp leadsK)
          ((isLeadingEntry_congr (kept l (low.trans between.le) earlier) d).mp leadsL)
      · obtain ⟨c', before, leads'⟩ := done k low between
        rw [leadsK.unique leads', leadsL.unique leads]
        exact before
  case cleared =>
      intro k below c before
      exact cleared k (Nat.lt_of_succ_le below) c (Nat.lt_succ_iff.mp before)

end Zero

/-- The rows with leading entries are counted by the rank. -/
theorem Swept.rank_eq [Field K] {A : Matrix (Fin m) (Fin n) K} {g : Nat} (swept : Swept A 0 g n)
    (fits : g ≤ m)
    : A.rank = g := by
  choose lead before leads using fun k : Fin m => swept.lead k (Nat.zero_le k)
  let pivots (k : Fin m) : WithTop (Fin n) := if high : (k : Nat) < g then lead k high else ⊤
  have pivoted : A.IsPivotedBy pivots := by
    constructor
    case isRowEchelon =>
        intro k l between c empty
        by_cases high : (l : Nat) < g
        · have highK : (k : Nat) < g := Nat.lt_trans between high
          have leadK := leads k highK
          have noEarlier : c ≤ lead k highK :=
            not_lt.mp fun earlier => leadK.2 (empty _ earlier)
          have further :=
            swept.increasing k l (Nat.zero_le k) between high _ _ leadK (leads l high)
          exact (leads l high).1 c (noEarlier.trans_lt further)
        · exact swept.cleared l (not_lt.mp high) c c.isLt
    case isPivotEntry =>
        intro k
        by_cases high : (k : Nat) < g
        · simp only [pivots, dif_pos high, WithTop.coe_lt_coe, WithTop.coe_inj]
          exact ⟨(leads k high).1, fun c same => same ▸ (leads k high).2⟩
        · simp only [pivots, dif_neg high, WithTop.coe_lt_top, true_implies, WithTop.top_ne_coe,
            false_implies, implies_true, and_true]
          exact fun c => swept.cleared k (not_lt.mp high) c c.isLt
  have counted : (Finset.univ.filter fun k : Fin m => pivots k ≠ ⊤)
      = Finset.univ.filter fun k : Fin m => (k : Nat) < g := by
    refine Finset.filter_congr fun k _ => ?_
    by_cases high : (k : Nat) < g <;> simp [pivots, high]
  rw [pivoted.rank_eq, counted, Fin.card_filter_val_lt, min_eq_right fits]

section Solution

variable [Field K] {A : Matrix (Fin m) (Fin n) K} {b : Fin m → K} {k l : Fin m} {c : Fin n}

/-- Change the unknown of column `c` so that equation `k` holds. -/
def adjust (A : Matrix (Fin m) (Fin n) K) (b : Fin m → K) (k : Fin m) (c : Fin n) (s : Fin n → K)
    : Fin n → K :=
  s + Pi.single c ((b k - A k ⬝ᵥ s) / A k c)

theorem dotProduct_adjust (l : Fin m) (s : Fin n → K)
    : A l ⬝ᵥ adjust A b k c s = A l ⬝ᵥ s + A l c * ((b k - A k ⬝ᵥ s) / A k c) := by
  rw [adjust, dotProduct_add, dotProduct_single]

/-- With the unknown of the leading entry, the equations after `k` are left as they are. -/
theorem Staircase.adjust_solves {first stop : Nat} (stairs : Staircase A first stop)
    (low : first ≤ k) (leads : A.IsLeadingEntry k c) {s : Fin n → K}
    (solved : ∀ l, k < l → l < stop → A l ⬝ᵥ s = b l) (from_k : k ≤ l) (high : l < stop)
    : A l ⬝ᵥ adjust A b k c s = b l := by
  rw [dotProduct_adjust]
  rcases from_k.eq_or_lt with rfl | after
  · rw [mul_div_cancel₀ _ leads.2, add_sub_cancel]
  · obtain ⟨d, leadsL⟩ := stairs.lead l (low.trans after.le) high
    have further := stairs.increasing k l low after high c d leads leadsL
    rw [leadsL.1 c further, zero_mul, add_zero, solved l after high]

/-- The equations of a staircase have a solution. -/
theorem Staircase.exists_solution {first stop : Nat} (stairs : Staircase A first stop)
    (b : Fin m → K)
    : ∃ s : Fin n → K, ∀ k : Fin m, first ≤ k → k < stop → A k ⬝ᵥ s = b k := by
  -- From the last equation up: the last `count` rows before `stop` are solved.
  have solve (count : Nat)
      : ∃ s : Fin n → K, ∀ k : Fin m, first ≤ k → k < stop → stop ≤ k + count → A k ⬝ᵥ s = b k := by
    induction count with
    | zero => exact ⟨0, fun k _ high past => absurd high (not_lt.mpr past)⟩
    | succ count ih =>
        obtain ⟨s, solved⟩ := ih
        by_cases next : first + count < stop ∧ stop - (count + 1) < m
        · let k : Fin m := ⟨stop - (count + 1), next.2⟩
          have low : first ≤ k := by simp only [k]; omega
          obtain ⟨c, leads⟩ := stairs.lead k low (by simp only [k]; omega)
          refine ⟨adjust A b k c s, fun l lowL high reached => ?_⟩
          refine stairs.adjust_solves low leads ?_ (Fin.le_def.mpr (by simp only [k]; omega)) high
          intro r after highR
          refine solved r (by omega) highR ?_
          have := Fin.lt_def.mp after
          simp only [k] at this
          omega
        · refine ⟨s, fun l low high reached => solved l low high ?_⟩
          have := l.isLt
          omega
  obtain ⟨s, solved⟩ := solve stop
  exact ⟨s, fun k low high => solved k low high (by omega)⟩

end Solution

end Echelon
