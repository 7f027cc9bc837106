import Sabot.State.RowProducts

/-! The two branches of a measurement as functions on the rows of the packed tableau. -/

namespace Sabot.State

open ChpState

/-- Searching upward returns the first index that meets the condition, or the limit. -/
theorem search_spec (condition : Nat → Option Bool) (f : Nat → Bool) (count p : Nat)
    (total : ∀ k, p ≤ k → k < p + count → condition k = some (f k))
    : ∃ m, search condition count p = some m
        ∧ p ≤ m ∧ m ≤ p + count
        ∧ (∀ k, p ≤ k → k < m → f k = false)
        ∧ (m < p + count → f m = true) := by
  induction count generalizing p with
  | zero => exact ⟨p, rfl, le_rfl, le_rfl, fun k low high => by omega, fun below => by omega⟩
  | succ count ih =>
      have here := total p le_rfl (by omega)
      cases found : f p with
      | true =>
          refine ⟨p, by simp [search, here, found], le_rfl, by omega, ?_, fun _ => found⟩
          intro k low high
          omega
      | false =>
          obtain ⟨m, ran, low, high, before, last⟩ :=
            ih (p + 1) (fun k lower upper => total k (by omega) (by omega))
          refine ⟨m, by simp [search, here, found, ran], by omega, by omega, ?_, ?_⟩
          · intro k lower upper
            rcases Nat.eq_or_lt_of_le lower with rfl | above
            · exact found
            · exact before k above upper
          · intro below
            exact last (by omega)

/-- The row of a measured observable: `Z` on the qubit, with the sign of the outcome. -/
def Row.observed (q : Nat) (outcome : Bool) : Row where
  x _ := 0#64
  z := Function.update (fun _ => 0#64) (q / 32) (pt (q % 32))
  r := if outcome then 2 else 0

/-- A row multiplied by the pivot when it has an X bit on the measured qubit. -/
def Row.absorb (words q : Nat) (pivot R : Row) : Row :=
  if R.bitX q then R.product words pivot else R

/-- The rows after a random measurement of qubit `q` with pivot `p`. -/
def collapsedRows (s : ChpState) (q p : Nat) (outcome : Bool) (j : Nat) : Row :=
  if j = p then s.row (p + s.n)
  else if j = p + s.n then Row.observed q outcome
  else if j < 2 * s.n then Row.absorb s.over32 q (s.row (p + s.n)) (s.row j)
  else s.row j

/-- The scratch row after `k` rounds of the determined branch with pivot `m`. -/
def scratchRow (s : ChpState) (q m : Nat) : (k : Nat) → Row
  | 0 => s.row (m + s.n)
  | k + 1 =>
      if (s.row (m + 1 + k)).bitX q then
        (scratchRow s q m k).product s.over32 (s.row (m + 1 + k + s.n))
      else scratchRow s q m k

theorem observed_bitX (q : Nat) (outcome : Bool) (k : Nat)
    : (Row.observed q outcome).bitX k = false :=
  hasBit_zero _

section Measurement

variable {s : ChpState} (layout : s.Layout) (d : Discipline) {q : Nat} (hq : q < s.n)
include layout hq

/-- Before its loop the random branch has moved the pivot and set the measured observable. -/
theorem preparePivot_yields {p : Nat} (hp : p < s.n) (coin : Bool)
    : Yields
        ((rowcopy d p (p + s.n) s).bind (fun t =>
          (rowset d (p + s.n) (q + s.n) t).bind (fun u =>
            u.setR (p + s.n) (2 * (if coin then 1 else 0))))) s
        (fun j => if j = p then s.row (p + s.n)
          else if j = p + s.n then Row.observed q coin else s.row j) := by
  refine (rowcopy_yields layout d p (p + s.n) (by omega) (by omega)).bind ?_
  intro t shapeT rowsT
  have layoutT := shapeT.layout layout
  have observable := rowset_yields layoutT d (p + s.n) q
    (by rw [shapeT.n]; omega) (by rw [shapeT.n]; exact hq)
  rw [shapeT.n] at observable
  refine observable.bind ?_
  intro u shapeU rowsU
  have shapeSU := shapeT.trans shapeU
  refine (setR_yields (shapeSU.layout layout) (by rw [shapeSU.n]; omega) _).congr ?_
  intro j inside
  rw [shapeSU.n] at inside
  rw [Function.update_apply, rowsU (p + s.n) (by rw [shapeT.n]; omega), Function.update_self,
    rowsU j (by rw [shapeT.n]; exact inside), Function.update_apply, rowsT j inside,
    Function.update_apply]
  by_cases isZ : j = p + s.n
  · have notP : j ≠ p := by omega
    rw [if_pos isZ, if_neg notP, if_pos isZ]
    cases coin <;> rfl
  · rw [if_neg isZ, if_neg isZ, if_neg isZ]

/-- The loop of the random branch absorbs the pivot into every other row. -/
theorem absorbRows_yields {p : Nat} (hp : p < s.n)
    : Yields
        (forRange (2 * s.n) (fun i s => do
          if i ≠ p then onlyIf (← s.bitX d i q) (rowmult d i p) s else some s) s) s
        (fun j => if j < 2 * s.n ∧ j ≠ p then Row.absorb s.over32 q (s.row p) (s.row j)
          else s.row j) := by
  refine (forRange_rows (fun t => t.row p = s.row p)
    (fun i R => if i ≠ p then Row.absorb s.over32 q (s.row p) R else R) (by omega) rfl ?_).congr ?_
  · intro i below t shape pivot current
    by_cases isP : i = p
    · refine ⟨t, by simp [isP], pivot, SameShape.refl t, ?_⟩
      intro j inside
      by_cases same : j = i
      · rw [same, if_pos rfl, if_neg (not_not.mpr isP), current]
      · rw [if_neg same]
    · have layoutT := shape.layout layout
      have column := layoutT.column_lt (q := q) (by rw [shape.n]; exact hq)
      have hi : i ≤ 2 * t.n := by rw [shape.n]; omega
      have hpT : p ≤ 2 * t.n := by rw [shape.n]; omega
      simp only [ne_eq, isP, not_false_eq_true, if_true, bitX_eq layoutT d hi column,
        Option.bind_eq_bind, Option.bind_some, onlyIf, Row.absorb, current]
      cases bit : (s.row i).bitX q with
      | false =>
          refine ⟨t, by simp, pivot, SameShape.refl t, ?_⟩
          intro j inside
          by_cases same : j = i
          · simp [same, current]
          · simp [same]
      | true =>
          obtain ⟨u, ran, shapeU, rowsU⟩ := rowmult_yields layoutT d hi hpT isP
          refine ⟨u, by simpa using ran, ?_, shapeU, ?_⟩
          · rw [rowsU p hpT, Function.update_of_ne (Ne.symm isP), pivot]
          · intro j inside
            rw [rowsU j (by rw [shape.n]; exact inside), Function.update_apply, current, pivot,
              shape.over32]
            simp
  · intro j _
    by_cases below : j < 2 * s.n <;> by_cases isP : j = p <;> simp [below, isP]

/-- The random branch returns its coin and exchanges one pair of rows. -/
theorem measureRandom_yields {p : Nat} (hp : p < s.n) (coin : Bool)
    : ∃ t, measureRandom d q p coin s = some (coin, t) ∧ SameShape s t
        ∧ ∀ j ≤ 2 * s.n, t.row j = collapsedRows s q p coin j := by
  have positive : s.n ≠ 0 := by omega
  have wrapP : wrap (p + s.n) = p + s.n := layout.wrap_eq (by omega)
  have wrapQ : wrap (q + s.n) = q + s.n := layout.wrap_eq (by omega)
  have wrapN : wrap (2 * s.n) = 2 * s.n := layout.wrap_eq le_rfl
  obtain ⟨v, ranV, shapeV, rowsV⟩ := preparePivot_yields layout d hq hp coin
  obtain ⟨w, ranW, shapeW, rowsW⟩ := absorbRows_yields (shapeV.layout layout) d (q := q) (p := p)
    (by rw [shapeV.n]; exact hq) (by rw [shapeV.n]; exact hp)
  rw [shapeV.n] at ranW rowsW
  have shape := shapeV.trans shapeW
  have pivot : v.row p = s.row (p + s.n) := (rowsV p (by omega)).trans (if_pos rfl)
  have rows : ∀ j ≤ 2 * s.n, w.row j = collapsedRows s q p coin j := by
    intro j inside
    simp only [rowsW j inside, pivot, rowsV j inside, shapeV.over32, collapsedRows]
    by_cases isP : j = p
    · simp [isP]
    · by_cases isZ : j = p + s.n
      · simp [isZ, positive, Row.absorb, observed_bitX]
      · simp [isP, isZ]
  have phase : w.getR (p + s.n) = some (if coin then 2 else 0) := by
    rw [getR_eq (shape.layout layout) (by rw [shape.n]; omega), rows (p + s.n) (by omega)]
    simp [collapsedRows, positive, Row.observed]
  refine ⟨w, ?_, shape, rows⟩
  obtain ⟨t, ranT, restV⟩ := Option.bind_eq_some_iff.mp ranV
  obtain ⟨u, ranU, ranV⟩ := Option.bind_eq_some_iff.mp restV
  simp only [Option.bind_eq_bind] at ranW
  simp only [measureRandom, wrapP, wrapQ, wrapN, ranT, ranU, ranV, ranW, phase,
    Option.bind_eq_bind, Option.bind_some, Option.pure_def]
  cases coin <;> rfl

/-- The determined branch multiplies stabilizers into the scratch row and keeps the others. -/
theorem measureDetermined_yields
    : ∃ m, search (fun m => s.bitX d m q) s.n 0 = some m ∧ m ≤ s.n
        ∧ (∀ k < m, (s.row k).bitX q = false)
        ∧ (m < s.n → (s.row m).bitX q = true)
        ∧ ∃ t, measureDetermined d q s
            = some ((scratchRow s q m (s.n - (m + 1))).r != 0, t)
          ∧ SameShape s t
          ∧ ∀ j ≤ 2 * s.n, t.row j
              = if j = 2 * s.n then scratchRow s q m (s.n - (m + 1)) else s.row j := by
  have wrapN : wrap (2 * s.n) = 2 * s.n := layout.wrap_eq le_rfl
  have column := layout.column_lt hq
  obtain ⟨m, ranM, _, high, before, found⟩ :=
    search_spec (fun m => s.bitX d m q) (fun m => (s.row m).bitX q) s.n 0
      (fun k _ below => bitX_eq layout d (by omega) column)
  simp only [Nat.zero_add] at high found
  have wrapM : wrap (m + s.n) = m + s.n := layout.wrap_eq (by omega)
  obtain ⟨t, ranT, shapeT, rowsT⟩ :=
    rowcopy_yields layout d (2 * s.n) (m + s.n) le_rfl (by omega)
  have loop := forRange_invariant
    (fun k t => do
      onlyIf (← t.bitX d (m + 1 + k) q)
        (rowmult d (wrap (2 * s.n)) (wrap (m + 1 + k + s.n))) t)
    (s.n - (m + 1)) (s := t)
    (fun k u => SameShape s u
      ∧ ∀ j ≤ 2 * s.n, u.row j = if j = 2 * s.n then scratchRow s q m k else s.row j)
    ⟨shapeT, fun j inside => by rw [rowsT j inside, Function.update_apply]; rfl⟩
    (by
      rintro k below u ⟨shapeU, rowsU⟩
      have layoutU := shapeU.layout layout
      have columnU := layoutU.column_lt (q := q) (by rw [shapeU.n]; exact hq)
      have hiU : m + 1 + k ≤ 2 * u.n := by rw [shapeU.n]; omega
      have rowI : u.row (m + 1 + k) = s.row (m + 1 + k) := by
        rw [rowsU _ (by omega), if_neg (by omega)]
      have rowB : u.row (m + 1 + k + s.n) = s.row (m + 1 + k + s.n) := by
        rw [rowsU _ (by omega), if_neg (by omega)]
      have scratch : u.row (2 * s.n) = scratchRow s q m k := by
        rw [rowsU _ le_rfl, if_pos rfl]
      have wrapK : wrap (m + 1 + k + s.n) = m + 1 + k + s.n := layout.wrap_eq (by omega)
      simp only [bitX_eq layoutU d hiU columnU, Option.bind_eq_bind, Option.bind_some, onlyIf,
        rowI, wrapN, wrapK]
      cases bit : (s.row (m + 1 + k)).bitX q with
      | false =>
          refine ⟨u, by simp, shapeU, ?_⟩
          intro j inside
          rw [rowsU j inside, scratchRow, bit]
          simp
      | true =>
          obtain ⟨v, ranV, shapeV, rowsV⟩ := rowmult_yields layoutU d
            (a := 2 * s.n) (b := m + 1 + k + s.n) (by rw [shapeU.n]) (by rw [shapeU.n]; omega)
            (by omega)
          refine ⟨v, by simpa using ranV, shapeU.trans shapeV, ?_⟩
          intro j inside
          rw [rowsV j (by rw [shapeU.n]; exact inside), Function.update_apply, scratch, rowB,
            shapeU.over32, scratchRow, bit]
          by_cases same : j = 2 * s.n
          · simp [same]
          · simp [same, rowsU j inside])
  obtain ⟨u, ranU, shapeU, rowsU⟩ := loop
  refine ⟨m, ranM, high, fun k below => before k (Nat.zero_le k) below, found, u, ?_, shapeU,
    rowsU⟩
  have phase : u.getR (2 * s.n) = some (scratchRow s q m (s.n - (m + 1))).r := by
    rw [getR_eq (shapeU.layout layout) (by rw [shapeU.n]), rowsU _ le_rfl, if_pos rfl]
  simp only [wrapN, Option.bind_eq_bind] at ranU
  simp only [measureDetermined, ranM, wrapN, wrapM, ranT, ranU, phase, Option.bind_eq_bind,
    Option.bind_some, Option.pure_def]

end Measurement

end Sabot.State
