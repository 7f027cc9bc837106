import Sabot.State.RowDecoding
import Sabot.State.RunProgram
import Sabot.Stabilizer.Machine

/-! The packed tableau refines the abstract one: initialisation, gates and measurements of the
code are the operations of `Stabilizer.Tableau` on the strings that the rows store.
-/

namespace Sabot.State

open Stabilizer ChpState

/-- A state with the arrays of `n` qubits and well-formed destabilizer and stabilizer rows. -/
structure Sound (n : Nat) (s : ChpState) : Prop where
  layout : s.Layout
  qubits : s.n = n
  rows : ∀ j < 2 * n, (s.row j).WellFormed n

/-- The abstract tableau that a state stores. -/
def ChpState.tableau (s : ChpState) (n : Nat) : Tableau (Fin n) where
  destabilizer i := (s.row i).toPauli n
  stabilizer i := (s.row (i + n)).toPauli n

section Words

variable {n : Nat} {s : ChpState}

theorem Sound.column_lt (sound : Sound n s) {q : Nat} (inside : q < n) : q / 32 < s.over32 :=
  sound.layout.column_lt (by rw [sound.qubits]; exact inside)

theorem Sound.words (sound : Sound n s) : n ≤ 32 * s.over32 := by
  rw [sound.layout.over32_eq, sound.qubits]
  omega

/-- Sound states with the same tableau have the same rows, word by word. -/
theorem Sound.row_eq {t : ChpState} (sound : Sound n s) (soundT : Sound n t)
    (same : s.tableau n = t.tableau n) {j : Nat} (below : j < 2 * n)
    : s.row j = t.row j := by
  refine (sound.rows j below).ext (soundT.rows j below) ?_
  rcases Nat.lt_or_ge j n with first | second
  · exact congrFun (congrArg Tableau.destabilizer same) ⟨j, first⟩
  · have equal := congrFun (congrArg Tableau.stabilizer same) ⟨j - n, by omega⟩
    simp only [ChpState.tableau, Nat.sub_add_cancel second] at equal
    exact equal

end Words

-----------------------------------------------------------------------------------------
-- Gates
-----------------------------------------------------------------------------------------

/-- The computation succeeds, keeps the state sound and leaves the given tableau. -/
def Refines (n : Nat) (result : Option ChpState) (T : Tableau (Fin n)) : Prop :=
  ∃ t, result = some t ∧ Sound n t ∧ t.tableau n = T

/-- A gate that conjugates every row conjugates the tableau. -/
theorem refines_of_yields {n : Nat} {s : ChpState} (sound : Sound n s) {result : Option ChpState}
    {f : Row → Row} {g : PauliString (Fin n) → PauliString (Fin n)}
    (yields : Yields result s (fun j => if j < 2 * s.n then f (s.row j) else s.row j))
    (formed : ∀ {R : Row}, R.WellFormed n → (f R).WellFormed n)
    (conjugates : ∀ {R : Row}, R.WellFormed n → (f R).toPauli n = g (R.toPauli n))
    : Refines n result ((s.tableau n).map g) := by
  obtain ⟨t, ran, shape, rowsEq⟩ := yields
  have row (j : Nat) (below : j < 2 * n) : t.row j = f (s.row j) := by
    rw [← sound.qubits] at below
    exact (rowsEq j below.le).trans (if_pos below)
  refine ⟨t, ran, ⟨shape.layout sound.layout, shape.n.trans sound.qubits, ?_⟩, ?_⟩
  · intro j below
    rw [row j below]
    exact formed (sound.rows j below)
  · ext1
    · funext i
      have below : (i : Nat) < 2 * n := by omega
      simp only [tableau, Tableau.map, row i below]
      exact conjugates (sound.rows i below)
    · funext i
      have below : (i : Nat) + n < 2 * n := by omega
      simp only [tableau, Tableau.map, row _ below]
      exact conjugates (sound.rows _ below)

section Gates

variable {n : Nat} {s : ChpState} (sound : Sound n s) (d : Discipline)
include sound

theorem hadamard_refines (q : Fin n)
    : Refines n (hadamard d q s) ((s.tableau n).map (PauliString.hadamard q)) :=
  refines_of_yields sound (hadamard_yields sound.layout d (sound.column_lt q.isLt))
    (fun formed => formed.hadamard q.isLt) (fun formed => formed.toPauli_hadamard q)

theorem phase_refines (q : Fin n)
    : Refines n (phase d q s) ((s.tableau n).map (PauliString.phaseGate q)) :=
  refines_of_yields sound (phase_yields sound.layout d (sound.column_lt q.isLt))
    (fun formed => formed.phase q.isLt) (fun formed => formed.toPauli_phase q)

theorem cnot_refines {c t : Fin n} (distinct : c ≠ t)
    : Refines n (cnot d c t s) ((s.tableau n).map (PauliString.cnot c t)) :=
  refines_of_yields sound
    (cnot_yields sound.layout d (sound.column_lt c.isLt) (sound.column_lt t.isLt))
    (fun formed => formed.cnot c.isLt t.isLt) (fun formed => formed.toPauli_cnot distinct)

end Gates

-----------------------------------------------------------------------------------------
-- Measurement
-----------------------------------------------------------------------------------------

section Measurement

variable {n : Nat} {s : ChpState} (sound : Sound n s)
include sound

/-- The rows of the random branch store the collapsed tableau. -/
theorem collapsed_refines {t : ChpState} (shape : SameShape s t) (q p : Fin n) (outcome : Bool)
    (rowsEq : ∀ j ≤ 2 * s.n, t.row j = collapsedRows s q p outcome j)
    : Sound n t ∧ t.tableau n = (s.tableau n).collapse q p outcome := by
  have formedP : (s.row (p + n)).WellFormed n := sound.rows _ (by omega)
  have row (j : Nat) (below : j < 2 * n)
      : t.row j = if j = p then s.row (p + n)
          else if j = p + n then Row.observed q outcome
          else Row.absorb s.over32 q (s.row (p + n)) (s.row j) := by
    have inside : j < 2 * s.n := by rw [sound.qubits]; exact below
    rw [rowsEq j inside.le, collapsedRows, sound.qubits, if_pos below]
  refine ⟨⟨shape.layout sound.layout, shape.n.trans sound.qubits, ?_⟩, ?_⟩
  · intro j below
    rw [row j below]
    split
    · exact formedP
    · split
      · exact Row.observed_wellFormed q.isLt outcome
      · exact (sound.rows j below).absorb formedP _ _
  · ext1
    · funext i
      have below : (i : Nat) < 2 * n := by omega
      have notZ : (i : Nat) ≠ p + n := by omega
      simp only [tableau, Tableau.collapse, row i below, notZ, if_false, Fin.ext_iff]
      by_cases pivot : (i : Nat) = p
      · simp [pivot]
      · rw [if_neg pivot, if_neg pivot]
        exact (sound.rows i below).toPauli_absorb formedP sound.words q
    · funext i
      have below : (i : Nat) + n < 2 * n := by omega
      have notX : (i : Nat) + n ≠ p := by omega
      simp only [tableau, Tableau.collapse, row _ below, notX, if_false, Nat.add_right_cancel_iff,
        Fin.ext_iff]
      by_cases pivot : (i : Nat) = p
      · rw [if_pos pivot, if_pos pivot]
        exact Row.toPauli_observed q outcome
      · rw [if_neg pivot, if_neg pivot]
        exact (sound.rows _ below).toPauli_absorb formedP sound.words q

/-- After `k` rounds the scratch row stores the product of the stabilizers met so far. -/
theorem scratchRow_product (q m : Fin n) (k : Nat) (inside : m + 1 + k ≤ n)
    : (scratchRow s q m k).WellFormed n
      ∧ ∃ rest : List (Fin n), rest.Nodup
        ∧ (∀ i : Fin n, i ∈ rest
            ↔ (m : Nat) < i ∧ (i : Nat) < m + 1 + k ∧ (s.row i).bitX q = true)
        ∧ (scratchRow s q m k).toPauli n
          = (s.tableau n).product ((s.tableau n).stabilizer m) rest := by
  induction k with
  | zero =>
      have start : scratchRow s q m 0 = s.row (m + n) := by rw [scratchRow, sound.qubits]
      rw [start]
      refine ⟨sound.rows _ (by omega), [], List.nodup_nil, ?_, rfl⟩
      intro i
      simp only [List.not_mem_nil, false_iff]
      omega
  | succ k ih =>
      obtain ⟨formed, rest, nodup, listed, productEq⟩ := ih (by omega)
      cases bit : (s.row (m + 1 + k)).bitX q with
      | false =>
          have same : scratchRow s q m (k + 1) = scratchRow s q m k := by
            rw [scratchRow, bit]
            rfl
          rw [same]
          refine ⟨formed, rest, nodup, ?_, productEq⟩
          intro i
          rw [listed i]
          refine and_congr_right (fun _ => and_congr_left (fun has => ⟨by omega, fun below => ?_⟩))
          by_contra last
          have here : (i : Nat) = m + 1 + k := by omega
          rw [here, bit] at has
          cases has
      | true =>
          let next : Fin n := ⟨m + 1 + k, by omega⟩
          have formedN : (s.row (m + 1 + k + n)).WellFormed n := sound.rows _ (by omega)
          have step : scratchRow s q m (k + 1)
              = (scratchRow s q m k).product s.over32 (s.row (m + 1 + k + n)) := by
            rw [scratchRow, bit, sound.qubits]
            rfl
          rw [step]
          refine ⟨formed.product formedN _, rest ++ [next], ?_, ?_, ?_⟩
          · have fresh : next ∉ rest := fun member => by
              have := (listed next).mp member
              simp only [next] at this
              omega
            exact List.nodup_append.mpr ⟨nodup, List.nodup_singleton _, by
              rintro a member b here rfl
              exact fresh (by rwa [List.mem_singleton.mp here] at member)⟩
          · intro i
            rw [List.mem_append, List.mem_singleton, listed i, Fin.ext_iff]
            constructor
            · rintro (⟨low, high, has⟩ | here)
              · exact ⟨low, by omega, has⟩
              · have value : (i : Nat) = m + 1 + k := here
                exact ⟨by omega, by omega, by rw [value]; exact bit⟩
            · rintro ⟨low, high, has⟩
              by_cases here : (i : Nat) = m + 1 + k
              · exact Or.inr here
              · exact Or.inl ⟨low, by omega, has⟩
          · rw [formed.toPauli_product formedN sound.words, productEq, Tableau.product,
              Tableau.product, List.foldl_append]
            rfl

omit sound in
/-- On a signed product the code's test `r[2n] != 0` reads the sign. -/
theorem phase_ne_zero_iff {R : Row} (formed : R.WellFormed n) (sign : (R.toPauli n).Hermitian)
    : (R.r != 0) = decide ((R.toPauli n).phase = 2) := by
  have nonneg := formed.phaseNonneg
  have below := formed.phaseLt
  have even : ((R.r : Int) : ZMod 4) = 0 ∨ ((R.r : Int) : ZMod 4) = 2 :=
    (parity_eq_zero_iff _).mp sign
  have cases : ∀ r : Int, 0 ≤ r → r < 4 → ((r : ZMod 4) = 0 ∨ (r : ZMod 4) = 2)
      → (r != 0) = decide ((r : ZMod 4) = 2) := by
    intro r low high
    interval_cases r <;> decide
  exact cases R.r nonneg below even

omit sound in
/-- In the order of the rows, no stabilizer before the pivot has an X bit on the qubit. -/
theorem pivot_first {T : Tableau (Fin n)} {q p : Fin n}
    (found : T.pivot (List.finRange n) q = some p)
    : ∀ i < p, (T.stabilizer i).x q = 0 := by
  have bits : ∀ a : ZMod 2, ¬a = 1 → a = 0 := by decide
  obtain ⟨_, before, after, listEq, none⟩ := List.find?_eq_some_iff_append.mp found
  intro i below
  have sorted := List.pairwise_lt_finRange n
  have listed := List.mem_finRange i
  rw [listEq] at sorted listed
  rcases List.mem_append.mp listed with early | late
  · exact bits _ (by simpa using none i early)
  · have later := (List.pairwise_cons.mp (List.pairwise_append.mp sorted).2.1).1
    rcases List.mem_cons.mp late with same | last
    · exact absurd same below.ne
    · exact absurd (later i last) below.asymm

/-- The search over the stabilizer rows. -/
theorem searchPivot_spec (d : Discipline) (q : Fin n)
    : ∃ p ≤ n, search (fun p => s.bitX d (wrap (p + s.n)) q) s.n 0 = some p
        ∧ (∀ i : Fin n, (i : Nat) < p → ((s.tableau n).stabilizer i).x q = 0)
        ∧ ∀ below : p < n, ((s.tableau n).stabilizer ⟨p, below⟩).x q = 1 := by
  have bitOf (i : Fin n) : ((s.tableau n).stabilizer i).x q = scalar ((s.row (i + n)).bitX q) :=
    rfl
  obtain ⟨p, ran, _, high, before, found⟩ :=
    search_spec (fun p => s.bitX d (wrap (p + s.n)) q) (fun p => (s.row (p + s.n)).bitX q) s.n 0
      (fun k _ below => by
        have inside : k + s.n ≤ 2 * s.n := by omega
        exact (congrArg (s.bitX d · q) (sound.layout.wrap_eq inside)).trans
          (bitX_eq sound.layout d inside (sound.column_lt q.isLt)))
  simp only [Nat.zero_add, sound.qubits] at high found before
  refine ⟨p, high, ran, ?_, ?_⟩
  · intro i below
    rw [bitOf, scalar_eq_zero]
    exact before i (Nat.zero_le _) below
  · intro below
    rw [bitOf, scalar_eq_one]
    exact found below

/-- With a pivot the coin is the outcome, and the rows are exchanged at the first pivot. -/
theorem measure_random (d : Discipline) {q p : Fin n}
    (first : ∀ i < p, ((s.tableau n).stabilizer i).x q = 0)
    (pivot : ((s.tableau n).stabilizer p).x q = 1) (coins : Stream' Bool)
    : ∃ t, measure d q coins s = some (coins.head, t, coins.tail) ∧ SameShape s t
        ∧ ∀ j ≤ 2 * s.n, t.row j = collapsedRows s q p coins.head j := by
  have hq : (q : Nat) < s.n := by rw [sound.qubits]; exact q.isLt
  have hp : (p : Nat) < s.n := by rw [sound.qubits]; exact p.isLt
  obtain ⟨k, high, ran, before, found⟩ := searchPivot_spec sound d q
  have here : k = p := by
    rcases lt_trichotomy k (p : Nat) with low | same | above
    · have bit := found (low.trans p.isLt)
      rw [first ⟨k, _⟩ low] at bit
      cases bit
    · exact same
    · rw [before p above] at pivot
      cases pivot
  obtain ⟨t, ranT, shape, rowsEq⟩ := measureRandom_yields sound.layout d hq hp coins.head
  exact ⟨t, by simp [measure, ran, here, hp, ranT], shape, rowsEq⟩

/-- Without a pivot the destabilizer search succeeds, and only the scratch row is written. -/
theorem measure_determined (valid : (s.tableau n).Valid) (d : Discipline) {q : Fin n}
    (noPivot : ∀ i, ((s.tableau n).stabilizer i).x q = 0) (coins : Stream' Bool)
    : ∃ (m : Fin n) (t : ChpState), search (fun m => s.bitX d m q) s.n 0 = some (m : Nat)
        ∧ (∀ k < (m : Nat), (s.row k).bitX q = false) ∧ (s.row m).bitX q = true
        ∧ measure d q coins s = some ((scratchRow s q m (n - (m + 1))).r != 0, t, coins)
        ∧ SameShape s t
        ∧ ∀ j ≤ 2 * s.n, t.row j
            = if j = 2 * s.n then scratchRow s q m (n - (m + 1)) else s.row j := by
  have bitOf (i : Fin n) : ((s.tableau n).destabilizer i).x q = scalar ((s.row i).bitX q) := rfl
  obtain ⟨m, ranM, _, empty, has, t, ranT, shape, rowsEq⟩ :=
    measureDetermined_yields sound.layout d (q := q) (by rw [sound.qubits]; exact q.isLt)
  rw [sound.qubits] at has ranT rowsEq
  -- The pivot exists: otherwise `Z` on the qubit would commute with the whole basis.
  obtain ⟨i, partner⟩ := valid.exists_destabilizer noPivot
  have hm : m < n := by
    by_contra past
    have none := empty i (by omega)
    rw [bitOf, scalar_eq_one, none] at partner
    cases partner
  obtain ⟨p, high, ran, _, found⟩ := searchPivot_spec sound d q
  have whole : ¬p < s.n := by
    rw [sound.qubits]
    intro below
    have bit := found below
    rw [noPivot] at bit
    cases bit
  refine ⟨⟨m, hm⟩, t, ranM, empty, has hm, ?_, shape, ?_⟩
  · simp [measure, ran, whole, ranT]
  · rwa [sound.qubits]

/-- The scratch row of a determined measurement stores the readout. -/
theorem scratchRow_readout (valid : (s.tableau n).Valid) {q m : Fin n}
    (empty : ∀ k < (m : Nat), (s.row k).bitX q = false) (has : (s.row m).bitX q = true)
    : (scratchRow s q m (n - (m + 1))).WellFormed n
      ∧ (scratchRow s q m (n - (m + 1))).toPauli n
        = (s.tableau n).readout (List.finRange n) q := by
  have bitOf (i : Fin n) : ((s.tableau n).destabilizer i).x q = scalar ((s.row i).bitX q) := rfl
  obtain ⟨formed, rest, nodup, listed, productEq⟩ :=
    scratchRow_product sound q m (n - (m + 1)) (by omega)
  refine ⟨formed, productEq.trans ?_⟩
  refine valid.product_eq_readout List.mem_finRange (List.nodup_finRange n) ?_ ?_
  · refine List.nodup_cons.mpr ⟨fun member => ?_, nodup⟩
    have := (listed m).mp member
    omega
  · intro i
    rw [List.mem_cons, listed i, bitOf, scalar_eq_one, Fin.ext_iff]
    constructor
    · rintro (here | ⟨_, _, bit⟩)
      · rw [here]
        exact has
      · exact bit
    · intro bit
      by_cases here : (i : Nat) = m
      · exact Or.inl here
      · refine Or.inr ⟨?_, by omega, bit⟩
        by_contra low
        rw [empty i (by omega)] at bit
        cases bit

/-- A measurement succeeds and is an operation of the abstract machine. -/
theorem measure_operates (valid : (s.tableau n).Valid) (d : Discipline) (q : Fin n)
    (coins : Stream' Bool)
    : ∃ outcome t left, measure d q coins s = some (outcome, t, left)
        ∧ Sound n t
        ∧ (s.tableau n).operate (List.finRange n) coins (.measure q)
          = ([outcome], t.tableau n, left) := by
  cases found : (s.tableau n).pivot (List.finRange n) q with
  | some p =>
      obtain ⟨t, ran, shape, rowsEq⟩ :=
        measure_random sound d (pivot_first found) (Tableau.pivot_bit found) coins
      obtain ⟨soundT, tableauT⟩ := collapsed_refines sound shape q p coins.head rowsEq
      refine ⟨_, t, _, ran, soundT, ?_⟩
      simp only [Tableau.operate, found, tableauT]
  | none =>
      have noPivot := (Tableau.pivot_eq_none List.mem_finRange).mp found
      obtain ⟨m, t, _, empty, has, ran, shape, rowsEq⟩ :=
        measure_determined sound valid d noPivot coins
      obtain ⟨formed, readout⟩ := scratchRow_readout sound valid empty has
      have sign : ((s.tableau n).readout (List.finRange n) q).Hermitian := by
        rw [valid.readout_eq List.mem_finRange (List.nodup_finRange n) noPivot]
        exact PauliString.signedZ_hermitian _ _
      have outcome := phase_ne_zero_iff formed (by rw [readout]; exact sign)
      have row (j : Nat) (below : j < 2 * n) : t.row j = s.row j := by
        rw [← sound.qubits] at below
        exact (rowsEq j below.le).trans (if_neg (by omega))
      have same : t.tableau n = s.tableau n := by
        ext1
        · funext i
          exact congrArg (Row.toPauli n) (row i (by omega))
        · funext i
          exact congrArg (Row.toPauli n) (row (i + n) (by omega))
      refine ⟨_, t, coins, ran,
        ⟨shape.layout sound.layout, shape.n.trans sound.qubits, ?_⟩, ?_⟩
      · intro j below
        rw [row j below]
        exact sound.rows j below
      · simp only [Tableau.operate, found, same, outcome, readout]

end Measurement

-----------------------------------------------------------------------------------------
-- Initialisation
-----------------------------------------------------------------------------------------

/-- The allocator grants the five arrays of the next initialisation. -/
def Granted (grants : Stream' (Option Int)) : Prop := ∀ k < 5, (grants.get k).isSome

/-- With granted blocks of representable size the arrays are allocated. -/
theorem allocateArrays_granted {rows chunk : Nat} (rowsFit : 8 * rows < 2 ^ 64)
    (chunkFits : 8 * chunk < 2 ^ 64) {grants : Stream' (Option Int)} (granted : Granted grants)
    : ∃ leftover, allocateArrays rows chunk grants = (.ok leftover, grants.drop 5) := by
  have answer (k : Nat) (below : k < 5) : ∃ content, grants.get k = some content :=
    Option.isSome_iff_exists.mp (granted k below)
  obtain ⟨a, ha⟩ := answer 0 (by decide)
  obtain ⟨b, hb⟩ := answer 1 (by decide)
  obtain ⟨c, hc⟩ := answer 2 (by decide)
  obtain ⟨e, he⟩ := answer 3 (by decide)
  obtain ⟨f, hf⟩ := answer 4 (by decide)
  have head₀ : grants.head = some a := ha
  have head₁ : grants.tail.head = some b := hb
  have head₂ : grants.tail.tail.head = some c := hc
  have head₃ : grants.tail.tail.tail.head = some e := he
  have head₄ : grants.tail.tail.tail.tail.head = some f := hf
  refine ⟨c, ?_⟩
  simp only [allocateArrays, allocate, rowsFit, chunkFits, if_true, head₀, head₁, head₂, head₃,
    head₄]
  rfl

/-- The number of cells of the x or z matrix for `n` qubits. -/
def cells (n : Nat) : Nat := (2 * n + 1) * (n / 32 + 1)

/-- No size wraps below `2^31` qubits. -/
theorem cells_lt {n : Nat} (small : n < 2 ^ 31) : 8 * cells n < 2 ^ 64 := by
  have rows : 2 * n + 1 ≤ 2 ^ 32 := by omega
  have words : n / 32 + 1 ≤ 2 ^ 26 := by omega
  calc 8 * cells n ≤ 8 * (2 ^ 32 * 2 ^ 26) :=
        Nat.mul_le_mul_left 8 (Nat.mul_le_mul rows words)
    _ < 2 ^ 64 := by norm_num

section Initialisation

variable {n : Nat} (fits : cells n < 2 ^ 64) (leftover : Int)
include fits

omit fits in
theorem rows_le_cells : 2 * n + 1 ≤ cells n := Nat.le_mul_of_pos_right _ (Nat.succ_pos _)

theorem wrap_rows : wrap (2 * n + 1) = 2 * n + 1 :=
  Nat.mod_eq_of_lt (lt_of_le_of_lt rows_le_cells fits)

theorem wrap_cells : wrap ((2 * n + 1) * (n / 32 + 1)) = cells n := Nat.mod_eq_of_lt fits

theorem clearedState_layout : (clearedState n leftover).Layout := by
  have matrix : Fits (clearedState n leftover).x n (n / 32 + 1) :=
    ⟨wrap_rows fits, rfl, by
      simp only [clearedState, wrap_rows fits, wrap_cells fits]
      rfl⟩
  exact ⟨rfl, rfl, fits, matrix, matrix, wrap_rows fits⟩

theorem clearedState_row (j : Nat)
    : (clearedState n leftover).row j
      = ⟨fun _ => 0#64, fun _ => 0#64, if j < 2 * n then 0 else leftover⟩ := by
  have wrapped : wrap (2 * n) = 2 * n := by
    have := lt_of_le_of_lt rows_le_cells fits
    exact Nat.mod_eq_of_lt (by omega)
  ext1
  · funext w
    exact ite_self _
  · funext w
    exact ite_self _
  · simp only [ChpState.row, clearedState, wrapped]

/-- Row `i` after its round of the initialisation loop. -/
def initialRow (n i : Nat) (R : Row) : Row :=
  if i < n then { R with x := Function.update R.x (i / 32) (pt (i % 32)) }
  else { R with z := Function.update R.z ((i - n) / 32) (pt ((i - n) % 32)) }

/-- The loop of `init_state` sets one bit in every row, the scratch row included. -/
theorem initRows_yields (d : Discipline)
    : Yields (forRange (2 * n + 1) (initRow d) (clearedState n leftover))
        (clearedState n leftover)
        (fun j => if j < 2 * n + 1 then initialRow n j ((clearedState n leftover).row j)
          else (clearedState n leftover).row j) := by
  have layout := clearedState_layout fits leftover
  refine forRange_rows (fun _ => True) (initialRow n) le_rfl trivial ?_
  intro i below t shape _ current
  have layoutT := shape.layout layout
  have qubits : t.n = n := shape.n
  have words : t.over32 = n / 32 + 1 := shape.over32
  have round : Yields (initRow d i t) t (Function.update t.row i (initialRow n i (t.row i))) := by
    unfold initRow initialRow
    rw [qubits]
    split
    · exact setX_yields layoutT d (by omega) (by rw [words]; omega) _
    · exact setZ_yields layoutT d (by omega) (by rw [words]; omega) _
  obtain ⟨u, ran, shapeU, rowsU⟩ := round
  refine ⟨u, ran, trivial, shapeU, ?_⟩
  intro j inside
  rw [rowsU j (by rw [shape.n]; exact inside), Function.update_apply, current]

/-- An initialisation that gets its arrays leaves the tableau of the all-zero state. -/
theorem initState_allocated (d : Discipline) (pointers : Pointers) {grants left : Stream' (Option Int)}
    (allocated
      : allocateArrays (2 * n + 1) (cells n) grants = (.ok leftover, left))
    : ∃ s, initState d pointers n grants = some (true, s, left)
        ∧ Sound n s ∧ s.tableau n = Tableau.initial := by
  obtain ⟨s, ran, shape, rowsEq⟩ := initRows_yields fits leftover d
  have row (j : Nat) (below : j < 2 * n)
      : s.row j = if j < n then Row.single j else Row.observed (j - n) false := by
    have inside : j < 2 * n + 1 := by omega
    refine (rowsEq j below.le).trans ((if_pos inside).trans ?_)
    rw [clearedState_row fits leftover, initialRow, if_pos below]
    rfl
  refine ⟨s, ?_, ⟨shape.layout (clearedState_layout fits leftover), shape.n, ?_⟩, ?_⟩
  · simp only [initState, wrap_rows fits, wrap_cells fits, allocated, ran]
    rfl
  · intro j below
    rw [row j below]
    split
    · rename_i inside
      exact Row.single_wellFormed inside
    · exact Row.observed_wellFormed (by omega) false
  · ext1
    · funext i
      simp only [tableau, Tableau.initial, row i (by omega), i.isLt, if_true]
      exact Row.toPauli_single i
    · funext i
      have past : ¬(i : Nat) + n < n := by omega
      simp only [tableau, Tableau.initial, row (i + n) (by omega), past, if_false,
        Nat.add_sub_cancel]
      exact Row.toPauli_observed i false

omit leftover in
/-- An initialisation whose arrays are refused leaves no array behind. -/
theorem initState_refused (d : Discipline) (pointers : Pointers)
    {grants left : Stream' (Option Int)} {renewed : Nat}
    (refused : allocateArrays (2 * n + 1) (cells n) grants = (.error renewed, left))
    : ∃ s, initState d pointers n grants = some (false, s, left) := by
  simp only [initState, wrap_rows fits, wrap_cells fits, refused]
  exact ⟨_, rfl⟩

omit leftover in
/-- A successful initialisation was one that got its arrays. -/
theorem initState_success (d : Discipline) (pointers : Pointers) {grants left : Stream' (Option Int)} {s : ChpState}
    (success : initState d pointers n grants = some (true, s, left))
    : Sound n s ∧ s.tableau n = Tableau.initial := by
  cases answers : allocateArrays (2 * n + 1) (cells n) grants with
  | mk content rest =>
      cases content with
      | error renewed =>
          obtain ⟨t, ran⟩ := initState_refused fits d pointers answers
          rw [ran] at success
          cases success
      | ok leftover =>
          obtain ⟨t, ran, soundT, tableauT⟩ :=
            initState_allocated fits leftover d pointers answers
          rw [ran] at success
          simp only [Option.some.injEq, Prod.mk.injEq, true_and] at success
          rw [← success.1]
          exact ⟨soundT, tableauT⟩

end Initialisation

/-- A granted initialisation of fewer than `2^31` qubits succeeds. -/
theorem initState_refines {n : Nat} (small : n < 2 ^ 31) (d : Discipline) (pointers : Pointers)
    {grants : Stream' (Option Int)} (granted : Granted grants)
    : ∃ s, initState d pointers n grants = some (true, s, grants.drop 5)
        ∧ Sound n s ∧ s.tableau n = Tableau.initial := by
  have sizes := cells_lt small
  obtain ⟨leftover, allocated⟩ :=
    allocateArrays_granted (by omega : 8 * (2 * n + 1) < 2 ^ 64) sizes granted
  exact initState_allocated (by omega) leftover d pointers allocated

end Sabot.State
