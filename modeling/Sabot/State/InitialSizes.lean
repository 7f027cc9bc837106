import Sabot.State.Refinement

/-! The sizes that `init_state` computes. They wrap from `2^34` qubits on, and then the chunks are
too small for the rows that the loop lays out in them, if they are granted at all.
-/

namespace Sabot.State

open Stabilizer ChpState

/-- Every word of every row has a pointer and a cell of its own in the chunk. -/
structure OwnCells (m : Matrix) (n over32 : Nat) : Prop where
  pointers : ∀ i ≤ 2 * n, i < m.rows
  inside : ∀ i ≤ 2 * n, ∀ w < over32, m.address i w < m.chunk.size
  distinct
    : ∀ i ≤ 2 * n, ∀ w < over32, ∀ j ≤ 2 * n, ∀ v < over32,
        m.address i w = m.address j v → i = j ∧ w = v

/-- The initialisation lays out the rows and leaves those of `|0...0>`: `X` on qubit `i` in row `i`,
`Z` on it in row `n + i`, and no phases.
-/
def InitialisesZero (pointers : Pointers) (n : Nat) (grants : Stream' (Option Int)) : Prop :=
  ∃ s left, initState .allocated pointers n grants = some (true, s, left)
    ∧ s.n = n ∧ s.over32 = n / 32 + 1
    ∧ OwnCells s.x n (n / 32 + 1) ∧ OwnCells s.z n (n / 32 + 1)
    ∧ ∀ i < n, s.row i = Row.single i ∧ s.row (n + i) = Row.observed i false

/-- All five allocations are granted, so that `init_state` does not throw. -/
def Allocates (n : Nat) (grants : Stream' (Option Int)) : Prop :=
  ∃ leftover left, allocateArrays (wrap (2 * n + 1)) (wrap (wrap (2 * n + 1) * (n / 32 + 1))) grants
    = (.ok leftover, left)

/-- The exact product of the sizes fits in a word exactly below `2^34` qubits. -/
theorem cells_lt_iff (n : Nat) : cells n < 2 ^ 64 ↔ n < 2 ^ 34 := by
  constructor
  · intro fits
    by_contra large
    have rows : 2 ^ 35 + 1 ≤ 2 * n + 1 := by omega
    have words : 2 ^ 29 + 1 ≤ n / 32 + 1 := by omega
    have product := Nat.mul_le_mul rows words
    rw [← cells] at product
    omega
  · intro small
    have rows : 2 * n + 1 ≤ 2 ^ 35 - 1 := by omega
    have words : n / 32 + 1 ≤ 2 ^ 29 := by omega
    calc cells n ≤ (2 ^ 35 - 1) * 2 ^ 29 := Nat.mul_le_mul rows words
      _ < 2 ^ 64 := by norm_num

/-- A matrix that gives every word its own cell has as many cells as there are words. -/
theorem OwnCells.cells_le {m : Matrix} {n : Nat} (own : OwnCells m n (n / 32 + 1))
    : cells n ≤ m.chunk.size := by
  have injective : Set.InjOn (fun cell : Nat × Nat => m.address cell.1 cell.2)
      (Finset.range (2 * n + 1) ×ˢ Finset.range (n / 32 + 1) : Finset (Nat × Nat)) := by
    intro a inA b inB same
    simp only [Finset.coe_product, Set.mem_prod, Finset.coe_range, Set.mem_Iio] at inA inB
    obtain ⟨row, word⟩ := own.distinct a.1 (by omega) a.2 inA.2 b.1 (by omega) b.2 inB.2 same
    exact Prod.ext row word
  have count := Finset.card_le_card_of_injOn (t := Finset.range m.chunk.size) _
    (by
      intro a inA
      simp only [Finset.coe_product, Set.mem_prod, Finset.coe_range, Set.mem_Iio] at inA
      simpa using own.inside a.1 (by omega) a.2 inA.2)
    injective
  simpa [Finset.card_product, cells] using count

/-- Every round of a loop that succeeds has succeeded, in a state that the rounds before it keep. -/
theorem forRange_round {σ : Type} {body : Nat → σ → Option σ} (P : σ → Prop)
    (round : ∀ k s t, body k s = some t → P s → P t) {count : Nat} {s t : σ}
    (ran : forRange count body s = some t) (start : P s)
    : P t ∧ ∀ k < count, ∃ u v, body k u = some v ∧ P u := by
  induction count generalizing t with
  | zero =>
      cases ran
      exact ⟨start, fun k below => absurd below (Nat.not_lt_zero k)⟩
  | succ count ih =>
      rw [forRange, Option.bind_eq_bind, Option.bind_eq_some_iff] at ran
      obtain ⟨u, before, last⟩ := ran
      obtain ⟨keeps, earlier⟩ := ih before
      refine ⟨round count u t last keeps, fun k below => ?_⟩
      rcases Nat.lt_succ_iff_lt_or_eq.mp below with less | rfl
      · exact earlier k less
      · exact ⟨u, t, last, keeps⟩

/-- The sizes of the arrays, which no round of the initialisation changes. -/
def Sizes (n chunk : Nat) (s : ChpState) : Prop :=
  s.n = n ∧ s.x.over32 = n / 32 + 1 ∧ s.x.chunk.size = chunk

theorem initRow_sizes (n chunk i : Nat) (s t : ChpState)
    (round : initRow .allocated i s = some t) (sizes : Sizes n chunk s)
    : Sizes n chunk t := by
  unfold initRow at round
  split at round
  · simp only [setX, Option.ite_none_right_eq_some, Option.some.injEq] at round
    rw [← round.2]
    exact sizes
  · simp only [setZ, Option.ite_none_right_eq_some, Option.some.injEq] at round
    rw [← round.2]
    exact sizes

/-- The initialisation does not change the size of the chunk that it got. -/
theorem initState_chunk_lt {pointers : Pointers} {n : Nat} {grants left : Stream' (Option Int)}
    {s : ChpState} (ran : initState .allocated pointers n grants = some (true, s, left))
    : s.x.chunk.size < 2 ^ 64 := by
  unfold initState at ran
  split at ran
  · rename_i leftover rest _
    simp only [Option.bind_eq_bind, Option.bind_eq_some_iff, Option.pure_def, Option.some.injEq,
      Prod.mk.injEq, true_and] at ran
    obtain ⟨t, loop, rfl, _⟩ := ran
    have sizes := (forRange_round (Sizes n _) (initRow_sizes n _) loop ⟨rfl, rfl, rfl⟩).1
    rw [sizes.2.2]
    exact Nat.mod_lt _ (by decide)
  · simp at ran

theorem initialisesZero_of_small {n : Nat} (small : n < 2 ^ 34) (pointers : Pointers)
    {grants : Stream' (Option Int)} (allocates : Allocates n grants)
    : InitialisesZero pointers n grants := by
  have fits : cells n < 2 ^ 64 := (cells_lt_iff n).mpr small
  obtain ⟨leftover, left, allocated⟩ := allocates
  rw [wrap_rows fits, wrap_cells fits] at allocated
  obtain ⟨s, ran, sound, fresh⟩ := initState_allocated fits leftover .allocated pointers allocated
  have layout := sound.layout
  have words : s.over32 = n / 32 + 1 := by rw [layout.over32_eq, sound.qubits]
  have own {m : Matrix} (matrix : Fits m s.n s.over32) : OwnCells m n (n / 32 + 1) := by
    have small := layout.small
    rw [sound.qubits, words] at matrix small
    refine ⟨?_, ?_, ?_⟩
    · intro i inside
      rw [matrix.rows]
      omega
    · intro i inside w below
      rw [matrix.address_eq small inside, matrix.size]
      calc i * (n / 32 + 1) + w < (i + 1) * (n / 32 + 1) := by rw [Nat.add_mul]; omega
        _ ≤ (2 * n + 1) * (n / 32 + 1) := Nat.mul_le_mul_right _ (by omega)
    · intro i insideI w belowW j insideJ v belowV same
      rw [matrix.address_eq small insideI, matrix.address_eq small insideJ] at same
      exact address_injective belowW belowV same
  refine ⟨s, left, ran, sound.qubits, words, own layout.x, own layout.z, ?_⟩
  intro i below
  constructor
  · refine (sound.rows i (by omega)).ext (Row.single_wellFormed below) ?_
    have string := congrFun (congrArg Tableau.destabilizer fresh) ⟨i, below⟩
    exact string.trans (Row.toPauli_single ⟨i, below⟩).symm
  · rw [Nat.add_comm]
    refine (sound.rows (i + n) (by omega)).ext (Row.observed_wellFormed below false) ?_
    have string := congrFun (congrArg Tableau.stabilizer fresh) ⟨i, below⟩
    exact string.trans (Row.toPauli_observed ⟨i, below⟩ false).symm

theorem InitialisesZero.small {pointers : Pointers} {n : Nat} {grants : Stream' (Option Int)}
    (initialises : InitialisesZero pointers n grants)
    : n < 2 ^ 34 := by
  obtain ⟨s, left, ran, _, _, own, _, _⟩ := initialises
  exact (cells_lt_iff n).mp (lt_of_le_of_lt own.cells_le (initState_chunk_lt ran))

/-- For every operand whose initialisation gets its arrays, the rows have their own cells and are
those of `|0...0>` exactly below `2^34` qubits.
-/
theorem initialisesZero_iff (pointers : Pointers) {n : Nat} {grants : Stream' (Option Int)}
    (allocates : Allocates n grants)
    : InitialisesZero pointers n grants ↔ n < 2 ^ 34 :=
  ⟨InitialisesZero.small, fun small => initialisesZero_of_small small pointers allocates⟩

theorem initialisesZero_iff_three : InitialisesZero (.stale 0) 3 (Stream'.const (some 7)) :=
  (initialisesZero_iff (.stale 0) ⟨7, _, rfl⟩).mpr (by decide)

/-- With `2^34` qubits the sizes are representable, but the chunk has fewer cells than the row of
index 65 is laid out behind, and the loop leaves it.
-/
theorem initState_leaves_chunk {grants : Stream' (Option Int)} (pointers : Pointers)
    (allocates : Allocates (2 ^ 34) grants)
    : initState .allocated pointers (2 ^ 34) grants = none := by
  obtain ⟨leftover, left, allocated⟩ := allocates
  rw [initState, allocated]
  simp only [Option.bind_eq_bind, Option.bind_eq_none_iff]
  intro s loop
  have rounds := (forRange_round (Sizes (2 ^ 34) (2 ^ 35 + 2 ^ 29 + 1))
    (initRow_sizes _ _) loop ⟨rfl, rfl, rfl⟩).2
  obtain ⟨u, v, round, qubits, stride, size⟩ := rounds 65 (by decide)
  rw [initRow, if_pos (by rw [qubits]; decide), setX, Option.ite_none_right_eq_some] at round
  simp only [admits, Matrix.address, stride, size, Bool.and_eq_true, decide_eq_true_eq] at round
  exact absurd round.1.1.2 (by decide)

/-- Operands whose sizes wrap: with `2^34` qubits the loop writes outside the chunk, and with
`2^63` it ends after a single row.
-/
theorem initialisesZero_wrapped
    : let grants : Stream' (Option Int) := Stream'.const (some 0)
      (Allocates (2 ^ 34) grants ∧ initState .allocated (.stale 0) (2 ^ 34) grants = none
          ∧ ¬InitialisesZero (.stale 0) (2 ^ 34) grants)
        ∧ (∃ s left, initState .allocated (.stale 0) (2 ^ 63) grants = some (true, s, left))
        ∧ ¬InitialisesZero (.stale 0) (2 ^ 63) grants := by
  have first : Allocates (2 ^ 34) (Stream'.const (some 0)) := ⟨0, _, rfl⟩
  refine ⟨⟨first, initState_leaves_chunk _ first, fun initialises => ?_⟩, ⟨_, _, rfl⟩,
    fun initialises => ?_⟩
  · exact absurd initialises.small (by decide)
  · exact absurd initialises.small (by decide)

end Sabot.State
