import Sabot.Randnum.Generator

/-! The weighted choice in exact arithmetic: the loop inverts the cumulative weights. -/

namespace Sabot.Randnum

section Selection

variable {K : Type} [Field K] [LinearOrder K] [IsStrictOrderedRing K]

/-- The loop of `get_weighted_integer` with exact comparison and subtraction. -/
def selectExact (weights : List K) (sample : K) : Option Nat :=
  selectWeighted (fun a b => decide (a < b)) (fun a b => a - b) weights sample

/-- `get_weighted_integer` in exact arithmetic, with the distribution that `get_uniform_real`
draws from; `none` is the throw at its end.
-/
def weightedInteger (uniformReal : K → K → K) (weights : List K) : Option Nat :=
  selectExact weights (uniformReal 0 (weights.foldl (fun a b => a + b) 0))

/-- The sum of the weights before index `i`. -/
def cumulative (weights : List K) (i : Nat) : K := (weights.take i).sum

variable {weights : List K} (nonneg : ∀ weight ∈ weights, 0 ≤ weight)

omit [LinearOrder K] [IsStrictOrderedRing K] in
theorem cumulative_succ {i : Nat} (inside : i < weights.length)
    : cumulative weights (i + 1) = cumulative weights i + weights[i] :=
  List.sum_take_succ weights i inside

omit [LinearOrder K] [IsStrictOrderedRing K] in
theorem cumulative_cons_succ (weight : K) (rest : List K) (i : Nat)
    : cumulative (weight :: rest) (i + 1) = weight + cumulative rest i := by
  rw [cumulative, List.take_succ_cons, List.sum_cons, cumulative]

include nonneg

theorem cumulative_nonneg (i : Nat) : 0 ≤ cumulative weights i :=
  List.sum_nonneg (fun weight member => nonneg weight (List.mem_of_mem_take member))

theorem cumulative_le_sum (i : Nat) : cumulative weights i ≤ weights.sum := by
  have rest : 0 ≤ (weights.drop i).sum :=
    List.sum_nonneg (fun weight member => nonneg weight (List.mem_of_mem_drop member))
  calc cumulative weights i ≤ cumulative weights i + (weights.drop i).sum :=
        le_add_of_nonneg_right rest
    _ = weights.sum := List.sum_take_add_sum_drop weights i

/-- What is left of the sample after `i` rounds is the sample less the weights passed, so the loop
stops at the index whose interval of cumulative weights holds the sample.
-/
theorem selectExact_eq_some_iff {sample : K} (lower : 0 ≤ sample) (i : Nat)
    : selectExact weights sample = some i
      ↔ i < weights.length ∧ cumulative weights i ≤ sample
        ∧ sample < cumulative weights (i + 1) := by
  induction weights generalizing sample i with
  | nil => simp [selectExact, selectWeighted]
  | cons weight rest ih =>
      have restNonneg : ∀ w ∈ rest, 0 ≤ w :=
        fun w member => nonneg w (List.mem_cons_of_mem _ member)
      by_cases stops : sample < weight
      · -- A later index would need the sample to reach the first weight.
        rw [selectExact, selectWeighted, if_pos (decide_eq_true stops)]
        cases i with
        | zero => simpa [cumulative, stops] using lower
        | succ j =>
            have first := cumulative_nonneg restNonneg j
            rw [cumulative_cons_succ]
            simp only [Option.some.injEq, reduceCtorEq, false_iff]
            intro ⟨_, reached, _⟩
            linarith
      · have left : 0 ≤ sample - weight := sub_nonneg.mpr (not_lt.mp stops)
        have next := ih restNonneg left
        rw [selectExact, selectWeighted, if_neg (by simpa using stops)]
        rw [selectExact] at next
        cases i with
        | zero => simp [cumulative, stops]
        | succ j =>
            rw [cumulative_cons_succ, cumulative_cons_succ, List.length_cons,
              Nat.add_lt_add_iff_right, ← le_sub_iff_add_le', ← sub_lt_iff_lt_add', ← next j]
            simp

/-- A sample below the sum of the weights is never used up. -/
theorem selectExact_isSome {sample : K} (lower : 0 ≤ sample) (upper : sample < weights.sum)
    : ∃ i, selectExact weights sample = some i := by
  induction weights generalizing sample with
  | nil => exact absurd (lt_of_le_of_lt lower upper) (lt_irrefl 0)
  | cons weight rest ih =>
      by_cases stops : sample < weight
      · exact ⟨0, if_pos (decide_eq_true stops)⟩
      · rw [List.sum_cons] at upper
        obtain ⟨i, found⟩ := ih (fun w member => nonneg w (List.mem_cons_of_mem _ member))
          (sub_nonneg.mpr (not_lt.mp stops)) (by linarith)
        rw [selectExact] at found
        exact ⟨i + 1, by simp [selectExact, selectWeighted, stops, found]⟩

/-- The samples that select index `i` form the interval between two cumulative weights. -/
theorem selected_eq_interval {i : Nat} (inside : i < weights.length)
    : {sample | 0 ≤ sample ∧ sample < weights.sum ∧ selectExact weights sample = some i}
      = Set.Ico (cumulative weights i) (cumulative weights (i + 1)) := by
  ext sample
  constructor
  · rintro ⟨lower, _, selected⟩
    exact ((selectExact_eq_some_iff nonneg lower i).mp selected).2
  · rintro ⟨reached, below⟩
    have lower := (cumulative_nonneg nonneg i).trans reached
    refine ⟨lower, below.trans_le (cumulative_le_sum nonneg (i + 1)), ?_⟩
    exact (selectExact_eq_some_iff nonneg lower i).mpr ⟨inside, reached, below⟩

end Selection

/-- With rational weights that are not negative and a sample from zero up to their sum, the choice
is the one index whose interval of cumulative weights holds the sample; it is an index of the list
and its weight is not zero. The samples that lead to an index form an interval as long as its
weight.
-/
theorem weightedInteger_inverts (uniformReal : ℚ → ℚ → ℚ) (weights : List ℚ)
    (nonneg : ∀ weight ∈ weights, 0 ≤ weight) (positive : 0 < weights.sum)
    (range : ∀ sum, 0 < sum → 0 ≤ uniformReal 0 sum ∧ uniformReal 0 sum < sum)
    : (∃ i, ∃ inside : i < weights.length, weightedInteger uniformReal weights = some i
        ∧ cumulative weights i ≤ uniformReal 0 weights.sum
        ∧ uniformReal 0 weights.sum < cumulative weights (i + 1)
        ∧ 0 < weights[i]
        ∧ ∀ j < weights.length, cumulative weights j ≤ uniformReal 0 weights.sum
          → uniformReal 0 weights.sum < cumulative weights (j + 1) → j = i)
      ∧ ∀ i, ∀ inside : i < weights.length,
          {sample | 0 ≤ sample ∧ sample < weights.sum ∧ selectExact weights sample = some i}
            = Set.Ico (cumulative weights i) (cumulative weights (i + 1))
          ∧ cumulative weights (i + 1) - cumulative weights i = weights[i] := by
  obtain ⟨lower, upper⟩ := range weights.sum positive
  have choice : weightedInteger uniformReal weights
      = selectExact weights (uniformReal 0 weights.sum) := by
    rw [weightedInteger, List.sum_eq_foldl]
  have difference (i : Nat) (inside : i < weights.length)
      : cumulative weights (i + 1) - cumulative weights i = weights[i] := by
    rw [cumulative_succ inside, add_sub_cancel_left]
  obtain ⟨i, selected⟩ := selectExact_isSome nonneg lower upper
  obtain ⟨inside, reached, below⟩ := (selectExact_eq_some_iff nonneg lower i).mp selected
  refine ⟨⟨i, inside, choice.trans selected, reached, below, ?_, ?_⟩, ?_⟩
  · rw [← difference i inside]
    linarith
  · intro j insideJ reachedJ belowJ
    have other := (selectExact_eq_some_iff nonneg lower j).mpr ⟨insideJ, reachedJ, belowJ⟩
    exact Option.some.inj (other.symm.trans selected)
  · intro j insideJ
    exact ⟨selected_eq_interval nonneg insideJ, difference j insideJ⟩

/-- A half of the sum of three weights, the first and the last of which are zero. -/
theorem weightedInteger_inverts_half
    : weightedInteger (fun _ sum => sum / 2) [0, (1 / 2 : ℚ), 0] = some 1 := by
  obtain ⟨⟨i, inside, chosen, _, _, positive, _⟩, _⟩ :=
    weightedInteger_inverts (fun _ sum => sum / 2) [0, (1 / 2 : ℚ), 0]
      (by
        intro weight member
        simp only [List.mem_cons, List.not_mem_nil, or_false] at member
        rcases member with rfl | rfl | rfl <;> norm_num)
      (by norm_num)
      (by
        intro sum above
        constructor <;> linarith)
  have bound : i < 3 := inside
  interval_cases i
  · exact absurd positive (lt_irrefl 0)
  · exact chosen
  · exact absurd positive (lt_irrefl 0)

end Sabot.Randnum
