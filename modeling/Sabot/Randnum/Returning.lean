import Sabot.Randnum.Generator

/-! When the draws of the generator return, and that none of them throws a runtime error. -/

namespace Sabot.Randnum

variable {draws : Draws} {draw : Run Draws UInt64}

/-- Draws that return in every state of the generator, or in none. -/
theorem drawMany_returns {p : Prop} (each : ∀ draws, draw.Returns draws ↔ p) (count : Nat)
    (draws : Draws)
    : (drawMany draw count).Returns draws ↔ count = 0 ∨ p := by
  induction count generalizing draws with
  | zero => exact iff_of_true (Run.returns_pure _ _) (Or.inl rfl)
  | succ count ih =>
      rw [drawMany, Run.returns_bind]
      constructor
      · rintro ⟨a, t, ran, _⟩
        exact Or.inr ((each draws).mp ⟨a, t, ran⟩)
      · rintro (zero | holds)
        · cases zero
        · obtain ⟨a, t, ran⟩ := (each draws).mpr holds
          refine ⟨a, t, ran, Run.returns_bind.mpr ?_⟩
          obtain ⟨rest, left, ranRest⟩ := (ih t).mpr (Or.inr holds)
          exact ⟨rest, left, ranRest, Run.returns_pure _ _⟩

theorem drawMany_quiet (quiet : draw.Quiet) (count : Nat) : (drawMany draw count).Quiet := by
  induction count with
  | zero => exact Run.quiet_pure _
  | succ count ih => exact quiet.bind (fun _ => ih.bind (fun _ => Run.quiet_pure _))

theorem getUniformInteger_returns (lower upper : UInt64) (draws : Draws)
    : (getUniformInteger lower upper).Returns draws ↔ lower ≤ upper := by
  by_cases ordered : lower ≤ upper <;> simp [Run.Returns, getUniformInteger, ordered]

theorem getUniformInteger_quiet (lower upper : UInt64) : (getUniformInteger lower upper).Quiet := by
  intro draws t what ran
  rw [getUniformInteger] at ran
  split at ran <;> cases ran

theorem getUniformReal_returns (doubles : Doubles) (lower upper : UInt64) (draws : Draws)
    : (getUniformReal doubles lower upper).Returns draws ↔ doubles.le lower upper = true := by
  by_cases ordered : doubles.le lower upper <;> simp [Run.Returns, getUniformReal, ordered]

theorem getUniformReal_quiet (doubles : Doubles) (lower upper : UInt64)
    : (getUniformReal doubles lower upper).Quiet := by
  intro draws t what ran
  rw [getUniformReal] at ran
  split at ran <;> cases ran

/-- The sum of the weights that are read. -/
def total (doubles : Doubles) (weights : List UInt64) (size : Nat) : UInt64 :=
  (weights.take size).foldl doubles.add 0

/-- The sample selects one of the weights that are read. -/
def Selects (doubles : Doubles) (weights : List UInt64) (size : Nat)
    (sample : UInt64 → UInt64 → UInt64) : Prop :=
  (selectWeighted doubles.lt doubles.sub (weights.take size)
    (sample 0 (total doubles weights size))).isSome

/-- What a weighted draw requires of the weights. -/
def Weighs (doubles : Doubles) (weights : List UInt64) (size : Nat) : Prop :=
  size ≤ weights.length ∧ doubles.le 0 (total doubles weights size) = true

section Weighted

variable {doubles : Doubles} {weights : List UInt64} {size : Nat}

/-- A weighted draw takes one real sample, which has to select a weight. -/
theorem getWeightedInteger_ok (weighs : Weighs doubles weights size)
    (selects : Selects doubles weights size draws.reals.head)
    : ∃ index, getWeightedInteger doubles weights size draws
        = (.ok index, { draws with reals := draws.reals.tail }) := by
  obtain ⟨index, selected⟩ := Option.isSome_iff_exists.mp selects
  have sampled : getUniformReal doubles 0 (total doubles weights size) draws
      = (.ok (draws.reals.head 0 (total doubles weights size)),
          { draws with reals := draws.reals.tail }) :=
    if_pos weighs.2
  refine ⟨UInt64.ofNat index, ?_⟩
  rw [getWeightedInteger, if_neg (by have := weighs.1; omega)]
  refine (Run.bind_ok sampled _).trans ?_
  rw [selected]
  rfl

theorem getWeightedInteger_returns
    (returns : (getWeightedInteger doubles weights size).Returns draws)
    : Weighs doubles weights size ∧ Selects doubles weights size draws.reals.head := by
  by_cases short : weights.length < size
  · simp [Run.Returns, getWeightedInteger, short] at returns
  · rw [getWeightedInteger, if_neg short, Run.returns_bind] at returns
    obtain ⟨sample, t, sampled, later⟩ := returns
    have ordered := (getUniformReal_returns doubles 0 _ draws).mp ⟨sample, t, sampled⟩
    refine ⟨⟨by omega, ordered⟩, ?_⟩
    obtain rfl : draws.reals.head 0 (total doubles weights size) = sample := by
      have drawn : getUniformReal doubles 0 (total doubles weights size) draws
          = (.ok (draws.reals.head 0 (total doubles weights size)),
              { draws with reals := draws.reals.tail }) :=
        if_pos ordered
      exact Except.ok.inj (Prod.mk.inj (drawn.symm.trans sampled)).1
    rw [Selects]
    split at later
    · rename_i selected
      rw [selected]
      rfl
    · simp [Run.Returns] at later

theorem drawMany_weighted_returns (count : Nat) (draws : Draws)
    : (drawMany (getWeightedInteger doubles weights size) count).Returns draws
      ↔ count = 0 ∨ Weighs doubles weights size
        ∧ ∀ k < count, Selects doubles weights size (draws.reals.get k) := by
  induction count generalizing draws with
  | zero => exact iff_of_true (Run.returns_pure _ _) (Or.inl rfl)
  | succ count ih =>
      rw [drawMany, Run.returns_bind]
      constructor
      · rintro ⟨index, t, ran, later⟩
        obtain ⟨weighs, first⟩ := getWeightedInteger_returns ⟨index, t, ran⟩
        obtain ⟨_, drawn⟩ := getWeightedInteger_ok weighs first
        obtain rfl := (Prod.mk.inj (drawn.symm.trans ran)).2
        obtain ⟨rest, left, ranRest, _⟩ := Run.returns_bind.mp later
        refine Or.inr ⟨weighs, fun k below => ?_⟩
        cases k with
        | zero => exact first
        | succ k =>
            rcases (ih _).mp ⟨rest, left, ranRest⟩ with zero | ⟨_, select⟩
            · omega
            · exact select k (by omega)
      · rintro (zero | ⟨weighs, select⟩)
        · cases zero
        · obtain ⟨index, drawn⟩ := getWeightedInteger_ok weighs (select 0 (by omega))
          refine ⟨index, _, drawn, Run.returns_bind.mpr ?_⟩
          obtain ⟨rest, left, ranRest⟩ := (ih { draws with reals := draws.reals.tail }).mpr
            (Or.inr ⟨weighs, fun k below => select (k + 1) (by omega)⟩)
          exact ⟨rest, left, ranRest, Run.returns_pure _ _⟩

theorem getWeightedInteger_quiet : (getWeightedInteger doubles weights size).Quiet := by
  unfold getWeightedInteger
  split
  · exact Run.quiet_ofExcept (by simp)
  · refine (getUniformReal_quiet doubles _ _).bind (fun sample => ?_)
    split
    · exact Run.quiet_pure _
    · exact Run.quiet_ofExcept (by simp)

end Weighted

end Sabot.Randnum
