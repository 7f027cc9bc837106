import Mathlib

/-! Chances of events that look at finitely many fair coins: the share of the strings of coins for
which the event happens.
-/

namespace Coins

variable {D : Nat}

/-- A stream that starts with the coins. -/
def stream (coins : Fin D → Bool) : Stream' Bool :=
  fun i => if inside : i < D then coins ⟨i, inside⟩ else false

/-- The chance that an event happens when `D` coins are flipped. -/
noncomputable def chance (D : Nat) (event : Stream' Bool → Prop) : ℝ :=
  {coins : Fin D → Bool | event (stream coins)}.ncard / 2 ^ D

theorem stream_cons (first : Bool) (coins : Fin D → Bool)
    : stream (Fin.cons first coins : Fin (D + 1) → Bool) = Stream'.cons first (stream coins) := by
  funext i
  cases i with
  | zero => rfl
  | succ i =>
      show stream (Fin.cons first coins : Fin (D + 1) → Bool) (i + 1) = stream coins i
      by_cases inside : i < D
      · rw [stream, stream, dif_pos (Nat.succ_lt_succ inside), dif_pos inside]
        exact Fin.cons_succ (α := fun _ => Bool) first coins ⟨i, inside⟩
      · rw [stream, stream, dif_neg (by omega), dif_neg inside]

theorem chance_true (D : Nat) : chance D (fun _ => True) = 1 := by
  have size : {coins : Fin D → Bool | True}.ncard = 2 ^ D := by
    rw [show {coins : Fin D → Bool | True} = Set.univ from rfl, Set.ncard_univ]
    simp
  rw [chance, size]
  simp

theorem chance_false (D : Nat) : chance D (fun _ => False) = 0 := by
  have size : {coins : Fin D → Bool | False}.ncard = 0 := Set.ncard_empty _
  rw [chance, size]
  simp

theorem chance_congr {event other : Stream' Bool → Prop}
    (same : ∀ coins, event coins ↔ other coins)
    : chance D event = chance D other := by
  rw [funext fun coins => propext (same coins)]

/-- The first coin is fair and independent of the others. -/
theorem chance_succ (event : Stream' Bool → Prop)
    : chance (D + 1) event
      = (chance D (fun coins => event (Stream'.cons false coins))
          + chance D (fun coins => event (Stream'.cons true coins))) / 2 := by
  let join (first : Bool) (rest : Fin D → Bool) : Fin (D + 1) → Bool := Fin.cons first rest
  let part (first : Bool) : Set (Fin (D + 1) → Bool) :=
    join first '' {coins | event (Stream'.cons first (stream coins))}
  have size (first : Bool)
      : (part first).ncard = {coins : Fin D → Bool | event (Stream'.cons first (stream coins))}.ncard :=
    Set.ncard_image_of_injective _ (Fin.cons_right_injective (α := fun _ => Bool) first)
  have split : {coins : Fin (D + 1) → Bool | event (stream coins)} = part false ∪ part true := by
    ext coins
    constructor
    · intro happens
      have whole : coins = Fin.cons (coins 0) (Fin.tail coins) := (Fin.cons_self_tail coins).symm
      have here : coins ∈ part (coins 0) := by
        refine ⟨Fin.tail coins, ?_, whole.symm⟩
        show event _
        rw [← stream_cons, ← whole]
        exact happens
      cases first : coins 0 with
      | false => exact Or.inl (first ▸ here)
      | true => exact Or.inr (first ▸ here)
    · rintro (⟨rest, happens, rfl⟩ | ⟨rest, happens, rfl⟩)
      all_goals
        show event _
        rw [stream_cons]
        exact happens
  have apart : Disjoint (part false) (part true) := by
    rw [Set.disjoint_left]
    rintro _ ⟨a, _, rfl⟩ ⟨b, _, same⟩
    exact absurd (congrFun same 0) (by simp [join])
  rw [chance, split, Set.ncard_union_eq apart, size, size]
  simp only [chance]
  push_cast
  rw [pow_succ]
  field_simp

/-- Two quantities that take each value with the same chance have the same distribution. -/
theorem chance_eq_of_values {α : Type*} {f g : Stream' Bool → α}
    (same : ∀ a, chance D (fun coins => f coins = a) = chance D (fun coins => g coins = a))
    (event : α → Prop)
    : chance D (fun coins => event (f coins)) = chance D (fun coins => event (g coins)) := by
  classical
  let values : Finset α := Finset.univ.image (fun coins : Fin D → Bool => f (stream coins))
    ∪ Finset.univ.image (fun coins : Fin D → Bool => g (stream coins))
  have sum (h : Stream' Bool → α) (inside : ∀ coins : Fin D → Bool, h (stream coins) ∈ values)
      : chance D (fun coins => event (h coins))
        = ∑ a ∈ values.filter event, chance D (fun coins => h coins = a) := by
    have fibers := Finset.card_eq_sum_card_fiberwise
      (s := Finset.univ.filter fun coins : Fin D → Bool => event (h (stream coins)))
      (t := values.filter event) (f := fun coins => h (stream coins))
      (fun coins member => Finset.mem_coe.mpr
        (Finset.mem_filter.mpr ⟨inside coins, (Finset.mem_filter.mp member).2⟩))
    have fiber (a : α) (member : a ∈ values.filter event)
        : ((Finset.univ.filter fun coins : Fin D → Bool => event (h (stream coins))).filter
            fun coins => h (stream coins) = a).card
          = {coins : Fin D → Bool | h (stream coins) = a}.ncard := by
      rw [← Set.ncard_coe_finset]
      congr 1
      ext coins
      have holds := (Finset.mem_filter.mp member).2
      simp only [Finset.coe_filter, Finset.mem_filter, Finset.mem_univ, true_and,
        Set.mem_ofPred_eq, and_iff_right_iff_imp]
      intro eq
      exact eq ▸ holds
    rw [chance, ← Set.coe_toFinset {coins : Fin D → Bool | event (h (stream coins))},
      Set.ncard_coe_finset, Set.toFinset_ofPred, fibers, Finset.sum_congr rfl fiber]
    simp only [chance, Nat.cast_sum, Finset.sum_div]
  rw [sum f fun coins => Finset.mem_union_left _ (Finset.mem_image_of_mem _ (Finset.mem_univ _)),
    sum g fun coins => Finset.mem_union_right _ (Finset.mem_image_of_mem _ (Finset.mem_univ _))]
  exact Finset.sum_congr rfl fun a _ => same a

end Coins
