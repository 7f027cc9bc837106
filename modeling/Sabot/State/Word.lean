import Mathlib

/-! The machine words of the packed tableau. Thirty-two qubits share a 64-bit word, and the
mask of the last one is sign extended: it covers bits 31 to 63.
-/

namespace Sabot.State

/-- A `std::int_fast64_t` cell of the x or z matrix, used through `&`, `^` and `=` only. -/
abbrev Word := BitVec 64

/-- `1 << i`, computed in `int` and widened with its sign to 64 bits. -/
def pt (i : Nat) : Word := ((1#32) <<< i).signExtend 64

/-- The condition `word & pt(j)`. -/
def hasBit (w : Word) (j : Nat) : Bool := w &&& pt j != 0#64

/-- Bits 31 to 63 of the word are all equal. -/
def SignExtended (w : Word) : Prop := ∀ i, 31 ≤ i → i < 64 → w.getLsbD i = w.getLsbD 31

/-- A mask has its own bit, and the mask of column 31 every higher bit as well. -/
theorem getLsbD_pt {j : Nat} (column : j < 32) (i : Nat)
    : (pt j).getLsbD i = decide (i < 64 ∧ (i = j ∨ (j = 31 ∧ 31 ≤ i))) := by
  simp only [pt, BitVec.getLsbD_signExtend, BitVec.getLsbD_shiftLeft, BitVec.msb_shiftLeft,
    BitVec.getMsbD_one, BitVec.getLsbD_one]
  by_cases low : i < 32
  · simp only [low, if_true]
    grind
  · simp only [low, if_false]
    grind

theorem signExtended_zero : SignExtended 0#64 := by
  intro i _ _
  simp

theorem signExtended_pt {j : Nat} (column : j < 32) : SignExtended (pt j) := by
  intro i low high
  simp only [getLsbD_pt column, decide_eq_decide]
  omega

theorem SignExtended.xor {a b : Word} (ha : SignExtended a) (hb : SignExtended b)
    : SignExtended (a ^^^ b) := by
  intro i low high
  rw [BitVec.getLsbD_xor, BitVec.getLsbD_xor, ha i low high, hb i low high]

theorem SignExtended.and {a b : Word} (ha : SignExtended a) (hb : SignExtended b)
    : SignExtended (a &&& b) := by
  intro i low high
  rw [BitVec.getLsbD_and, BitVec.getLsbD_and, ha i low high, hb i low high]

/-- On a sign-extended word the condition reads exactly one column. -/
theorem hasBit_eq_getLsbD {w : Word} (extended : SignExtended w) {j : Nat} (column : j < 32)
    : hasBit w j = w.getLsbD j := by
  rw [hasBit, Bool.eq_iff_iff, bne_iff_ne, ne_eq, BitVec.zero_iff_eq_false]
  constructor
  · intro nonzero
    by_contra unset
    apply nonzero
    intro i
    rw [BitVec.getLsbD_and, getLsbD_pt column]
    by_cases covered : i < 64 ∧ (i = j ∨ (j = 31 ∧ 31 ≤ i))
    · have same : w.getLsbD i = w.getLsbD j := by
        rcases covered with ⟨inside, here | ⟨last, above⟩⟩
        · rw [here]
        · rw [extended i above inside, last]
      simp [same, unset]
    · simp [covered]
  · intro set equal
    have bit := equal j
    simp [getLsbD_pt column, set] at bit
    omega

/-- Sign-extended words with the same 32 columns are equal. -/
theorem SignExtended.ext {a b : Word} (ha : SignExtended a) (hb : SignExtended b)
    (columns : ∀ j < 32, hasBit a j = hasBit b j)
    : a = b := by
  have bit (j : Nat) (column : j < 32) : a.getLsbD j = b.getLsbD j := by
    rw [← hasBit_eq_getLsbD ha column, ← hasBit_eq_getLsbD hb column, columns j column]
  apply BitVec.eq_of_getLsbD_eq
  intro i inside
  by_cases low : i < 32
  · exact bit i low
  · rw [ha i (by omega) inside, hb i (by omega) inside]
    exact bit 31 (by decide)

theorem hasBit_zero (j : Nat) : hasBit 0#64 j = false := by
  simp [hasBit]

theorem hasBit_pt {i j : Nat} (hi : i < 32) (hj : j < 32) : hasBit (pt i) j = decide (j = i) := by
  rw [hasBit_eq_getLsbD (signExtended_pt hi) hj, getLsbD_pt hi, decide_eq_decide]
  omega

theorem hasBit_xor {a b : Word} (ha : SignExtended a) (hb : SignExtended b) {j : Nat}
    (column : j < 32)
    : hasBit (a ^^^ b) j = (hasBit a j ^^ hasBit b j) := by
  rw [hasBit_eq_getLsbD (ha.xor hb) column, hasBit_eq_getLsbD ha column,
    hasBit_eq_getLsbD hb column, BitVec.getLsbD_xor]

theorem hasBit_and_pt {w : Word} (extended : SignExtended w) {i j : Nat} (hi : i < 32)
    (hj : j < 32)
    : hasBit (w &&& pt i) j = (hasBit w j && decide (j = i)) := by
  rw [hasBit_eq_getLsbD (extended.and (signExtended_pt hi)) hj, hasBit_eq_getLsbD extended hj,
    BitVec.getLsbD_and, getLsbD_pt hi]
  congr 1
  rw [decide_eq_decide]
  omega

end Sabot.State
