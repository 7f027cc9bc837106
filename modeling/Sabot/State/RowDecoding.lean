import Sabot.State.RowMeasurement
import Sabot.Stabilizer.Tableau

/-! Packed rows read as signed Pauli strings. Every function on rows becomes the operation on
strings that it implements, as long as the words are sign extended and the columns past the
last qubit are empty.
-/

namespace Sabot.State

open Stabilizer

/-- A bit of the tableau as a scalar. -/
def scalar (b : Bool) : ZMod 2 := if b then 1 else 0

@[simp] theorem scalar_eq_one (b : Bool) : scalar b = 1 ↔ b = true := by
  cases b <;> decide

theorem scalar_eq_zero (b : Bool) : scalar b = 0 ↔ b = false := by
  cases b <;> decide

theorem scalar_injective : Function.Injective scalar := by
  decide

theorem scalar_xor (a b : Bool) : scalar (a ^^ b) = scalar a + scalar b := by
  cases a <;> cases b <;> decide

/-- A row whose words are sign extended, whose phase is reduced and whose columns from `n` on
are empty.
-/
structure Row.WellFormed (n : Nat) (R : Row) : Prop where
  x : ∀ w, SignExtended (R.x w)
  z : ∀ w, SignExtended (R.z w)
  phaseNonneg : 0 ≤ R.r
  phaseLt : R.r < 4
  paddingX : ∀ q, n ≤ q → R.bitX q = false
  paddingZ : ∀ q, n ≤ q → R.bitZ q = false

/-- The signed Pauli string that a row stores. -/
def Row.toPauli (n : Nat) (R : Row) : PauliString (Fin n) where
  x q := scalar (R.bitX q)
  z q := scalar (R.bitZ q)
  phase := (R.r : ZMod 4)

-----------------------------------------------------------------------------------------
-- Columns
-----------------------------------------------------------------------------------------

theorem column_mod_lt (q : Nat) : q % 32 < 32 := Nat.mod_lt q (by decide)

/-- Changing a word under the mask of one qubit changes that qubit's bit only. -/
theorem hasBit_update_masked {f : Nat → Word} (extended : ∀ w, SignExtended (f w)) {v : Word}
    (value : SignExtended v) (q k : Nat)
    : hasBit (Function.update f (q / 32) (f (q / 32) ^^^ (v &&& pt (q % 32))) (k / 32)) (k % 32)
      = (hasBit (f (k / 32)) (k % 32) ^^ (hasBit v (q % 32) && decide (k = q))) := by
  have masked := value.and (signExtended_pt (column_mod_lt q))
  by_cases word : k / 32 = q / 32
  · have column : k = q ↔ k % 32 = q % 32 := by omega
    rw [word, Function.update_self, hasBit_xor (extended _) masked (column_mod_lt k),
      hasBit_and_pt value (column_mod_lt q) (column_mod_lt k)]
    by_cases same : k % 32 = q % 32
    · rw [same]
      simp [column, same]
    · simp [column, same]
  · have differ : k ≠ q := fun same => word (by rw [same])
    simp [Function.update_of_ne word, differ]

/-- A word changed under a mask stays sign extended. -/
theorem signExtended_update_masked {f : Nat → Word} (extended : ∀ w, SignExtended (f w))
    {v : Word} (value : SignExtended v) (q w : Nat)
    : SignExtended (Function.update f (q / 32) (f (q / 32) ^^^ (v &&& pt (q % 32))) w) := by
  rw [Function.update_apply]
  split
  · exact (extended _).xor (value.and (signExtended_pt (column_mod_lt q)))
  · exact extended w

/-- The phase after an update is reduced again, and two was added to it when asked for. -/
theorem tmod_add_two {r : Int} (nonneg : 0 ≤ r) (below : r < 4)
    : 0 ≤ (r + 2).tmod 4 ∧ (r + 2).tmod 4 < 4 ∧ (((r + 2).tmod 4 : Int) : ZMod 4) = r + 2 := by
  interval_cases r <;> decide

namespace Row

variable {n : Nat} {R : Row}

@[simp] theorem negateIf_x (condition : Bool) (R : Row) : (R.negateIf condition).x = R.x := by
  cases condition <;> rfl

@[simp] theorem negateIf_z (condition : Bool) (R : Row) : (R.negateIf condition).z = R.z := by
  cases condition <;> rfl

@[simp] theorem negateIf_bitX (condition : Bool) (R : Row) (q : Nat)
    : (R.negateIf condition).bitX q = R.bitX q := by
  rw [bitX, bitX, negateIf_x]

@[simp] theorem negateIf_bitZ (condition : Bool) (R : Row) (q : Nat)
    : (R.negateIf condition).bitZ q = R.bitZ q := by
  rw [bitZ, bitZ, negateIf_z]

/-- The words of a row are determined by the bits of its qubits. -/
theorem words_eq {f g : Nat → Word} (hf : ∀ w, SignExtended (f w)) (hg : ∀ w, SignExtended (g w))
    (columns : ∀ q, hasBit (f (q / 32)) (q % 32) = hasBit (g (q / 32)) (q % 32))
    : f = g := by
  funext w
  refine (hf w).ext (hg w) ?_
  intro j below
  have column := columns (32 * w + j)
  rwa [Nat.mul_add_div (by decide), Nat.div_eq_of_lt below, Nat.mul_add_mod,
    Nat.mod_eq_of_lt below, add_zero] at column

theorem WellFormed.x_eq {R' : Row} (formed : R.WellFormed n) (formed' : R'.WellFormed n)
    (same : (R.toPauli n).x = (R'.toPauli n).x)
    : R.x = R'.x := by
  refine words_eq formed.x formed'.x ?_
  intro q
  by_cases inside : q < n
  · exact scalar_injective (congrFun same ⟨q, inside⟩)
  · exact (formed.paddingX q (not_lt.mp inside)).trans (formed'.paddingX q (not_lt.mp inside)).symm

theorem WellFormed.z_eq {R' : Row} (formed : R.WellFormed n) (formed' : R'.WellFormed n)
    (same : (R.toPauli n).z = (R'.toPauli n).z)
    : R.z = R'.z := by
  refine words_eq formed.z formed'.z ?_
  intro q
  by_cases inside : q < n
  · exact scalar_injective (congrFun same ⟨q, inside⟩)
  · exact (formed.paddingZ q (not_lt.mp inside)).trans (formed'.paddingZ q (not_lt.mp inside)).symm

/-- Well-formed rows that store the same string are the same, word by word. -/
theorem WellFormed.ext {R' : Row} (formed : R.WellFormed n) (formed' : R'.WellFormed n)
    (same : R.toPauli n = R'.toPauli n)
    : R = R' := by
  have reduced : ∀ r r' : Int, 0 ≤ r → r < 4 → 0 ≤ r' → r' < 4 → (r : ZMod 4) = r' → r = r' := by
    intro r r' low high low' high' equal
    have mod := (ZMod.intCast_eq_intCast_iff' r r' 4).mp equal
    push_cast at mod
    omega
  refine Row.ext (formed.x_eq formed' (congrArg PauliString.x same))
    (formed.z_eq formed' (congrArg PauliString.z same)) ?_
  exact reduced R.r R'.r formed.phaseNonneg formed.phaseLt formed'.phaseNonneg formed'.phaseLt
    (congrArg PauliString.phase same)

theorem WellFormed.negateIf (formed : R.WellFormed n) (condition : Bool)
    : (R.negateIf condition).WellFormed n := by
  obtain ⟨nonneg, below, _⟩ := tmod_add_two formed.phaseNonneg formed.phaseLt
  cases condition with
  | false => exact formed
  | true =>
      exact ⟨formed.x, formed.z, nonneg, below, formed.paddingX, formed.paddingZ⟩

theorem WellFormed.negateIf_phase (formed : R.WellFormed n) (condition : Bool)
    : (((R.negateIf condition).r : Int) : ZMod 4)
      = if condition then (R.r : ZMod 4) + 2 else (R.r : ZMod 4) := by
  obtain ⟨_, _, cast⟩ := tmod_add_two formed.phaseNonneg formed.phaseLt
  cases condition with
  | false => rfl
  | true => exact cast

-----------------------------------------------------------------------------------------
-- Gates
-----------------------------------------------------------------------------------------

/-- The row after changing the two words of a qubit under the qubit's mask. -/
def masked (q : Nat) (v u : Word) (R : Row) : Row where
  x := Function.update R.x (q / 32) (R.x (q / 32) ^^^ (v &&& pt (q % 32)))
  z := Function.update R.z (q / 32) (R.z (q / 32) ^^^ (u &&& pt (q % 32)))
  r := R.r

@[simp] theorem masked_r (q : Nat) (v u : Word) (R : Row) : (R.masked q v u).r = R.r := rfl

theorem masked_bitX (formed : R.WellFormed n) {v : Word} (extended : SignExtended v) (u : Word)
    (q k : Nat)
    : (R.masked q v u).bitX k = (R.bitX k ^^ (hasBit v (q % 32) && decide (k = q))) :=
  hasBit_update_masked formed.x extended q k

theorem masked_bitZ (formed : R.WellFormed n) (v : Word) {u : Word} (extended : SignExtended u)
    (q k : Nat)
    : (R.masked q v u).bitZ k = (R.bitZ k ^^ (hasBit u (q % 32) && decide (k = q))) :=
  hasBit_update_masked formed.z extended q k

theorem WellFormed.masked (formed : R.WellFormed n) {q : Nat} (inside : q < n) {v u : Word}
    (hv : SignExtended v) (hu : SignExtended u)
    : (R.masked q v u).WellFormed n where
  x := signExtended_update_masked formed.x hv q
  z := signExtended_update_masked formed.z hu q
  phaseNonneg := formed.phaseNonneg
  phaseLt := formed.phaseLt
  paddingX k outside := by
    have differ : k ≠ q := by omega
    simp [masked_bitX formed hv, formed.paddingX k outside, differ]
  paddingZ k outside := by
    have differ : k ≠ q := by omega
    simp [masked_bitZ formed v hu, formed.paddingZ k outside, differ]

/-- Writing back a word changed under a zero mask changes nothing. -/
theorem update_zero_masked (f : Nat → Word) (q : Nat)
    : Function.update f (q / 32) (f (q / 32) ^^^ (0#64 &&& pt (q % 32))) = f := by
  simp

theorem toggleX_eq_masked (q : Nat) (R : Row) : R.toggleX q = R.masked q (pt (q % 32)) 0#64 := by
  rw [masked, update_zero_masked, BitVec.and_self]
  rfl

theorem toggleZ_eq_masked (q : Nat) (R : Row) : R.toggleZ q = R.masked q 0#64 (pt (q % 32)) := by
  rw [masked, update_zero_masked, BitVec.and_self]
  rfl

theorem hadamard_eq_masked (q : Nat) (R : Row)
    : R.hadamard q
      = (R.masked q (R.x (q / 32) ^^^ R.z (q / 32)) (R.z (q / 32) ^^^ R.x (q / 32))).negateIf
          ((R.masked q (R.x (q / 32) ^^^ R.z (q / 32)) (R.z (q / 32) ^^^ R.x (q / 32))).bitX q
          && (R.masked q (R.x (q / 32) ^^^ R.z (q / 32)) (R.z (q / 32) ^^^ R.x (q / 32))).bitZ q)
      :=
  rfl

theorem phase_eq_masked (q : Nat) (R : Row)
    : R.phase q
      = (R.negateIf (R.bitX q && R.bitZ q)).masked q 0#64
          ((R.negateIf (R.bitX q && R.bitZ q)).x (q / 32)) := by
  rw [masked, update_zero_masked]
  rfl

theorem WellFormed.hadamard (formed : R.WellFormed n) {q : Nat} (inside : q < n)
    : (R.hadamard q).WellFormed n := by
  rw [hadamard_eq_masked]
  exact (formed.masked inside ((formed.x _).xor (formed.z _))
    ((formed.z _).xor (formed.x _))).negateIf _

/-- The code's Hadamard loop body conjugates the stored string by a Hadamard gate. -/
theorem WellFormed.toPauli_hadamard (formed : R.WellFormed n) (q : Fin n)
    : (R.hadamard q).toPauli n = (R.toPauli n).hadamard q := by
  have hv := (formed.x (q / 32)).xor (formed.z (q / 32))
  have hu := (formed.z (q / 32)).xor (formed.x (q / 32))
  have swap : ∀ a b : Bool, (a ^^ (a ^^ b)) = b := by decide
  have column (f g : Word) (hf : SignExtended f) (hg : SignExtended g)
      : hasBit (f ^^^ g) (q % 32) = (hasBit f (q % 32) ^^ hasBit g (q % 32)) :=
    hasBit_xor hf hg (column_mod_lt q)
  have bitX (k : Nat) : (R.hadamard q).bitX k = if k = q then R.bitZ q else R.bitX k := by
    rw [hadamard_eq_masked, negateIf_bitX, masked_bitX formed hv,
      column _ _ (formed.x _) (formed.z _)]
    by_cases here : k = q
    · rw [here, decide_eq_true rfl, Bool.and_true, if_pos rfl]
      exact swap (R.bitX q) (R.bitZ q)
    · simp [here]
  have bitZ (k : Nat) : (R.hadamard q).bitZ k = if k = q then R.bitX q else R.bitZ k := by
    rw [hadamard_eq_masked, negateIf_bitZ, masked_bitZ formed _ hu,
      column _ _ (formed.z _) (formed.x _)]
    by_cases here : k = q
    · rw [here, decide_eq_true rfl, Bool.and_true, if_pos rfl]
      exact swap (R.bitZ q) (R.bitX q)
    · simp [here]
  have swappedX := bitX q
  have swappedZ := bitZ q
  rw [hadamard_eq_masked, negateIf_bitX] at swappedX
  rw [hadamard_eq_masked, negateIf_bitZ] at swappedZ
  ext k
  · simp only [toPauli, bitX, PauliString.hadamard, Function.update_apply, Fin.ext_iff]
    split <;> rfl
  · simp only [toPauli, bitZ, PauliString.hadamard, Function.update_apply, Fin.ext_iff]
    split <;> rfl
  · simp only [toPauli, PauliString.hadamard, scalar_eq_one]
    rw [hadamard_eq_masked, (formed.masked q.isLt hv hu).negateIf_phase, swappedX, swappedZ]
    simp [and_comm]

theorem WellFormed.phase (formed : R.WellFormed n) {q : Nat} (inside : q < n)
    : (R.phase q).WellFormed n := by
  rw [phase_eq_masked]
  have negated := formed.negateIf (R.bitX q && R.bitZ q)
  exact negated.masked inside signExtended_zero (negated.x _)

/-- The code's phase loop body conjugates the stored string by a phase gate. -/
theorem WellFormed.toPauli_phase (formed : R.WellFormed n) (q : Fin n)
    : (R.phase q).toPauli n = (R.toPauli n).phaseGate q := by
  have negated := formed.negateIf (R.bitX q && R.bitZ q)
  have column : hasBit ((R.negateIf (R.bitX q && R.bitZ q)).x (q / 32)) (q % 32) = R.bitX q :=
    negateIf_bitX _ R q
  ext k
  · simp only [toPauli, PauliString.phaseGate, phase_eq_masked,
      masked_bitX negated signExtended_zero, hasBit_zero, negateIf_bitX]
    simp
  · simp only [toPauli, PauliString.phaseGate, phase_eq_masked,
      masked_bitZ negated _ (negated.x _), column, negateIf_bitZ, Function.update_apply]
    by_cases here : k = q
    · simp [here, scalar_xor]
    · simp [here, Fin.ext_iff.not.mp here]
  · simp only [toPauli, PauliString.phaseGate, scalar_eq_one, phase_eq_masked]
    rw [masked_r, formed.negateIf_phase]
    simp

theorem WellFormed.toggleX (formed : R.WellFormed n) {q : Nat} (inside : q < n)
    : (R.toggleX q).WellFormed n := by
  rw [toggleX_eq_masked]
  exact formed.masked inside (signExtended_pt (column_mod_lt q)) signExtended_zero

theorem WellFormed.toggleZ (formed : R.WellFormed n) {q : Nat} (inside : q < n)
    : (R.toggleZ q).WellFormed n := by
  rw [toggleZ_eq_masked]
  exact formed.masked inside signExtended_zero (signExtended_pt (column_mod_lt q))

theorem toggleXIf_bitX (formed : R.WellFormed n) (condition : Bool) (q k : Nat)
    : (if condition then R.toggleX q else R).bitX k
      = (R.bitX k ^^ (condition && decide (k = q))) := by
  cases condition with
  | false => simp
  | true =>
      rw [if_pos rfl, toggleX_eq_masked,
        masked_bitX formed (signExtended_pt (column_mod_lt q)),
        hasBit_pt (column_mod_lt q) (column_mod_lt q), decide_eq_true rfl]

theorem toggleZIf_bitZ (formed : R.WellFormed n) (condition : Bool) (q k : Nat)
    : (if condition then R.toggleZ q else R).bitZ k
      = (R.bitZ k ^^ (condition && decide (k = q))) := by
  cases condition with
  | false => simp
  | true =>
      rw [if_pos rfl, toggleZ_eq_masked,
        masked_bitZ formed _ (signExtended_pt (column_mod_lt q)),
        hasBit_pt (column_mod_lt q) (column_mod_lt q), decide_eq_true rfl]

theorem toggleXIf_bitZ (condition : Bool) (q k : Nat)
    : (if condition then R.toggleX q else R).bitZ k = R.bitZ k := by
  cases condition <;> rfl

theorem toggleZIf_bitX (condition : Bool) (q k : Nat)
    : (if condition then R.toggleZ q else R).bitX k = R.bitX k := by
  cases condition <;> rfl

theorem WellFormed.toggleXIf (formed : R.WellFormed n) {q : Nat} (inside : q < n)
    (condition : Bool)
    : (if condition then R.toggleX q else R).WellFormed n := by
  split
  · exact formed.toggleX inside
  · exact formed

theorem WellFormed.toggleZIf (formed : R.WellFormed n) {q : Nat} (inside : q < n)
    (condition : Bool)
    : (if condition then R.toggleZ q else R).WellFormed n := by
  split
  · exact formed.toggleZ inside
  · exact formed

theorem WellFormed.cnot (formed : R.WellFormed n) {c t : Nat} (hc : c < n) (ht : t < n)
    : (R.cnot c t).WellFormed n :=
  (((formed.toggleXIf ht _).toggleZIf hc _).negateIf _).negateIf _

/-- The code's CNOT loop body conjugates the stored string by a controlled-not. It reads the
phase conditions after the update, when the bits of target and control have both been flipped.
-/
theorem WellFormed.toPauli_cnot (formed : R.WellFormed n) {c t : Fin n} (distinct : c ≠ t)
    : (R.cnot c t).toPauli n = (R.toPauli n).cnot c t := by
  have apart : (c : Nat) ≠ t := fun same => distinct (Fin.ext same)
  set A := if R.bitX c then R.toggleX t else R with defA
  have formedA : A.WellFormed n := formed.toggleXIf t.isLt _
  have aX (k : Nat) : A.bitX k = (R.bitX k ^^ (R.bitX c && decide (k = (t : Nat)))) :=
    toggleXIf_bitX formed _ _ _
  have aZ (k : Nat) : A.bitZ k = R.bitZ k := toggleXIf_bitZ _ _ _
  set B := if A.bitZ t then A.toggleZ c else A with defB
  have formedB : B.WellFormed n := formedA.toggleZIf c.isLt _
  have bX (k : Nat) : B.bitX k = (R.bitX k ^^ (R.bitX c && decide (k = (t : Nat)))) :=
    (toggleZIf_bitX _ _ _).trans (aX k)
  have bZ (k : Nat) : B.bitZ k = (R.bitZ k ^^ (R.bitZ t && decide (k = (c : Nat)))) := by
    rw [defB, toggleZIf_bitZ formedA, aZ, aZ]
  have samePhase : B.r = R.r := by
    rw [defB, defA]
    split <;> split <;> rfl
  set same := B.bitX c && B.bitZ t && B.bitX t && B.bitZ c with defSame
  set none := B.bitX c && B.bitZ t && !B.bitX t && !B.bitZ c with defNone
  have result : R.cnot c t = (B.negateIf same).negateIf none := rfl
  have signs : ∀ xc zc xt zt : Bool, ∀ k : ZMod 4,
      (if (xc && zt && !(xt ^^ xc) && !(zc ^^ zt)) = true
        then (if (xc && zt && (xt ^^ xc) && (zc ^^ zt)) = true then k + 2 else k) + 2
        else if (xc && zt && (xt ^^ xc) && (zc ^^ zt)) = true then k + 2 else k)
      = if xc = true ∧ zt = true ∧ xt = zc then k + 2 else k := by
    decide
  ext k
  · simp only [toPauli, PauliString.cnot, result, negateIf_bitX, bX, Function.update_apply,
      scalar_xor]
    by_cases here : k = t
    · simp [here]
    · have off : (k : Nat) ≠ t := fun equal => here (Fin.ext equal)
      simp [here, off, scalar]
  · simp only [toPauli, PauliString.cnot, result, negateIf_bitZ, bZ, Function.update_apply,
      scalar_xor]
    by_cases here : k = c
    · simp [here]
    · have off : (k : Nat) ≠ c := fun equal => here (Fin.ext equal)
      simp [here, off, scalar]
  · have phases := signs (R.bitX c) (R.bitZ c) (R.bitX t) (R.bitZ t) (R.r : ZMod 4)
    simp only [toPauli, PauliString.cnot, result, scalar_eq_one,
      scalar_injective.eq_iff]
    rw [(formedB.negateIf same).negateIf_phase, formedB.negateIf_phase, defNone, defSame, bX, bX,
      bZ, bZ, samePhase]
    simpa [apart, apart.symm] using phases

-----------------------------------------------------------------------------------------
-- Products
-----------------------------------------------------------------------------------------

/-- A loop over words and columns visits every qubit once. -/
theorem sum_words_columns {M : Type*} [AddCommMonoid M] (f : Nat → Nat → M) (words : Nat)
    : ∑ i ∈ Finset.range words, ∑ j ∈ Finset.range 32, f i j
      = ∑ q ∈ Finset.range (32 * words), f (q / 32) (q % 32) := by
  induction words with
  | zero => simp
  | succ words ih =>
      rw [Finset.sum_range_succ, ih, Nat.mul_succ, Finset.sum_range_add]
      congr 1
      apply Finset.sum_congr rfl
      intro j member
      have below : j < 32 := Finset.mem_range.mp member
      rw [Nat.mul_add_div (by decide), Nat.div_eq_of_lt below, Nat.mul_add_mod,
        Nat.mod_eq_of_lt below, add_zero]

/-- The six cases of `clifford` are the powers of `i` of one column of a product. -/
theorem cast_cliffordColumn (xb zb xa za : Bool)
    : ((cliffordColumn xb zb xa za 0 : Int) : ZMod 4)
      = columnPhase (scalar xb) (scalar zb) (scalar xa) (scalar za) := by
  revert xb zb xa za
  decide

/-- Columns past the last qubit contribute nothing to the phase of a product. -/
theorem sum_columnExponent {A B : Row} {words : Nat} (formedA : A.WellFormed n)
    (formedB : B.WellFormed n) (enough : n ≤ 32 * words)
    : ∑ i ∈ Finset.range words, ∑ j ∈ Finset.range 32, columnExponent A B i j
      = ∑ q : Fin n, cliffordColumn (B.bitX q) (B.bitZ q) (A.bitX q) (A.bitZ q) 0 := by
  have padding (q : Nat) (_ : q ∈ Finset.range (32 * words)) (outside : q ∉ Finset.range n)
      : cliffordColumn (B.bitX q) (B.bitZ q) (A.bitX q) (A.bitZ q) 0 = 0 := by
    have past : n ≤ q := by simpa using outside
    rw [formedA.paddingX q past, formedA.paddingZ q past, formedB.paddingX q past,
      formedB.paddingZ q past]
    rfl
  rw [sum_words_columns, Fin.sum_univ_eq_sum_range
    (fun q => cliffordColumn (B.bitX q) (B.bitZ q) (A.bitX q) (A.bitZ q) 0) n]
  exact (Finset.sum_subset (Finset.range_subset_range.mpr enough) padding).symm

theorem cast_sum_columnExponent {A B : Row} {words : Nat} (formedA : A.WellFormed n)
    (formedB : B.WellFormed n) (enough : n ≤ 32 * words)
    : ((∑ i ∈ Finset.range words, ∑ j ∈ Finset.range 32, columnExponent A B i j : Int) : ZMod 4)
      = ∑ q : Fin n, columnPhase ((B.toPauli n).x q) ((B.toPauli n).z q) ((A.toPauli n).x q)
          ((A.toPauli n).z q) := by
  rw [sum_columnExponent formedA formedB enough, Int.cast_sum]
  exact Finset.sum_congr rfl (fun q _ => cast_cliffordColumn _ _ _ _)

/-- The last lines of `clifford` reduce the exponent to the range from zero to three. -/
theorem reduce_eq_emod (e : Int)
    : (if e.tmod 4 ≥ 0 then e.tmod 4 else e.tmod 4 + 4) = e % 4 := by
  have quotient := Int.tmod_add_mul_tdiv e 4
  have lower := Int.lt_tmod_of_pos e (b := 4) (by decide)
  have upper := Int.tmod_lt_of_pos e (b := 4) (by decide)
  split <;> omega

theorem productPhase_spec (words : Nat) (A B : Row)
    : 0 ≤ productPhase words A B ∧ productPhase words A B < 4
      ∧ ((productPhase words A B : Int) : ZMod 4)
        = ((∑ i ∈ Finset.range words, ∑ j ∈ Finset.range 32, columnExponent A B i j
            + A.r + B.r : Int) : ZMod 4) := by
  generalize total :
    ∑ i ∈ Finset.range words, ∑ j ∈ Finset.range 32, columnExponent A B i j + A.r + B.r = e
  have reduced : productPhase words A B = e % 4 := by
    simp only [productPhase, total]
    exact reduce_eq_emod e
  refine ⟨by omega, by omega, ?_⟩
  rw [reduced]
  exact ZMod.intCast_mod e 4

theorem WellFormed.product {A B : Row} (formedA : A.WellFormed n) (formedB : B.WellFormed n)
    (words : Nat)
    : (A.product words B).WellFormed n where
  x w := (formedA.x w).xor (formedB.x w)
  z w := (formedA.z w).xor (formedB.z w)
  phaseNonneg := (productPhase_spec words A B).1
  phaseLt := (productPhase_spec words A B).2.1
  paddingX q past := by
    have bits := hasBit_xor (formedA.x (q / 32)) (formedB.x (q / 32)) (column_mod_lt q)
    exact bits.trans (by
      rw [show hasBit (A.x (q / 32)) (q % 32) = false from formedA.paddingX q past,
        show hasBit (B.x (q / 32)) (q % 32) = false from formedB.paddingX q past]
      rfl)
  paddingZ q past := by
    have bits := hasBit_xor (formedA.z (q / 32)) (formedB.z (q / 32)) (column_mod_lt q)
    exact bits.trans (by
      rw [show hasBit (A.z (q / 32)) (q % 32) = false from formedA.paddingZ q past,
        show hasBit (B.z (q / 32)) (q % 32) = false from formedB.paddingZ q past]
      rfl)

/-- `rowmult` multiplies the stored strings, the second row on the left. -/
theorem WellFormed.toPauli_product {A B : Row} {words : Nat} (formedA : A.WellFormed n)
    (formedB : B.WellFormed n) (enough : n ≤ 32 * words)
    : (A.product words B).toPauli n = B.toPauli n * A.toPauli n := by
  ext k
  · rw [PauliString.mul_x, add_comm, Pi.add_apply]
    simp only [toPauli, bitX, ← scalar_xor]
    exact congrArg scalar (hasBit_xor (formedA.x _) (formedB.x _) (column_mod_lt k))
  · rw [PauliString.mul_z, add_comm, Pi.add_apply]
    simp only [toPauli, bitZ, ← scalar_xor]
    exact congrArg scalar (hasBit_xor (formedA.z _) (formedB.z _) (column_mod_lt k))
  · rw [PauliString.mul_phase, ← cast_sum_columnExponent formedA formedB enough]
    have phase := (productPhase_spec words A B).2.2
    simp only [toPauli, Row.product, phase, Int.cast_add]
    ring

-----------------------------------------------------------------------------------------
-- Measured rows
-----------------------------------------------------------------------------------------

/-- A single mask written into an empty row is the bit of its own qubit. -/
theorem hasBit_update_pt (q k : Nat)
    : hasBit (Function.update (fun _ => 0#64) (q / 32) (pt (q % 32)) (k / 32)) (k % 32)
      = decide (k = q) := by
  rw [Function.update_apply]
  by_cases word : k / 32 = q / 32
  · rw [if_pos word, hasBit_pt (column_mod_lt q) (column_mod_lt k), decide_eq_decide]
    omega
  · rw [if_neg word, hasBit_zero, eq_comm, decide_eq_false_iff_not]
    exact fun same => word (by rw [same])

theorem signExtended_update_pt (q w : Nat)
    : SignExtended (Function.update (fun _ => 0#64) (q / 32) (pt (q % 32)) w) := by
  rw [Function.update_apply]
  split
  · exact signExtended_pt (column_mod_lt q)
  · exact signExtended_zero

theorem observed_bitZ (q : Nat) (outcome : Bool) (k : Nat)
    : (observed q outcome).bitZ k = decide (k = q) :=
  hasBit_update_pt q k

theorem observed_wellFormed {q : Nat} (inside : q < n) (outcome : Bool)
    : (observed q outcome).WellFormed n where
  x _ := signExtended_zero
  z := signExtended_update_pt q
  phaseNonneg := by cases outcome <;> simp [observed]
  phaseLt := by cases outcome <;> simp [observed]
  paddingX _ _ := hasBit_zero _
  paddingZ k past := by
    rw [observed_bitZ, decide_eq_false_iff_not]
    omega

theorem toPauli_observed (q : Fin n) (outcome : Bool)
    : (observed q outcome).toPauli n = PauliString.signedZ q outcome := by
  ext k
  · simp only [toPauli, observed_bitX]
    rfl
  · simp only [toPauli, observed_bitZ, PauliString.signedZ, Pi.single_apply, Fin.ext_iff,
      scalar, decide_eq_true_eq]
  · cases outcome <;> rfl

/-- The row of a fresh destabilizer: `X` on the qubit. -/
def single (q : Nat) : Row where
  x := Function.update (fun _ => 0#64) (q / 32) (pt (q % 32))
  z _ := 0#64
  r := 0

theorem single_bitX (q k : Nat) : (single q).bitX k = decide (k = q) := hasBit_update_pt q k

theorem single_wellFormed {q : Nat} (inside : q < n) : (single q).WellFormed n where
  x := signExtended_update_pt q
  z _ := signExtended_zero
  phaseNonneg := le_rfl
  phaseLt := by simp [single]
  paddingX k past := by
    rw [single_bitX, decide_eq_false_iff_not]
    omega
  paddingZ _ _ := hasBit_zero _

theorem toPauli_single (q : Fin n) : (single q).toPauli n = PauliString.singleX q := by
  ext k
  · simp only [toPauli, single_bitX, PauliString.singleX, Pi.single_apply, Fin.ext_iff, scalar,
      decide_eq_true_eq]
  · exact congrArg scalar (hasBit_zero _)
  · exact Int.cast_zero

theorem WellFormed.absorb {pivot : Row} (formed : R.WellFormed n)
    (formedP : pivot.WellFormed n) (words q : Nat)
    : (Row.absorb words q pivot R).WellFormed n := by
  unfold Row.absorb
  split
  · exact formed.product formedP words
  · exact formed

theorem WellFormed.toPauli_absorb {pivot : Row} {words : Nat} (formed : R.WellFormed n)
    (formedP : pivot.WellFormed n) (enough : n ≤ 32 * words) (q : Fin n)
    : (Row.absorb words q pivot R).toPauli n
      = Tableau.absorb q (pivot.toPauli n) (R.toPauli n) := by
  have bit : (R.toPauli n).x q = 1 ↔ R.bitX q = true := scalar_eq_one _
  unfold Row.absorb Tableau.absorb
  by_cases has : R.bitX q = true
  · rw [if_pos has, if_pos (bit.mpr has), formed.toPauli_product formedP enough]
  · rw [if_neg has, if_neg (fun one => has (bit.mp one))]

end Row

end Sabot.State
