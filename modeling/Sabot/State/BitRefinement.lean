import Sabot.State.Simulation
import Sabot.State.BitTableau
import Sabot.Stabilizer.Elimination

/-! The packed words implement the boolean tableau: every operation of `chp_state` does to the bits
of its rows what the same algorithm does on boolean matrices, whatever the scratch row holds.
-/

namespace Sabot.State

open Stabilizer ChpState

variable {n : Nat}

-----------------------------------------------------------------------------------------
-- Rows
-----------------------------------------------------------------------------------------

@[simp] theorem BitRow.negateIf_x (condition : Bool) (R : BitRow n)
    : (R.negateIf condition).x = R.x := by
  cases condition <;> rfl

@[simp] theorem BitRow.negateIf_z (condition : Bool) (R : BitRow n)
    : (R.negateIf condition).z = R.z := by
  cases condition <;> rfl

namespace Row

/-- The bits of the qubits and the phase of a packed row. -/
def bits (n : Nat) (R : Row) : BitRow n where
  x q := R.bitX q
  z q := R.bitZ q
  r := R.r

variable {R A B : Row}

theorem bits_negateIf (condition : Bool) (R : Row)
    : (R.negateIf condition).bits n = (R.bits n).negateIf condition := by
  cases condition <;> rfl

/-- Changing the words of a qubit under its mask changes the bits of that qubit only. -/
theorem bits_masked (formed : R.WellFormed n) (q : Fin n) {v u : Word} (hv : SignExtended v)
    (hu : SignExtended u)
    : (R.masked q v u).bits n
      = { R.bits n with
          x := Function.update (R.bits n).x q (R.bitX q ^^ hasBit v (q % 32))
          z := Function.update (R.bits n).z q (R.bitZ q ^^ hasBit u (q % 32)) } := by
  have column (f g : Fin n → Bool) (b : Bool)
      (changed : ∀ k : Fin n, f k = (g k ^^ (b && decide ((k : Nat) = q))))
      : f = Function.update g q (g q ^^ b) := by
    funext k
    rw [changed, Function.update_apply]
    by_cases here : k = q
    · simp [here]
    · simp [here, Fin.val_ne_of_ne here]
  ext1
  · exact column _ _ _ (fun k => masked_bitX formed hv u q k)
  · exact column _ _ _ (fun k => masked_bitZ formed v hu q k)
  · rfl

theorem bits_hadamard (formed : R.WellFormed n) (q : Fin n)
    : (R.hadamard q).bits n = (R.bits n).hadamard q := by
  have hv := (formed.x (q / 32)).xor (formed.z (q / 32))
  have hu := (formed.z (q / 32)).xor (formed.x (q / 32))
  have bitV : hasBit (R.x (q / 32) ^^^ R.z (q / 32)) (q % 32) = (R.bitX q ^^ R.bitZ q) :=
    hasBit_xor (formed.x _) (formed.z _) (column_mod_lt q)
  have bitU : hasBit (R.z (q / 32) ^^^ R.x (q / 32)) (q % 32) = (R.bitZ q ^^ R.bitX q) :=
    hasBit_xor (formed.z _) (formed.x _) (column_mod_lt q)
  have masked := bits_masked formed q hv hu
  rw [bitV, bitU] at masked
  have bitX := congrFun (congrArg BitRow.x masked) q
  have bitZ := congrFun (congrArg BitRow.z masked) q
  rw [hadamard_eq_masked, bits_negateIf, masked]
  simp only [bits] at bitX bitZ
  rw [bitX, bitZ]
  rfl

theorem bits_phase (formed : R.WellFormed n) (q : Fin n)
    : (R.phase q).bits n = (R.bits n).phase q := by
  have negated := formed.negateIf (R.bitX q && R.bitZ q)
  have column : hasBit ((R.negateIf (R.bitX q && R.bitZ q)).x (q / 32)) (q % 32) = R.bitX q :=
    negateIf_bitX _ R q
  rw [phase_eq_masked, bits_masked negated q signExtended_zero (negated.x (q / 32)),
    bits_negateIf, hasBit_zero, Bool.xor_false, column, negateIf_bitX, negateIf_bitZ]
  ext1
  · simp only [BitRow.negateIf_x, BitRow.phase]
    exact Function.update_eq_self q (R.bits n).x
  · simp only [BitRow.negateIf_x, BitRow.negateIf_z, BitRow.phase]
    rfl
  · rfl

theorem bits_toggleX (formed : R.WellFormed n) (q : Fin n)
    : (R.toggleX q).bits n = (R.bits n).toggleX q := by
  rw [toggleX_eq_masked, bits_masked formed q (signExtended_pt (column_mod_lt q)) signExtended_zero,
    hasBit_zero, hasBit_pt (column_mod_lt q) (column_mod_lt q), decide_eq_true rfl, Bool.xor_false,
    Bool.xor_true]
  ext1
  · rfl
  · exact Function.update_eq_self q (R.bits n).z
  · rfl

theorem bits_toggleZ (formed : R.WellFormed n) (q : Fin n)
    : (R.toggleZ q).bits n = (R.bits n).toggleZ q := by
  rw [toggleZ_eq_masked, bits_masked formed q signExtended_zero (signExtended_pt (column_mod_lt q)),
    hasBit_zero, hasBit_pt (column_mod_lt q) (column_mod_lt q), decide_eq_true rfl, Bool.xor_false,
    Bool.xor_true]
  ext1
  · exact Function.update_eq_self q (R.bits n).x
  · rfl
  · rfl

theorem bits_cnot (formed : R.WellFormed n) (c t : Fin n)
    : (R.cnot c t).bits n = (R.bits n).cnot c t := by
  have first : (if R.bitX c then R.toggleX t else R).bits n
      = if (R.bits n).x c then (R.bits n).toggleX t else R.bits n := by
    rw [apply_ite (Row.bits n), bits_toggleX formed]
    rfl
  have formedA := formed.toggleXIf t.isLt (R.bitX c)
  generalize defA : (if R.bitX c then R.toggleX t else R) = A at first formedA
  have second : (if A.bitZ t then A.toggleZ c else A).bits n
      = if (A.bits n).z t then (A.bits n).toggleZ c else A.bits n := by
    rw [apply_ite (Row.bits n), bits_toggleZ formedA]
    rfl
  generalize defB : (if A.bitZ t then A.toggleZ c else A) = B at second
  simp only [Row.cnot, BitRow.cnot, defA, defB, bits_negateIf, ← first, ← second]
  rfl

/-- A loop over the columns that adds a value for each sums the values. -/
theorem forColumns_sum (f : Fin n → Int → Int) (add : ∀ q e, f q e = e + f q 0)
    : forColumns n f 0 = ∑ q, f q 0 := by
  have fold (columns : List (Fin n)) (e : Int)
      : columns.foldl (fun e q => f q e) e = e + (columns.map (fun q => f q 0)).sum := by
    induction columns generalizing e with
    | nil => simp
    | cons q rest ih =>
        rw [List.foldl_cons, ih, add, List.map_cons, List.sum_cons, add_assoc]
  rw [forColumns, fold, zero_add, Fin.sum_univ_def]

/-- The columns of a product are those of the boolean one, and the padding adds no phase. -/
theorem bits_product {words : Nat} (formedA : A.WellFormed n) (formedB : B.WellFormed n)
    (enough : n ≤ 32 * words)
    : (A.product words B).bits n = (A.bits n).product (B.bits n) := by
  have phase : Row.productPhase words A B = BitRow.clifford (A.bits n) (B.bits n) := by
    have sum := forColumns_sum
      (fun q => cliffordColumn ((B.bits n).x q) ((B.bits n).z q) ((A.bits n).x q) ((A.bits n).z q))
      (fun q e => cliffordColumn_eq_add _ _ _ _ e)
    unfold Row.productPhase BitRow.clifford
    rw [sum_columnExponent formedA formedB enough, sum]
    rfl
  ext1
  · funext q
    exact hasBit_xor (formedA.x _) (formedB.x _) (column_mod_lt q)
  · funext q
    exact hasBit_xor (formedA.z _) (formedB.z _) (column_mod_lt q)
  · exact phase

theorem bits_observed (q : Fin n) (outcome : Bool)
    : (observed q outcome).bits n
      = ⟨fun _ => false, fun k => decide ((k : Nat) = q), if outcome then 2 else 0⟩ := by
  ext1
  · funext k
    exact observed_bitX q outcome k
  · funext k
    exact observed_bitZ q outcome k
  · rfl

end Row

-----------------------------------------------------------------------------------------
-- Representation
-----------------------------------------------------------------------------------------

/-- The first `live` rows of the packed state are well formed and have the bits and phases of the
boolean tableau. The scratch row is live only while an operation uses it.
-/
structure Represents (live : Nat) (s : ChpState) (B : BitTableau n) : Prop where
  layout : s.Layout
  qubits : s.n = n
  formed : ∀ j < live, (s.row j).WellFormed n
  bits : ∀ j < live, (s.row j).bits n = B j

/-- The computation succeeds and leaves a state that represents the boolean tableau. -/
def Produces (result : Option ChpState) (live : Nat) (B : BitTableau n) : Prop :=
  ∃ t, result = some t ∧ Represents live t B

theorem Produces.bind {result : Option ChpState} {live more : Nat} {B C : BitTableau n}
    (produces : Produces result live B) {next : ChpState → Option ChpState}
    (continues : ∀ t, Represents live t B → Produces (next t) more C)
    : Produces (result.bind next) more C := by
  obtain ⟨t, rfl, represents⟩ := produces
  exact continues t represents

section Primitives

variable {live : Nat} {s : ChpState} {B : BitTableau n} (represents : Represents live s B)
include represents

theorem Represents.words : n ≤ 32 * s.over32 := by
  rw [represents.layout.over32_eq, represents.qubits]
  omega

theorem Represents.column (q : Fin n) : (q : Nat) / 32 < s.over32 :=
  represents.layout.column_lt (by rw [represents.qubits]; exact q.isLt)

theorem Represents.wrap_double : wrap (2 * s.n) = 2 * n := by
  rw [represents.layout.wrap_eq le_rfl, represents.qubits]

/-- Scratch rows can be forgotten. -/
theorem Represents.mono {less : Nat} (fewer : less ≤ live) : Represents less s B :=
  ⟨represents.layout, represents.qubits, fun j below => represents.formed j (by omega),
    fun j below => represents.bits j (by omega)⟩

theorem Represents.bitX (d : Discipline) {j : Nat} (below : j < live) (inside : j ≤ 2 * n)
    (q : Fin n)
    : s.bitX d j q = some ((B j).x q) := by
  rw [bitX_eq represents.layout d (by rw [represents.qubits]; exact inside) (represents.column q)]
  exact congrArg some (congrFun (congrArg BitRow.x (represents.bits j below)) q)

theorem Represents.bitZ (d : Discipline) {j : Nat} (below : j < live) (inside : j ≤ 2 * n)
    (q : Fin n)
    : s.bitZ d j q = some ((B j).z q) := by
  rw [bitZ_eq represents.layout d (by rw [represents.qubits]; exact inside) (represents.column q)]
  exact congrArg some (congrFun (congrArg BitRow.z (represents.bits j below)) q)

/-- Rewriting one row of the packed state rewrites that row of the boolean tableau. -/
theorem Represents.update {result : Option ChpState} {a more : Nat} {R : Row} {C : BitRow n}
    (yields : Yields result s (Function.update s.row a R)) (formed : R.WellFormed n)
    (bits : R.bits n = C) (covered : ∀ j < more, j = a ∨ j < live) (bounded : more ≤ 2 * n + 1)
    : Produces result more (Function.update B a C) := by
  obtain ⟨t, ran, shape, rowsEq⟩ := yields
  have row (j : Nat) (below : j < more) : t.row j = Function.update s.row a R j :=
    rowsEq j (by rw [represents.qubits]; omega)
  refine ⟨t, ran, shape.layout represents.layout, shape.n.trans represents.qubits, ?_, ?_⟩
  · intro j below
    rw [row j below]
    by_cases here : j = a
    · rw [here, Function.update_self]
      exact formed
    · rw [Function.update_of_ne here]
      exact represents.formed j ((covered j below).resolve_left here)
  · intro j below
    rw [row j below]
    by_cases here : j = a
    · rw [here, Function.update_self, Function.update_self]
      exact bits
    · rw [Function.update_of_ne here, Function.update_of_ne here]
      exact represents.bits j ((covered j below).resolve_left here)

/-- Copying a live row makes its target live. -/
theorem Represents.rowcopy (d : Discipline) {dest source more : Nat} (hs : source < live)
    (hd : dest ≤ 2 * n) (inside : source ≤ 2 * n) (covered : ∀ j < more, j = dest ∨ j < live)
    (bounded : more ≤ 2 * n + 1)
    : Produces (State.rowcopy d dest source s) more (B.rowcopy dest source) := by
  have yields := rowcopy_yields represents.layout d dest source
    (by rw [represents.qubits]; exact hd) (by rw [represents.qubits]; exact inside)
  exact represents.update yields (represents.formed source hs) (represents.bits source hs) covered
    bounded

/-- Multiplying live rows. -/
theorem Represents.rowmult (d : Discipline) {a b : Nat} (ha : a < live) (hb : b < live)
    (bounded : live ≤ 2 * n + 1) (distinct : a ≠ b)
    : Produces (State.rowmult d a b s) live (B.rowmult a b) := by
  have yields := rowmult_yields represents.layout d (a := a) (b := b)
    (by rw [represents.qubits]; omega) (by rw [represents.qubits]; omega) distinct
  refine represents.update yields ((represents.formed a ha).product (represents.formed b hb) _) ?_
    (fun j below => Or.inr below) bounded
  rw [Row.bits_product (represents.formed a ha) (represents.formed b hb) represents.words,
    represents.bits a ha, represents.bits b hb]

/-- Setting a live row to `Z` on a qubit. -/
theorem Represents.rowset (d : Discipline) {row : Nat} (hr : row < live)
    (bounded : live ≤ 2 * n + 1) (q : Fin n)
    : Produces (State.rowset d row (q + n) s) live (B.rowset row (q + n)) := by
  have yields := rowset_yields represents.layout d row q (by rw [represents.qubits]; omega)
    (by rw [represents.qubits]; exact q.isLt)
  rw [represents.qubits] at yields
  refine represents.update yields (Row.observed_wellFormed q.isLt false) ?_
    (fun j below => Or.inr below) bounded
  refine (Row.bits_observed q false).trans (BitRow.ext ?_ ?_ rfl)
  · funext k
    exact (decide_eq_false (by omega)).symm
  · funext k
    exact decide_eq_decide.mpr (by omega)

/-- Setting the phase of a live row. -/
theorem Represents.setR {row : Nat} (hr : row < live) (bounded : live ≤ 2 * n + 1) {value : Int}
    (nonneg : 0 ≤ value) (below : value < 4)
    : Produces (s.setR row value) live (Function.update B row { B row with r := value }) := by
  have formed := represents.formed row hr
  refine represents.update (setR_yields represents.layout (by rw [represents.qubits]; omega) value)
    ⟨formed.x, formed.z, nonneg, below, formed.paddingX, formed.paddingZ⟩ ?_
    (fun j below => Or.inr below) bounded
  rw [← represents.bits row hr]
  rfl

theorem Represents.getR {row : Nat} (hr : row < live) (bounded : live ≤ 2 * n + 1)
    : s.getR row = some (B row).r := by
  rw [getR_eq represents.layout (by rw [represents.qubits]; omega)]
  exact congrArg (fun R => some R.r) (represents.bits row hr)

/-- Swapping rows leaves the scratch row live. -/
theorem Represents.rowswap (d : Discipline) {a b : Nat} (ha : a < 2 * n) (hb : b < 2 * n)
    (rows : 2 * n ≤ live) (bounded : live ≤ 2 * n + 1)
    : Produces (State.rowswap d a b s) (2 * n + 1) (B.rowswap a b) := by
  have whole := represents.wrap_double
  simp only [State.rowswap, whole, Option.bind_eq_bind]
  refine (represents.rowcopy d (by omega) le_rfl (by omega) (by omega) le_rfl).bind ?_
  intro t first
  refine (first.rowcopy d (by omega) (by omega) (by omega) (by omega) le_rfl).bind ?_
  intro u second
  rw [second.wrap_double]
  exact second.rowcopy d (by omega) (by omega) le_rfl (by omega) le_rfl

end Primitives

-----------------------------------------------------------------------------------------
-- Loops
-----------------------------------------------------------------------------------------

/-- A loop simulates another when its rounds do. -/
theorem forRange_simulates {σ τ : Type} (R : σ → τ → Prop) {count : Nat}
    {body : Nat → σ → Option σ} {body' : Nat → τ → τ} {s : σ} {t : τ} (start : R s t)
    (round : ∀ k < count, ∀ s t, R s t → ∃ u, body k s = some u ∧ R u (body' k t))
    : ∃ u, forRange count body s = some u ∧ R u (loop count body' t) :=
  forRange_invariant body count (fun k u => R u (loop k body' t)) start
    (fun k below s related => round k below s _ related)

/-- A loop over the columns. -/
theorem forColumns_simulates {σ τ : Type} (R : σ → τ → Prop) {body : Nat → σ → Option σ}
    {body' : Fin n → τ → τ} {s : σ} {t : τ} (start : R s t)
    (round : ∀ q : Fin n, ∀ s t, R s t → ∃ u, body q s = some u ∧ R u (body' q t))
    : ∃ u, forRange n body s = some u ∧ R u (forColumns n body' t) := by
  have loop := forRange_invariant body n
    (fun k u => R u (((List.finRange n).take k).foldl (fun t q => body' q t) t)) start
    (by
      intro k below s related
      obtain ⟨u, ran, next⟩ := round ⟨k, below⟩ s _ related
      refine ⟨u, ran, ?_⟩
      rw [List.take_succ_eq_append_getElem (by simpa using below), List.foldl_append]
      simpa using next)
  rwa [List.take_of_length_le (by simp)] at loop

/-- A search stops where the boolean one does. -/
theorem search_eq_first {condition : Nat → Option Bool} {f : Nat → Bool} {count p : Nat}
    (total : ∀ k, p ≤ k → k < p + count → condition k = some (f k))
    : search condition count p = some (first f count p) := by
  induction count generalizing p with
  | zero => rfl
  | succ count ih =>
      have here := total p le_rfl (by omega)
      have rest := ih (p := p + 1) (fun k low high => total k (by omega) (by omega))
      rw [search, first, here, Option.bind_eq_bind, Option.bind_some]
      split
      · rfl
      · exact rest

theorem first_le (f : Nat → Bool) (count p : Nat) : p ≤ first f count p := by
  induction count generalizing p with
  | zero => exact le_rfl
  | succ count ih =>
      rw [first]
      split
      · exact le_rfl
      · exact (Nat.le_succ p).trans (ih (p + 1))

-----------------------------------------------------------------------------------------
-- Gates
-----------------------------------------------------------------------------------------

section Gates

variable {s : ChpState} {B : BitTableau n} (represents : Represents (2 * n) s B) (d : Discipline)
include represents

/-- A gate whose loop body rewrites the bits of a row is the boolean gate. -/
theorem Represents.gate {body : Nat → ChpState → Option ChpState} {f : Row → Row}
    {g : BitRow n → BitRow n}
    (round
      : ∀ t (C : BitTableau n), Represents (2 * n) t C → ∀ i ≤ 2 * t.n,
          Yields (body i t) t (Function.update t.row i (f (t.row i))))
    (formed : ∀ {R : Row}, R.WellFormed n → (f R).WellFormed n)
    (bits : ∀ {R : Row}, R.WellFormed n → (f R).bits n = g (R.bits n))
    : Produces (forRange (wrap (2 * s.n)) body s) (2 * n) (B.onRows g) := by
  rw [represents.wrap_double]
  refine forRange_simulates (Represents (2 * n)) represents ?_
  intro i below t C represented
  have yields := round t C represented i (by rw [represented.qubits]; omega)
  refine represented.update yields (formed (represented.formed i below)) ?_
    (fun j inside => Or.inr inside) (by omega)
  rw [bits (represented.formed i below), represented.bits i below]

theorem Represents.hadamard (q : Fin n)
    : Produces (State.hadamard d q s) (2 * n) (B.hadamard q) :=
  represents.gate
    (fun _ _ represented _ hi => hadamardRow_yields represented.layout d hi (represented.column q))
    (fun formed => formed.hadamard q.isLt) (fun formed => Row.bits_hadamard formed q)

theorem Represents.phase (q : Fin n)
    : Produces (State.phase d q s) (2 * n) (B.phase q) :=
  represents.gate
    (fun _ _ represented _ hi => phaseRow_yields represented.layout d hi (represented.column q))
    (fun formed => formed.phase q.isLt) (fun formed => Row.bits_phase formed q)

theorem Represents.cnot (c t : Fin n)
    : Produces (State.cnot d c t s) (2 * n) (B.cnot c t) :=
  represents.gate
    (fun _ _ represented _ hi => cnotRow_yields represented.layout d hi (represented.column c)
      (represented.column t))
    (fun formed => formed.cnot c.isLt t.isLt) (fun formed => Row.bits_cnot formed c t)

end Gates

-----------------------------------------------------------------------------------------
-- Measurement
-----------------------------------------------------------------------------------------

section Measurement

variable {s : ChpState} {B : BitTableau n} (represents : Represents (2 * n) s B) (d : Discipline)
  (q : Fin n)
include represents

/-- The rows with an X bit on the qubit are multiplied by row `p`. -/
theorem Represents.absorbRows {p : Nat} (hp : p < 2 * n)
    : Produces
        (forRange (2 * n) (fun i s => do
          if i ≠ p then onlyIf (← s.bitX d i q) (State.rowmult d i p) s else some s) s)
        (2 * n)
        (loop (2 * n) (fun i B => if i ≠ p ∧ (B i).x q then B.rowmult i p else B) B) := by
  refine forRange_simulates (Represents (2 * n)) represents ?_
  intro i below t C represented
  rw [represented.bitX d below below.le q]
  by_cases here : i = p
  · simp only [here, ne_eq, not_true_eq_false, if_false, false_and]
    exact ⟨t, rfl, represented⟩
  · simp only [ne_eq, here, not_false_eq_true, if_true, true_and, Option.bind_eq_bind,
      Option.bind_some, onlyIf]
    split
    · exact represented.rowmult d below hp (by omega) here
    · exact ⟨t, rfl, represented⟩

theorem Represents.measureRandom {p : Nat} (hp : p < n) (coin : Bool)
    : ∃ t, State.measureRandom d q p coin s = some ((B.measureRandom q p coin).1, t)
        ∧ Represents (2 * n) t (B.measureRandom q p coin).2 := by
  have qubits := represents.qubits
  have wrapP : wrap (p + s.n) = p + n := by
    rw [represents.layout.wrap_eq (by omega), qubits]
  have wrapQ : wrap (q + s.n) = q + n := by
    rw [represents.layout.wrap_eq (by omega), qubits]
  have phase : 0 ≤ 2 * (if coin then (1 : Int) else 0) ∧ 2 * (if coin then (1 : Int) else 0) < 4 := by
    cases coin <;> simp
  have observed : p + n < 2 * n := by omega
  have copy : Produces (State.rowcopy d p (p + n) s) (2 * n) (B.rowcopy p (p + n)) :=
    represents.rowcopy d observed (by omega) (by omega) (fun j below => Or.inr below) (by omega)
  obtain ⟨t, ranT, copied⟩ := copy
  obtain ⟨u, ranU, observes⟩ := copied.rowset d observed (by omega) q
  obtain ⟨v, ranV, drawn⟩ := observes.setR observed (by omega) phase.1 phase.2
  obtain ⟨w, ranW, absorbed⟩ := drawn.absorbRows d q (p := p) (by omega)
  have outcome := absorbed.getR observed (by omega)
  refine ⟨w, ?_, absorbed⟩
  rw [Option.bind_eq_bind] at ranW
  simp only [State.measureRandom, wrapP, wrapQ, represents.wrap_double, ranT, ranU, ranV,
    Option.bind_eq_bind, Option.bind_some, Option.pure_def]
  rw [ranW, Option.bind_some, outcome]
  rfl

/-- The determined branch, when the destabilizer search finds a row. -/
theorem Represents.measureDetermined (found : first (fun m => (B m).x q) n 0 < n)
    : ∃ t, State.measureDetermined d q s = some ((B.measureDetermined q).1, t)
        ∧ Represents (2 * n) t (B.measureDetermined q).2 := by
  have qubits := represents.qubits
  have whole := represents.wrap_double
  have ranM : search (fun m => s.bitX d m q) s.n 0 = some (first (fun m => (B m).x q) n 0) := by
    rw [qubits]
    exact search_eq_first (fun k _ below => represents.bitX d (by omega) (by omega) q)
  generalize defM : first (fun m => (B m).x q) n 0 = m at found ranM
  have wrapM : wrap (m + s.n) = m + n := by
    rw [represents.layout.wrap_eq (by omega), qubits]
  have copy : Produces (State.rowcopy d (2 * n) (m + n) s) (2 * n + 1) (B.rowcopy (2 * n) (m + n)) :=
    represents.rowcopy d (by omega) le_rfl (by omega) (by omega) le_rfl
  obtain ⟨t, ranT, copied⟩ := copy
  have multiply : Produces
      (forRange (n - (m + 1)) (fun k s => do
        onlyIf (← s.bitX d (m + 1 + k) q)
          (State.rowmult d (2 * n) (wrap (m + 1 + k + n))) s) t)
      (2 * n + 1)
      (loop (n - (m + 1)) (fun k B =>
        if (B (m + 1 + k)).x q then B.rowmult (2 * n) (m + 1 + k + n) else B)
        (B.rowcopy (2 * n) (m + n))) := by
    refine forRange_simulates (Represents (2 * n + 1)) copied ?_
    intro k below u C represented
    have wrapK : wrap (m + 1 + k + n) = m + 1 + k + n :=
      represented.layout.wrap_eq (by rw [represented.qubits]; omega)
    rw [represented.bitX d (by omega) (by omega) q, wrapK]
    simp only [Option.bind_eq_bind, Option.bind_some, onlyIf]
    split
    · exact represented.rowmult d (by omega) (by omega) le_rfl (by omega)
    · exact ⟨u, rfl, represented⟩
  obtain ⟨u, ranU, multiplied⟩ := multiply
  have outcome := multiplied.getR (show 2 * n < 2 * n + 1 by omega) le_rfl
  rw [qubits] at whole ranM wrapM
  refine ⟨u, ?_, ?_⟩
  · simp only [State.measureDetermined, ranM, whole, wrapM, ranT, qubits, Option.bind_eq_bind,
      Option.bind_some, Option.pure_def]
    simp only [Option.bind_eq_bind] at ranU
    rw [ranU, Option.bind_some, outcome, Option.bind_some]
    simp only [BitTableau.measureDetermined, defM]
  · simp only [BitTableau.measureDetermined, defM]
    exact multiplied.mono (by omega)

omit d q in
theorem Represents.sound : Sound n s := ⟨represents.layout, represents.qubits, represents.formed⟩

/-- A measurement in a valid state. Validity is what makes the destabilizer search succeed, so that
the scratch row is overwritten before it is read.
-/
theorem Represents.measure (valid : (s.tableau n).Valid) (coins : Stream' Bool)
    : ∃ t, State.measure d q coins s
          = some ((B.measure q coins).1, t, (B.measure q coins).2.2)
        ∧ Represents (2 * n) t (B.measure q coins).2.1 := by
  have sound := represents.sound
  have qubits := represents.qubits
  have ranP : search (fun p => s.bitX d (wrap (p + s.n)) q) s.n 0
      = some (first (fun p => (B (p + n)).x q) n 0) := by
    rw [qubits]
    refine search_eq_first (fun k _ below => ?_)
    rw [represents.layout.wrap_eq (by omega)]
    exact represents.bitX d (by omega) (by omega) q
  by_cases random : first (fun p => (B (p + n)).x q) n 0 < n
  · obtain ⟨t, ran, represented⟩ := represents.measureRandom d q random coins.head
    refine ⟨t, ?_, ?_⟩
    · have inside : first (fun p => (B (p + n)).x q) n 0 < s.n := by omega
      simp only [State.measure, ranP, inside, if_true, ran, Option.bind_eq_bind, Option.bind_some,
        Option.pure_def, BitTableau.measure, random]
    · simp only [BitTableau.measure, random, if_true]
      exact represented
  · have noPivot (i : Fin n) : ((s.tableau n).stabilizer i).x q = 0 := by
      obtain ⟨p, _, ran, before, _⟩ := searchPivot_spec sound d q
      obtain rfl : first (fun p => (B (p + n)).x q) n 0 = p := by
        rw [ranP] at ran
        exact Option.some.inj ran
      exact before i (by omega)
    have found : first (fun m => (B m).x q) n 0 < n := by
      obtain ⟨m, _, ran, _⟩ := measure_determined sound valid d noPivot coins
      have same : search (fun m => s.bitX d m q) s.n 0
          = some (first (fun m => (B m).x q) n 0) := by
        rw [qubits]
        exact search_eq_first (fun k _ below => represents.bitX d (by omega) (by omega) q)
      rw [same] at ran
      rw [Option.some.inj ran]
      exact m.isLt
    obtain ⟨t, ran, represented⟩ := represents.measureDetermined d q found
    refine ⟨t, ?_, ?_⟩
    · have past : ¬first (fun p => (B (p + n)).x q) n 0 < s.n := by omega
      simp only [State.measure, ranP, past, if_false, ran, Option.bind_eq_bind, Option.bind_some,
        Option.pure_def, BitTableau.measure, random]
    · simp only [BitTableau.measure, random, if_false]
      exact represented

end Measurement

-----------------------------------------------------------------------------------------
-- Gaussian elimination
-----------------------------------------------------------------------------------------

section Elimination

variable {s : ChpState} {B : BitTableau n} (represents : Represents (2 * n) s B) (d : Discipline)
include represents

/-- One column of the elimination, for a test that reads a bit of a row. -/
theorem Represents.eliminateColumn {i : Nat} (low : n ≤ i) {bit : ChpState → Nat → Option Bool}
    {bit' : BitRow n → Bool}
    (reads
      : ∀ t (C : BitTableau n), Represents (2 * n) t C → ∀ j < 2 * n, bit t j = some (bit' (C j)))
    : ∃ t, State.eliminateColumn d bit i s = some ((B.eliminateColumn bit' i).1, t)
        ∧ Represents (2 * n) t (B.eliminateColumn bit' i).2 := by
  have qubits := represents.qubits
  have whole := represents.wrap_double
  rw [qubits] at whole
  have ranK : search (bit s) (2 * n - i) i = some (first (fun k => bit' (B k)) (2 * n - i) i) :=
    search_eq_first (fun k _ below => reads s B represents k (by omega))
  have above := first_le (fun k => bit' (B k)) (2 * n - i) i
  generalize defK : first (fun k => bit' (B k)) (2 * n - i) i = k at ranK above
  by_cases found : k < 2 * n
  · obtain ⟨t, ranT, swapped⟩ := represents.rowswap d (show i < 2 * n by omega) found le_rfl
      (by omega)
    obtain ⟨u, ranU, paired⟩ := swapped.rowswap d (show i - n < 2 * n by omega)
      (show k - n < 2 * n by omega) (by omega) le_rfl
    have clear : Produces
        (forRange (2 * n - (i + 1)) (fun t s => do
          onlyIf (← bit s (i + 1 + t)) (fun s => do
            let s ← State.rowmult d (i + 1 + t) i s
            State.rowmult d (i - n) (i + 1 + t - n) s) s) u)
        (2 * n)
        (loop (2 * n - (i + 1)) (fun t B =>
          if bit' (B (i + 1 + t)) then
            (B.rowmult (i + 1 + t) i).rowmult (i - n) (i + 1 + t - n) else B)
          ((B.rowswap i k).rowswap (i - n) (k - n))) := by
      refine forRange_simulates (Represents (2 * n)) (paired.mono (by omega)) ?_
      intro r below v C represented
      rw [reads v C represented (i + 1 + r) (by omega)]
      simp only [Option.bind_eq_bind, Option.bind_some, onlyIf]
      split
      · refine (represented.rowmult d (by omega) (by omega) (by omega) (by omega)).bind ?_
        intro w multiplied
        exact multiplied.rowmult d (by omega) (by omega) (by omega) (by omega)
      · exact ⟨v, rfl, represented⟩
    obtain ⟨v, ranV, cleared⟩ := clear
    refine ⟨v, ?_, ?_⟩
    · simp only [Option.bind_eq_bind] at ranV
      simp only [State.eliminateColumn, qubits, whole, ranK, found, if_true, ranT, ranU, ranV,
        Option.bind_eq_bind, Option.bind_some, Option.pure_def, BitTableau.eliminateColumn, defK]
    · simp only [BitTableau.eliminateColumn, defK, found, if_true]
      exact cleared
  · refine ⟨s, ?_, ?_⟩
    · simp only [State.eliminateColumn, qubits, whole, ranK, found, if_false,
        Option.bind_eq_bind, Option.bind_some, Option.pure_def, BitTableau.eliminateColumn, defK]
    · simp only [BitTableau.eliminateColumn, defK, found, if_false]
      exact represents

end Elimination

/-- The next row of the elimination does not go back. -/
theorem BitTableau.eliminateColumn_le (bit : BitRow n → Bool) (i : Nat) (B : BitTableau n)
    : i ≤ (B.eliminateColumn bit i).1 := by
  simp only [BitTableau.eliminateColumn]
  split
  · exact Nat.le_succ i
  · exact le_rfl

/-- The whole elimination, with the same number of rows in the X part. -/
theorem Represents.gaussian {s : ChpState} {B : BitTableau n} (represents : Represents (2 * n) s B)
    (d : Discipline)
    : ∃ t, State.gaussian d s = some (B.gaussian.1, t)
        ∧ Represents (2 * n) t B.gaussian.2 := by
  -- The state of the loops: the next row agrees, is a stabilizer row, and the tableaux agree.
  let related (p : Nat × ChpState) (p' : Nat × BitTableau n) : Prop :=
    p.1 = p'.1 ∧ n ≤ p.1 ∧ Represents (2 * n) p.2 p'.2
  have columns (bit : Nat → ChpState → Nat → Option Bool) (bit' : Fin n → BitRow n → Bool)
      (reads : ∀ (q : Fin n) t (C : BitTableau n), Represents (2 * n) t C → ∀ j < 2 * n,
        bit q t j = some (bit' q (C j)))
      {p : Nat × ChpState} {p' : Nat × BitTableau n} (start : related p p')
      : ∃ t, forRange n (fun j p => State.eliminateColumn d (bit j) p.1 p.2) p = some t
          ∧ related t (forColumns n (fun j p => p.2.eliminateColumn (bit' j) p.1) p') := by
    refine forColumns_simulates related start ?_
    rintro q ⟨i, t⟩ ⟨i', C⟩ ⟨rfl, low, represented⟩
    obtain ⟨u, ran, next⟩ := represented.eliminateColumn d low (reads q)
    exact ⟨_, ran, rfl, low.trans (BitTableau.eliminateColumn_le _ _ _), next⟩
  obtain ⟨⟨i, t⟩, ranX, sameX, low, afterX⟩ := columns (fun j s k => s.bitX d k j) (fun q R => R.x q)
    (fun q t C represented j below => represented.bitX d below below.le q)
    (show related (n, s) (n, B) from ⟨rfl, le_rfl, represents⟩)
  obtain ⟨⟨i', u⟩, ranZ, _, _, afterZ⟩ := columns (fun j s k => s.bitZ d k j) (fun q R => R.z q)
    (fun q t C represented j below => represented.bitZ d below below.le q)
    (show related (i, t) (forColumns n (fun j p => p.2.eliminateColumn (fun R => R.x j) p.1) (n, B))
      from ⟨sameX, low, afterX⟩)
  refine ⟨u, ?_, afterZ⟩
  simp only [State.gaussian, represents.qubits, ranX, ranZ, Option.bind_eq_bind,
    Option.bind_some, Option.pure_def]
  exact congrArg (fun i => some (i - n, u)) sameX

end Sabot.State
