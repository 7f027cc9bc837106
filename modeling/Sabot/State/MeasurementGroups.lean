import Sabot.State.Simulation
import Sabot.Stabilizer.StabilizerGroup

/-! What the two branches of a measurement report and leave behind, in terms of the signed group
that the stabilizer rows generate.
-/

namespace Sabot.State

open Stabilizer ChpState

variable {n : Nat} {s : ChpState}

/-- No stabilizer row has an X bit on the qubit. -/
def Undisturbed (n : Nat) (s : ChpState) (q : Nat) : Prop :=
  ∀ j, n ≤ j → j < 2 * n → (s.row j).bitX q = false

/-- Rows and bits of the packed state are those of its tableau. -/
theorem undisturbed_iff (q : Fin n)
    : Undisturbed n s q ↔ ∀ i, ((s.tableau n).stabilizer i).x q = 0 := by
  have bitOf (i : Fin n) : ((s.tableau n).stabilizer i).x q = scalar ((s.row (i + n)).bitX q) :=
    rfl
  constructor
  · intro none i
    rw [bitOf, scalar_eq_zero]
    exact none (i + n) (by omega) (by omega)
  · intro none j low high
    have bit := none ⟨j - n, by omega⟩
    rw [bitOf, scalar_eq_zero] at bit
    rwa [show j - n + n = j by omega] at bit

-----------------------------------------------------------------------------------------
-- Determined measurements
-----------------------------------------------------------------------------------------

/-- In a reachable state, a measurement of a qubit on which no stabilizer row has an X bit finds
its pivot, leaves plus or minus `Z` on the qubit in the scratch row and nothing else, draws no
coin, and reports the only sign with which `Z` on the qubit is in the stabilizer group.
-/
theorem measure_reports_group_sign (small : n < 2 ^ 31) (reachable : Reachable n s)
    (d : Discipline) {q : Nat} (inside : q < n) (determined : Undisturbed n s q)
    (coins : Stream' Bool)
    : ∃ m < n, search (fun m => s.bitX d m q) s.n 0 = some m
      ∧ ∃ o t, measure d q coins s = some (o, t, coins)
        ∧ (∀ k, (t.row (2 * n)).bitX k = false)
        ∧ (∀ k < n, (t.row (2 * n)).bitZ k = decide (k = q))
        ∧ t.r.cell (2 * n) = (if o then 2 else 0)
        ∧ (∀ sign, PauliString.signedZ ⟨q, inside⟩ sign ∈ (s.tableau n).group ↔ sign = o)
        ∧ ∀ j < 2 * n, t.row j = s.row j := by
  obtain ⟨sound, valid, ψ, stabilizes⟩ := reachable.prepared small
  have noPivot := (undisturbed_iff ⟨q, inside⟩).mp determined
  obtain ⟨m, t, found, empty, has, ran, shape, rowsEq⟩ :=
    measure_determined sound valid d noPivot coins
  obtain ⟨formed, readout⟩ := scratchRow_readout sound valid empty has
  have signed := valid.readout_eq List.mem_finRange (List.nodup_finRange n) noPivot
  set o := decide (((s.tableau n).readout (List.finRange n) ⟨q, inside⟩).phase = 2) with outcomeDef
  set R := scratchRow s q m (n - (m + 1)) with scratchDef
  have pauli : R.toPauli n = PauliString.signedZ ⟨q, inside⟩ o := readout.trans signed
  have row (j : Nat) (below : j < 2 * n) : t.row j = s.row j := by
    rw [← sound.qubits] at below
    exact (rowsEq j below.le).trans (if_neg (by omega))
  have scratch : t.row (2 * n) = R := by
    rw [← sound.qubits]
    exact (rowsEq _ le_rfl).trans (if_pos rfl)
  have outcome : (R.r != 0) = o := by
    rw [phase_ne_zero_iff formed (by rw [pauli]; exact PauliString.signedZ_hermitian _ _), readout]
  have member : PauliString.signedZ ⟨q, inside⟩ o ∈ (s.tableau n).group := by
    rw [← signed]
    exact Tableau.product_mem_group _ (one_mem _) _
  refine ⟨m, m.isLt, found, o, t, by rw [ran, outcome], ?_, ?_, ?_, ?_, row⟩
  · intro k
    rw [scratch]
    by_cases below : k < n
    · exact (scalar_eq_zero _).mp (congrFun (congrArg PauliString.x pauli) ⟨k, below⟩)
    · exact formed.paddingX k (not_lt.mp below)
  · intro k below
    have bit := congrFun (congrArg PauliString.z pauli) ⟨k, below⟩
    simp only [Row.toPauli, PauliString.signedZ, Pi.single_apply, Fin.mk.injEq] at bit
    rw [scratch, Bool.eq_iff_iff, ← scalar_eq_one, bit, decide_eq_true_eq]
    by_cases same : k = q <;> simp [same]
  · have phase : ((R.r : Int) : ZMod 4) = if o then 2 else 0 := congrArg PauliString.phase pauli
    have cases : ∀ r : Int, 0 ≤ r → r < 4 → ∀ o : Bool, (r : ZMod 4) = (if o then 2 else 0)
        → r = if o then 2 else 0 := by
      intro r low high
      interval_cases r <;> decide
    have cell : t.r.cell (2 * n) = R.r := congrArg Row.r scratch
    rw [cell]
    exact cases R.r formed.phaseNonneg formed.phaseLt o phase
  · intro sign
    constructor
    · intro claimed
      exact PauliString.signedZ_unique stabilizes.nonzero (stabilizes.fixes claimed)
        (stabilizes.fixes member)
    · rintro rfl
      exact member

/-- Two fresh qubits, the first of which is measured. -/
theorem measure_reports_group_sign_two
    : ∃ s, Reachable 2 s ∧ Undisturbed 2 s 0
      ∧ ∃ m < 2, search (fun m => s.bitX .allocated m 0) s.n 0 = some m
      ∧ ∃ o t, measure .allocated 0 (.const true) s = some (o, t, .const true)
        ∧ (∀ k, (t.row (2 * 2)).bitX k = false)
        ∧ (∀ k < 2, (t.row (2 * 2)).bitZ k = decide (k = 0))
        ∧ t.r.cell (2 * 2) = (if o then 2 else 0)
        ∧ (∀ sign, PauliString.signedZ ⟨0, by decide⟩ sign ∈ (s.tableau 2).group ↔ sign = o)
        ∧ ∀ j < 2 * 2, t.row j = s.row j := by
  have small : 2 < 2 ^ 31 := by decide
  have granted : Granted (.const (some 0)) := fun _ _ => rfl
  obtain ⟨s, ran, _, fresh⟩ := initState_refines small .allocated (.stale 0) granted
  have determined : Undisturbed 2 s (0 : Fin 2) := by
    rw [undisturbed_iff, fresh]
    exact fun _ => rfl
  exact ⟨s, .initialised ran, determined,
    measure_reports_group_sign small (.initialised ran) .allocated (by decide) determined _⟩

-----------------------------------------------------------------------------------------
-- Random measurements
-----------------------------------------------------------------------------------------

/-- In a reachable state, a measurement of a qubit on which some stabilizer row has an X bit
returns one coin. The new stabilizer group is generated by `Z` on the qubit with the sign of the
coin and by the elements of the old group that commute with it, and the coin decides nothing but
the phase of the pivot row.
-/
theorem measure_collapses_group (small : n < 2 ^ 31) (reachable : Reachable n s)
    (d : Discipline) {q : Nat} (inside : q < n) (random : ¬Undisturbed n s q)
    : ∃ p < n, search (fun p => s.bitX d (wrap (p + s.n)) q) s.n 0 = some p
      ∧ ∀ coins, ∃ t, measure d q coins s = some (coins.head, t, coins.tail)
        ∧ (t.tableau n).group
          = Subgroup.closure (insert (PauliString.signedZ ⟨q, inside⟩ coins.head)
              {P | P ∈ (s.tableau n).group ∧ Commute P (PauliString.signedZ ⟨q, inside⟩ false)})
        ∧ ∀ others t', others.head ≠ coins.head
          → measure d q others s = some (others.head, t', others.tail)
          → (∀ j ≤ 2 * n, j ≠ p + n → t'.row j = t.row j)
            ∧ (t'.row (p + n)).x = (t.row (p + n)).x ∧ (t'.row (p + n)).z = (t.row (p + n)).z
            ∧ t'.r.cell (p + n) ≠ t.r.cell (p + n) := by
  obtain ⟨sound, valid, _⟩ := reachable.prepared small
  obtain ⟨p, high, found, before, bit⟩ := searchPivot_spec sound d ⟨q, inside⟩
  have hp : p < n := by
    by_contra past
    refine random ((undisturbed_iff ⟨q, inside⟩).mpr (fun i => before i ?_))
    omega
  have rows (coins : Stream' Bool)
      : ∃ t, measure d q coins s = some (coins.head, t, coins.tail) ∧ SameShape s t
        ∧ ∀ j ≤ 2 * s.n, t.row j = collapsedRows s q p coins.head j :=
    measure_random sound d (p := ⟨p, hp⟩) before (bit hp) coins
  refine ⟨p, hp, found, fun coins => ?_⟩
  obtain ⟨t, ran, shape, rowsEq⟩ := rows coins
  obtain ⟨_, tableauT⟩ := collapsed_refines sound shape ⟨q, inside⟩ ⟨p, hp⟩ coins.head rowsEq
  refine ⟨t, ran, by rw [tableauT]; exact valid.group_collapse (bit hp) _, ?_⟩
  intro others t' differ ran'
  obtain ⟨u, ranU, _, rowsU⟩ := rows others
  obtain rfl : u = t' := by
    rw [ran'] at ranU
    simpa using ranU.symm
  rw [sound.qubits] at rowsEq rowsU
  have pivotRow (t : ChpState) (coins : Stream' Bool)
      (rowsEq : ∀ j ≤ 2 * n, t.row j = collapsedRows s q p coins.head j)
      : t.row (p + n) = Row.observed q coins.head := by
    have off : p + n ≠ p := by omega
    rw [rowsEq (p + n) (by omega), collapsedRows, sound.qubits, if_neg off, if_pos rfl]
  have rowT := pivotRow t coins rowsEq
  have rowU := pivotRow u others rowsU
  refine ⟨?_, by rw [rowT, rowU]; rfl, by rw [rowT, rowU]; rfl, ?_⟩
  · intro j below off
    rw [rowsEq j below, rowsU j below]
    simp only [collapsedRows, sound.qubits, off, if_false]
  · have cellT : t.r.cell (p + n) = (Row.observed q coins.head).r := congrArg Row.r rowT
    have cellU : u.r.cell (p + n) = (Row.observed q others.head).r := congrArg Row.r rowU
    rw [cellT, cellU, Row.observed, Row.observed]
    revert differ
    cases coins.head <;> cases others.head <;> simp

/-- A qubit after a Hadamard gate. -/
theorem measure_collapses_group_plus
    : ∃ s, Reachable 1 s ∧ ¬Undisturbed 1 s 0
      ∧ ∃ p < 1, search (fun p => s.bitX .allocated (wrap (p + s.n)) 0) s.n 0 = some p
      ∧ ∀ coins, ∃ t, measure .allocated 0 coins s = some (coins.head, t, coins.tail)
        ∧ (t.tableau 1).group
          = Subgroup.closure (insert (PauliString.signedZ ⟨0, by decide⟩ coins.head)
              {P | P ∈ (s.tableau 1).group
                ∧ Commute P (PauliString.signedZ ⟨0, by decide⟩ false)})
        ∧ ∀ others t', others.head ≠ coins.head
          → measure .allocated 0 others s = some (others.head, t', others.tail)
          → (∀ j ≤ 2 * 1, j ≠ p + 1 → t'.row j = t.row j)
            ∧ (t'.row (p + 1)).x = (t.row (p + 1)).x ∧ (t'.row (p + 1)).z = (t.row (p + 1)).z
            ∧ t'.r.cell (p + 1) ≠ t.r.cell (p + 1) := by
  have small : 1 < 2 ^ 31 := by decide
  have granted : Granted (.const (some 0)) := fun _ _ => rfl
  obtain ⟨s, ran, sound, fresh⟩ := initState_refines small .allocated (.stale 0) granted
  obtain ⟨t, ranT, _, tableauT⟩ := hadamard_refines sound .allocated 0
  have reachable : Reachable 1 t := by
    have gate : hadamard .allocated 0 s = some t := ranT
    have stepped : step .allocated ⟨s, .empty, ⟨.const true, .const (some 0)⟩⟩
        ⟨.hadamard, .cons 0 .nil⟩
        = some (true, ⟨t, .empty, ⟨.const true, .const (some 0)⟩⟩) := by
      simp [step, gate]
    exact .stepped (.initialised ran) (ManagedContainer.empty_holds (by decide)) (by decide)
      stepped
  have random : ¬Undisturbed 1 t (0 : Fin 1) := by
    rw [undisturbed_iff, tableauT, fresh]
    intro none
    have bit := none 0
    simp [Tableau.map, Tableau.initial, PauliString.hadamard, PauliString.signedZ] at bit
  exact ⟨t, reachable, random,
    measure_collapses_group small reachable .allocated (by decide) random⟩

end Sabot.State
