import Sabot.Stabilizer.PauliGroup

/-! The tableau as a deterministic machine. With the qubits in a fixed order, a measurement takes
the first pivot and multiplies the partners in order.
-/

namespace Stabilizer

variable {ι : Type*} [Fintype ι] [DecidableEq ι]

namespace Tableau

variable (order : List ι)

/-- The first stabilizer with an X bit on the qubit. -/
def pivot (T : Tableau ι) (q : ι) : Option ι := order.find? (fun i => (T.stabilizer i).x q = 1)

/-- The rows whose destabilizers have an X bit on the qubit. -/
def partners (T : Tableau ι) (q : ι) : List ι :=
  order.filter (fun i => (T.destabilizer i).x q = 1)

/-- The product of stabilizers that a determined measurement reads. -/
def readout (T : Tableau ι) (q : ι) : PauliString ι := T.product 1 (T.partners order q)

/-- One operation: the outcomes, the tableau and the coins afterwards. -/
def operate (T : Tableau ι) (coins : Stream' Bool)
    : Operation ι → List Bool × Tableau ι × Stream' Bool
  | .gate g => ([], T.map g.conjugate, coins)
  | .measure q =>
      match T.pivot order q with
      | some p => ([coins.head], T.collapse q p coins.head, coins.tail)
      | none => ([decide ((T.readout order q).phase = 2)], T, coins)

/-- How many coins an operation draws. -/
def draws (T : Tableau ι) : Operation ι → Nat
  | .gate _ => 0
  | .measure q => if (T.pivot order q).isSome then 1 else 0

/-- A whole circuit. -/
def run : List (Operation ι) → Tableau ι → Stream' Bool → List Bool × Tableau ι × Stream' Bool
  | [], T, coins => ([], T, coins)
  | op :: rest, T, coins =>
      let (outcomes, U, left) := T.operate order coins op
      let (more, V, last) := run rest U left
      (outcomes ++ more, V, last)

-----------------------------------------------------------------------------------------
-- Pivots
-----------------------------------------------------------------------------------------

variable {order} {T : Tableau ι} {q : ι}

omit [Fintype ι] [DecidableEq ι] in
theorem pivot_bit {p : ι} (found : T.pivot order q = some p) : (T.stabilizer p).x q = 1 := by
  simpa using List.find?_some found

omit [Fintype ι] [DecidableEq ι] in
theorem pivot_eq_none (complete : ∀ i, i ∈ order)
    : T.pivot order q = none ↔ ∀ i, (T.stabilizer i).x q = 0 := by
  have bits : ∀ a : ZMod 2, ¬a = 1 ↔ a = 0 := by decide
  simp [pivot, complete, bits]

omit [Fintype ι] [DecidableEq ι] in
theorem mem_partners (complete : ∀ i, i ∈ order) (i : ι)
    : i ∈ T.partners order q ↔ (T.destabilizer i).x q = 1 := by
  simp [partners, complete]

theorem operate_coins (order : List ι) (T : Tableau ι) (coins : Stream' Bool) (op : Operation ι)
    : (T.operate order coins op).2.2 = coins.drop (T.draws order op) := by
  cases op with
  | gate g => rfl
  | measure q =>
      cases found : T.pivot order q with
      | none => simp [operate, draws, found]
      | some p =>
          simp only [operate, draws, found]
          rfl

/-- The order of the factors does not matter: the stabilizers commute. -/
theorem Valid.product_perm (valid : T.Valid) (start : PauliString ι) {rows others : List ι}
    (perm : rows.Perm others)
    : T.product start rows = T.product start others := by
  have commute : RightCommutative (fun (row : PauliString ι) i => T.stabilizer i * row) := by
    refine ⟨fun row i j => ?_⟩
    rw [← mul_assoc, ← mul_assoc, PauliString.mul_comm_of_form (valid.basis.stabilizers j i)]
  exact perm.foldl_eq start

/-- Any list of the partners has the readout as its product. -/
theorem Valid.product_eq_readout (valid : T.Valid) (complete : ∀ i, i ∈ order)
    (once : order.Nodup) {m : ι} {rest : List ι} (nodup : (m :: rest).Nodup)
    (listed : ∀ i, i ∈ m :: rest ↔ (T.destabilizer i).x q = 1)
    : T.product (T.stabilizer m) rest = T.readout order q := by
  have perm : (m :: rest).Perm (T.partners order q) :=
    (List.perm_ext_iff_of_nodup nodup (once.filter _)).mpr
      (fun i => (listed i).trans (mem_partners complete i).symm)
  calc T.product (T.stabilizer m) rest = T.product (T.stabilizer m * 1) rest := by rw [mul_one]
    _ = T.readout order q := valid.product_perm 1 perm

/-- Without a pivot there are partners. -/
theorem Valid.partners_spec (valid : T.Valid) (complete : ∀ i, i ∈ order) (once : order.Nodup)
    (noPivot : ∀ i, (T.stabilizer i).x q = 0)
    : ∃ m rest, (m :: rest).Nodup ∧ (∀ i, i ∈ m :: rest ↔ (T.destabilizer i).x q = 1)
      ∧ T.product (T.stabilizer m) rest = T.readout order q := by
  obtain ⟨partner, bit⟩ := valid.exists_destabilizer noPivot
  obtain ⟨m, rest, listEq⟩ := List.exists_cons_of_ne_nil
    (List.ne_nil_of_mem ((mem_partners complete partner).mpr bit))
  have nodup : (m :: rest).Nodup := listEq ▸ once.filter _
  have listed (i : ι) : i ∈ m :: rest ↔ (T.destabilizer i).x q = 1 := by
    rw [← listEq]
    exact mem_partners complete i
  exact ⟨m, rest, nodup, listed, valid.product_eq_readout complete once nodup listed⟩

/-- The readout is plus or minus `Z` on the qubit. -/
theorem Valid.readout_eq (valid : T.Valid) (complete : ∀ i, i ∈ order) (once : order.Nodup)
    (noPivot : ∀ i, (T.stabilizer i).x q = 0)
    : T.readout order q = PauliString.signedZ q (decide ((T.readout order q).phase = 2)) := by
  obtain ⟨m, rest, nodup, listed, same⟩ := valid.partners_spec complete once noPivot
  rw [← same]
  exact valid.product_eq_signedZ noPivot nodup listed

/-- The machine takes a step of the tableau. -/
theorem operate_step (valid : T.Valid) (complete : ∀ i, i ∈ order) (once : order.Nodup)
    (coins : Stream' Bool) (op : Operation ι)
    : T.Step coins op (T.operate order coins op).1 (T.operate order coins op).2.1
        (T.operate order coins op).2.2 := by
  cases op with
  | gate g => exact .gate g
  | measure q =>
      cases found : T.pivot order q with
      | some p =>
          simp only [operate, found]
          exact .random (pivot_bit found)
      | none =>
          have noPivot := (pivot_eq_none complete).mp found
          obtain ⟨m, rest, nodup, listed, same⟩ := valid.partners_spec complete once noPivot
          simp only [operate, found, ← same]
          exact .determined noPivot nodup listed

-----------------------------------------------------------------------------------------
-- Runs
-----------------------------------------------------------------------------------------

/-- A run of the machine is a run of the circuit on any vector that the tableau stabilizes. -/
theorem run_simulates (complete : ∀ i, i ∈ order) (once : order.Nodup) (valid : T.Valid)
    {ψ : StateVector ι} (stabilizes : T.Stabilizes ψ) (circuit : List (Operation ι))
    (coins : Stream' Bool)
    : ∃ φ, Evolution circuit ψ coins (run order circuit T coins).1 φ (run order circuit T coins).2.2
      ∧ (run order circuit T coins).2.1.Stabilizes φ := by
  induction circuit generalizing T ψ coins with
  | nil => exact ⟨ψ, .done, stabilizes⟩
  | cons op rest ih =>
      have stepped := operate_step valid complete once coins op
      obtain ⟨φ, first, stabilizesM⟩ := stepped.simulates valid stabilizes
      obtain ⟨χ, second, stabilizesN⟩ := ih (stepped.valid valid) stabilizesM
        (T.operate order coins op).2.2
      exact ⟨χ, first.append second, stabilizesN⟩

end Tableau

end Stabilizer
