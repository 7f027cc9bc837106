import Sabot.State.BitRefinement

/-! Every call on a reachable packed state is the same call on boolean matrices. Elimination keeps
the symplectic invariant, which measurements rely on.
-/

namespace Sabot.State

open Stabilizer ChpState

variable {n : Nat}

-----------------------------------------------------------------------------------------
-- Boolean rows as Pauli strings
-----------------------------------------------------------------------------------------

/-- The signed Pauli string of a boolean row. -/
def BitRow.toPauli (R : BitRow n) : PauliString (Fin n) where
  x q := scalar (R.x q)
  z q := scalar (R.z q)
  phase := (R.r : ZMod 4)

/-- A product of boolean rows is the product of their strings. -/
theorem BitRow.toPauli_product (A B : BitRow n)
    : (A.product B).toPauli = B.toPauli * A.toPauli := by
  have exponent := Row.forColumns_sum
    (fun q => cliffordColumn (B.x q) (B.z q) (A.x q) (A.z q))
    (fun q e => cliffordColumn_eq_add _ _ _ _ e)
  have phase : ((BitRow.clifford A B : Int) : ZMod 4)
      = ((∑ q : Fin n, cliffordColumn (B.x q) (B.z q) (A.x q) (A.z q) 0 + A.r + B.r : Int) : ZMod 4) := by
    rw [BitRow.clifford, exponent]
    exact (congrArg _ (Row.reduce_eq_emod _)).trans (ZMod.intCast_mod _ 4)
  refine PauliString.ext ?_ ?_ ?_
  · funext q
    rw [PauliString.mul_x, add_comm]
    exact scalar_xor _ _
  · funext q
    rw [PauliString.mul_z, add_comm]
    exact scalar_xor _ _
  · rw [PauliString.mul_phase]
    simp only [toPauli, product, phase, Int.cast_add, Int.cast_sum, Row.cast_cliffordColumn]
    ring

/-- The invariant rule for loops that cannot fail. -/
theorem loop_invariant {σ : Type} (P : σ → Prop) {count : Nat} {body : Nat → σ → σ} {s : σ}
    (start : P s) (round : ∀ k < count, ∀ s, P s → P (body k s))
    : P (loop count body s) := by
  induction count with
  | zero => exact start
  | succ count ih => exact round count (by omega) _ (ih (fun k below => round k (by omega)))

theorem forColumns_invariant {σ : Type} (P : σ → Prop) {body : Fin n → σ → σ} {s : σ} (start : P s)
    (round : ∀ q s, P s → P (body q s))
    : P (forColumns n body s) := by
  unfold forColumns
  induction List.finRange n generalizing s with
  | nil => exact start
  | cons q rest ih => exact ih (round q s start)

namespace BitTableau

/-- The tableau of Pauli strings that a boolean tableau stands for. -/
def tableau (B : BitTableau n) : Tableau (Fin n) where
  destabilizer i := (B i).toPauli
  stabilizer i := (B (i + n)).toPauli

/-- Rows other than the scratch row after a swap. -/
theorem rowswap_apply (B : BitTableau n) {a b j : Nat} (ha : a < 2 * n) (hb : b < 2 * n)
    (hj : j < 2 * n)
    : B.rowswap a b j = B (Equiv.swap a b j) := by
  have offA : 2 * n ≠ a := by omega
  have offB : 2 * n ≠ b := by omega
  have offJ : j ≠ 2 * n := by omega
  rw [Equiv.swap_apply_def]
  simp only [rowswap, rowcopy, Function.update_apply]
  by_cases first : j = a
  · simp [first, offB]
  · by_cases second : j = b
    · subst second
      simp [first, offA.symm]
    · simp [first, second, offJ]

/-- Swapping two stabilizer rows and the destabilizers that belong to them. -/
theorem tableau_swap (B : BitTableau n) {i k : Nat} (hi : n ≤ i) (hk : n ≤ k) (ui : i < 2 * n)
    (uk : k < 2 * n)
    : tableau ((B.rowswap i k).rowswap (i - n) (k - n))
      = B.tableau.swap ⟨i - n, by omega⟩ ⟨k - n, by omega⟩ := by
  have value (j : Fin n) : ((Equiv.swap (⟨i - n, by omega⟩ : Fin n) ⟨k - n, by omega⟩ j : Fin n) : Nat)
      = Equiv.swap (i - n) (k - n) (j : Nat) := by
    simp only [Equiv.swap_apply_def, Fin.ext_iff]
    split
    · rfl
    · split <;> rfl
  apply Tableau.ext
  · funext j
    have inside : Equiv.swap (i - n) (k - n) (j : Nat) < n := by
      rw [← value]
      exact Fin.isLt _
    have fixed : Equiv.swap i k (Equiv.swap (i - n) (k - n) (j : Nat))
        = Equiv.swap (i - n) (k - n) (j : Nat) :=
      Equiv.swap_apply_of_ne_of_ne (by omega) (by omega)
    simp only [tableau, Tableau.swap, value]
    rw [rowswap_apply _ (by omega) (by omega) (by omega), rowswap_apply _ ui uk (by omega), fixed]
  · funext j
    have fixed : Equiv.swap (i - n) (k - n) ((j : Nat) + n) = j + n :=
      Equiv.swap_apply_of_ne_of_ne (by omega) (by omega)
    have shifted : Equiv.swap i k ((j : Nat) + n) = Equiv.swap (i - n) (k - n) (j : Nat) + n := by
      simp only [Equiv.swap_apply_def]
      split_ifs <;> omega
    simp only [tableau, Tableau.swap, value]
    rw [rowswap_apply _ (by omega) (by omega) (by omega), fixed, rowswap_apply _ ui uk (by omega),
      shifted]

/-- Multiplying a stabilizer row into another one, and the destabilizers the other way round. -/
theorem tableau_addRow (B : BitTableau n) {i k : Nat} (hi : n ≤ i) (hk : n ≤ k) (ui : i < 2 * n)
    (uk : k < 2 * n)
    : tableau ((B.rowmult k i).rowmult (i - n) (k - n))
      = B.tableau.addRow ⟨k - n, by omega⟩ ⟨i - n, by omega⟩ := by
  have offI : i - n ≠ k := by omega
  have offK : k - n ≠ k := by omega
  apply Tableau.ext
  · funext j
    have offJ : (j : Nat) ≠ k := by omega
    simp only [tableau, Tableau.addRow, rowmult, Function.update_apply, Fin.ext_iff, offI, offK,
      offJ, if_false]
    split
    · exact BitRow.toPauli_product _ _
    · rfl
  · funext j
    have offJ : (j : Nat) + n ≠ i - n := by omega
    have here : (j : Nat) + n = k ↔ (j : Nat) = k - n := by omega
    have rowI : i - n + n = i := by omega
    have rowK : k - n + n = k := by omega
    simp only [tableau, Tableau.addRow, rowmult, Function.update_apply, Fin.ext_iff, offJ, if_false,
      here, rowI, rowK]
    split
    · exact BitRow.toPauli_product _ _
    · rfl

/-- One column of the elimination keeps the symplectic invariant. -/
theorem eliminateColumn_valid {B : BitTableau n} (valid : B.tableau.Valid) {i : Nat} (low : n ≤ i)
    (bit : BitRow n → Bool)
    : (B.eliminateColumn bit i).2.tableau.Valid := by
  have above := first_le (fun k => bit (B k)) (2 * n - i) i
  simp only [eliminateColumn]
  split
  · rename_i found
    refine loop_invariant (fun C : BitTableau n => C.tableau.Valid) ?_ ?_
    · rw [tableau_swap B low (low.trans above) (by omega) found]
      exact valid.swap _ _
    · intro t below C validC
      split
      · rw [tableau_addRow C low (by omega) (by omega) (by omega)]
        refine validC.addRow (Fin.ne_of_val_ne ?_)
        show i + 1 + t - n ≠ i - n
        omega
      · exact validC
  · exact valid

/-- Elimination keeps the symplectic invariant, column by column. -/
theorem gaussian_valid {B : BitTableau n} (valid : B.tableau.Valid) : B.gaussian.2.tableau.Valid := by
  have columns (bit : Fin n → BitRow n → Bool) {p : Nat × BitTableau n}
      (start : n ≤ p.1 ∧ p.2.tableau.Valid)
      : n ≤ (forColumns n (fun j p => p.2.eliminateColumn (bit j) p.1) p).1
        ∧ (forColumns n (fun j p => p.2.eliminateColumn (bit j) p.1) p).2.tableau.Valid := by
    refine forColumns_invariant (fun p : Nat × BitTableau n => n ≤ p.1 ∧ p.2.tableau.Valid) start ?_
    rintro q ⟨i, C⟩ ⟨low, validC⟩
    exact ⟨low.trans (eliminateColumn_le _ _ _), eliminateColumn_valid validC low _⟩
  have first := columns (fun j R => R.x j) (p := (n, B)) ⟨le_rfl, valid⟩
  exact (columns (fun j R => R.z j) first).2

/-- A gate's loop applies its row function to every row below `2n`. -/
theorem onRows_apply (f : BitRow n → BitRow n) (B : BitTableau n) {j : Nat} (below : j < 2 * n)
    : B.onRows f j = f (B j) := by
  have rounds (k : Nat)
      : loop k (fun i (B : BitTableau n) => Function.update B i (f (B i))) B j
        = if j < k then f (B j) else B j := by
    induction k with
    | zero => simp [loop]
    | succ k ih =>
        rw [loop, Function.update_apply]
        by_cases here : j = k
        · subst here
          rw [if_pos rfl, ih, if_neg (by omega), if_pos (by omega)]
        · have iff : j < k + 1 ↔ j < k := by omega
          rw [if_neg here, ih]
          simp only [iff]
  exact (rounds (2 * n)).trans (if_pos below)

end BitTableau

theorem Represents.tableau_eq {s : ChpState} {B : BitTableau n} (represents : Represents (2 * n) s B)
    : s.tableau n = B.tableau := by
  apply Tableau.ext
  · funext i
    exact congrArg BitRow.toPauli (represents.bits i (by omega))
  · funext i
    exact congrArg BitRow.toPauli (represents.bits (i + n) (by omega))

/-- A sound state represents any boolean tableau with the bits of its rows. -/
theorem Sound.represents {s : ChpState} (sound : Sound n s) {B : BitTableau n}
    (bits : ∀ j < 2 * n, (s.row j).bits n = B j)
    : Represents (2 * n) s B :=
  ⟨sound.layout, sound.qubits, sound.rows, bits⟩

-----------------------------------------------------------------------------------------
-- Calls
-----------------------------------------------------------------------------------------

/-- The calls on a state of `n` qubits. -/
inductive Call (n : Nat) where
  | cnot (control target : Fin n) (distinct : control ≠ target)
  | hadamard (q : Fin n)
  | phase (q : Fin n)
  | measure (q : Fin n)
  | gaussian

/-- What a call returns. -/
inductive Answer where
  | nothing
  | outcome (value : Bool)
  | generators (count : Nat)
deriving DecidableEq

namespace Call

/-- The call on the packed state. -/
def perform (d : Discipline) (coins : Stream' Bool) (s : ChpState)
    : Call n → Option (Answer × ChpState × Stream' Bool)
  | .cnot control target _ => do return (.nothing, ← State.cnot d control target s, coins)
  | .hadamard q => do return (.nothing, ← State.hadamard d q s, coins)
  | .phase q => do return (.nothing, ← State.phase d q s, coins)
  | .measure q => do
      let (outcome, s, coins) ← State.measure d q coins s
      return (.outcome outcome, s, coins)
  | .gaussian => do
      let (g, s) ← State.gaussian d s
      return (.generators g, s, coins)

/-- The call on boolean matrices. -/
def onBits (coins : Stream' Bool) (B : BitTableau n)
    : Call n → Answer × BitTableau n × Stream' Bool
  | .cnot control target _ => (.nothing, B.cnot control target, coins)
  | .hadamard q => (.nothing, B.hadamard q, coins)
  | .phase q => (.nothing, B.phase q, coins)
  | .measure q =>
      let (outcome, B, coins) := B.measure q coins
      (.outcome outcome, B, coins)
  | .gaussian =>
      let (g, B) := B.gaussian
      (.generators g, B, coins)

/-- A gate and the qubits that it names. -/
def gateOn : Call n → Option (List (Fin n))
  | .cnot control target _ => some [control, target]
  | .hadamard q | .phase q => some [q]
  | .measure _ | .gaussian => none

end Call

/-- The states that calls can lead to from a fresh state of `n` qubits. Initialisation may leave
anything in the scratch row.
-/
inductive CallReachable (n : Nat) : ChpState → Prop where
  | initialised {d pointers grants s left t}
      (success : initState d pointers n grants = some (true, s, left)) (shape : SameShape s t)
      (rows : ∀ j < 2 * n, t.row j = s.row j)
      : CallReachable n t
  | called {d coins s left t} {call : Call n} {answer : Answer} (before : CallReachable n s)
      (ran : call.perform d coins s = some (answer, t, left))
      : CallReachable n t

/-- A call on a sound and valid state is the call on boolean matrices. -/
theorem Represents.perform {s : ChpState} {B : BitTableau n} (represents : Represents (2 * n) s B)
    (valid : (s.tableau n).Valid) (d : Discipline) (call : Call n) (coins : Stream' Bool)
    : ∃ t, call.perform d coins s
          = some ((call.onBits coins B).1, t, (call.onBits coins B).2.2)
        ∧ Represents (2 * n) t (call.onBits coins B).2.1 := by
  cases call with
  | cnot control target distinct =>
      obtain ⟨t, ran, represented⟩ := represents.cnot d control target
      exact ⟨t, by simp [Call.perform, Call.onBits, ran], represented⟩
  | hadamard q =>
      obtain ⟨t, ran, represented⟩ := represents.hadamard d q
      exact ⟨t, by simp [Call.perform, Call.onBits, ran], represented⟩
  | phase q =>
      obtain ⟨t, ran, represented⟩ := represents.phase d q
      exact ⟨t, by simp [Call.perform, Call.onBits, ran], represented⟩
  | measure q =>
      obtain ⟨t, ran, represented⟩ := represents.measure d q valid coins
      exact ⟨t, by simp [Call.perform, Call.onBits, ran], represented⟩
  | gaussian =>
      obtain ⟨t, ran, represented⟩ := represents.gaussian d
      exact ⟨t, by simp [Call.perform, Call.onBits, ran], represented⟩

/-- Calls keep states sound and valid. -/
theorem Call.perform_keeps {s t : ChpState} (sound : Sound n s) (valid : (s.tableau n).Valid)
    {d : Discipline} {call : Call n} {coins left : Stream' Bool} {answer : Answer}
    (ran : call.perform d coins s = some (answer, t, left))
    : Sound n t ∧ (t.tableau n).Valid := by
  have gate {result : Option ChpState} {g : Gate (Fin n)}
      (refines : Refines n result ((s.tableau n).map g.conjugate))
      (runs : result.bind (fun u => some (Answer.nothing, u, coins)) = some (answer, t, left))
      : Sound n t ∧ (t.tableau n).Valid := by
    obtain ⟨u, rfl, soundU, tableauU⟩ := refines
    obtain ⟨_, rfl, _⟩ : .nothing = answer ∧ u = t ∧ coins = left := by simpa using runs
    rw [tableauU]
    exact ⟨soundU, valid.map g.form_conjugate g.hermitian_conjugate⟩
  cases call with
  | cnot control target distinct =>
      exact gate (g := .cnot control target distinct) (cnot_refines sound d distinct) ran
  | hadamard q => exact gate (g := .hadamard q) (hadamard_refines sound d q) ran
  | phase q => exact gate (g := .phase q) (phase_refines sound d q) ran
  | measure q =>
      obtain ⟨outcome, u, rest, ranU, soundU, operates⟩ := measure_operates sound valid d q coins
      obtain ⟨_, rfl, _⟩ : .outcome outcome = answer ∧ u = t ∧ rest = left := by
        simpa [Call.perform, ranU] using ran
      have stepped := Tableau.operate_step valid List.mem_finRange (List.nodup_finRange n) coins
        (.measure q)
      rw [operates] at stepped
      exact ⟨soundU, stepped.valid valid⟩
  | gaussian =>
      have represents := sound.represents (B := fun j => (s.row j).bits n) (fun _ _ => rfl)
      obtain ⟨u, ranU, represented⟩ := represents.gaussian d
      obtain ⟨_, rfl, _⟩ : .generators _ = answer ∧ u = t ∧ coins = left := by
        simpa [Call.perform, ranU] using ran
      rw [represents.tableau_eq] at valid
      refine ⟨represented.sound, ?_⟩
      rw [represented.tableau_eq]
      exact BitTableau.gaussian_valid valid

/-- Reachable states are sound and valid, by induction over the calls. -/
theorem CallReachable.invariant (small : n < 2 ^ 31) {s : ChpState} (reachable : CallReachable n s)
    : Sound n s ∧ (s.tableau n).Valid := by
  induction reachable with
  | @initialised d pointers grants s left t success shape rows =>
      obtain ⟨sound, fresh⟩ := initState_success (by have := cells_lt small; omega) _ _ success
      refine ⟨⟨shape.layout sound.layout, shape.n.trans sound.qubits, ?_⟩, ?_⟩
      · intro j below
        rw [rows j below]
        exact sound.rows j below
      · have same : t.tableau n = s.tableau n := by
          apply Tableau.ext
          · funext i
            exact congrArg (Row.toPauli n) (rows i (by omega))
          · funext i
            exact congrArg (Row.toPauli n) (rows (i + n) (by omega))
        rw [same, fresh]
        exact Tableau.initial_valid
  | called _ ran ih => exact Call.perform_keeps ih.1 ih.2 ran

/-- Gates on boolean matrices change the columns of their qubits only. -/
theorem Call.onBits_column {call : Call n} {named : List (Fin n)} (gate : call.gateOn = some named)
    (coins : Stream' Bool) (B : BitTableau n) {q : Fin n} (off : q ∉ named) {j : Nat}
    (below : j < 2 * n)
    : ((call.onBits coins B).2.1 j).x q = (B j).x q
      ∧ ((call.onBits coins B).2.1 j).z q = (B j).z q := by
  cases call with
  | cnot control target distinct =>
      obtain rfl : [control, target] = named := Option.some.inj gate
      obtain ⟨offC, offT⟩ : q ≠ control ∧ q ≠ target := by simpa using off
      simp only [Call.onBits, BitTableau.cnot, BitTableau.onRows_apply _ B below, BitRow.cnot,
        BitRow.negateIf_x, BitRow.negateIf_z]
      constructor
      · split <;> split <;> simp [BitRow.toggleX, BitRow.toggleZ, offT]
      · split <;> split <;> simp [BitRow.toggleX, BitRow.toggleZ, offC]
  | hadamard k =>
      obtain rfl : [k] = named := Option.some.inj gate
      have apart : q ≠ k := by simpa using off
      simp only [Call.onBits, BitTableau.hadamard, BitTableau.onRows_apply _ B below,
        BitRow.hadamard, BitRow.negateIf_x, BitRow.negateIf_z]
      exact ⟨Function.update_of_ne apart _ _, Function.update_of_ne apart _ _⟩
  | phase k =>
      obtain rfl : [k] = named := Option.some.inj gate
      have apart : q ≠ k := by simpa using off
      simp only [Call.onBits, BitTableau.phase, BitTableau.onRows_apply _ B below, BitRow.phase,
        BitRow.negateIf_x, BitRow.negateIf_z]
      exact ⟨trivial, Function.update_of_ne apart _ _⟩
  | measure k => cases gate
  | gaussian => cases gate

/-- In every state that calls can reach, the words of all rows are sign extended and their columns
past the last qubit are empty. Each call succeeds there, returns what the same algorithm returns on
boolean matrices with the bits of the rows, and leaves the bits that it leaves, whatever the scratch
rows hold; gates change the columns of their qubits only.
-/
theorem packed_implements_bits (small : n < 2 ^ 31) {s : ChpState} (reachable : CallReachable n s)
    : (∀ j < 2 * n, ∀ w < s.over32,
        SignExtended (s.x.read j w) ∧ SignExtended (s.z.read j w))
      ∧ (∀ j < 2 * n, ∀ q, n ≤ q → (s.row j).bitX q = false ∧ (s.row j).bitZ q = false)
      ∧ ∀ (d : Discipline) (call : Call n) (coins : Stream' Bool) (B : BitTableau n),
        (∀ j < 2 * n, (s.row j).bits n = B j)
        → ∃ t, call.perform d coins s
            = some ((call.onBits coins B).1, t, (call.onBits coins B).2.2)
          ∧ (∀ j < 2 * n, (t.row j).bits n = (call.onBits coins B).2.1 j)
          ∧ ∀ named, call.gateOn = some named → ∀ q : Fin n, q ∉ named → ∀ j < 2 * n,
            (t.row j).bitX q = (s.row j).bitX q ∧ (t.row j).bitZ q = (s.row j).bitZ q := by
  obtain ⟨sound, valid⟩ := reachable.invariant small
  refine ⟨?_, ?_, ?_⟩
  · intro j below w inside
    have formed := sound.rows j below
    exact ⟨by simpa [ChpState.row, inside] using formed.x w,
      by simpa [ChpState.row, inside] using formed.z w⟩
  · intro j below q past
    exact ⟨(sound.rows j below).paddingX q past, (sound.rows j below).paddingZ q past⟩
  · intro d call coins B bits
    obtain ⟨t, ran, represented⟩ := (sound.represents bits).perform valid d call coins
    refine ⟨t, ran, represented.bits, ?_⟩
    intro named gate q off j below
    have kept := call.onBits_column gate coins B off below
    rw [← represented.bits j below, ← bits j below] at kept
    exact kept

/-- A Hadamard gate on a fresh qubit. -/
theorem packed_implements_bits_one
    : ∃ s, CallReachable 1 s
      ∧ ∃ t, (Call.hadamard (0 : Fin 1)).perform .allocated (.const true) s
          = some (.nothing, t, .const true)
        ∧ ∀ j < 2 * 1, (t.row j).bits 1
          = BitTableau.hadamard 0 (fun j => (s.row j).bits 1) j := by
  have small : 1 < 2 ^ 31 := by decide
  have granted : Granted (.const (some 0)) := fun _ _ => rfl
  obtain ⟨s, ran, _⟩ := initState_refines small .allocated (.stale 0) granted
  have reachable : CallReachable 1 s := .initialised ran (SameShape.refl s) (fun _ _ => rfl)
  obtain ⟨t, performed, bits, _⟩ := (packed_implements_bits small reachable).2.2 .allocated
    (.hadamard 0) (.const true) (fun j => (s.row j).bits 1) (fun _ _ => rfl)
  exact ⟨s, reachable, t, performed, bits⟩

end Sabot.State
