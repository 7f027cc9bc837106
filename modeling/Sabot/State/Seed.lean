import Sabot.State.Elimination
import Sabot.Stabilizer.Support

/-! `seed`, which reads a basis state of the support off an eliminated tableau: the equations of the
rows without X bits are solved from the last one up.
-/

open scoped Matrix

namespace Sabot.State

open Stabilizer ChpState Echelon
open Sabot.Language (circuit)

-----------------------------------------------------------------------------------------
-- Model
-----------------------------------------------------------------------------------------

/-- `for(i = start; i >= bound; i--) body(i)` in unsigned arithmetic, for at most `fuel` tests of the
condition.
-/
def countDown {σ : Type} (bound : Nat) (body : Nat → σ → Option σ) : (fuel i : Nat) → σ → Option σ
  | 0, _, _ => none
  | fuel + 1, i, s =>
      if bound ≤ i then do countDown bound body fuel (wrap (i + (2 ^ 64 - 1))) (← body i s)
      else some s

/-- `for(j = count - 1; j >= 0; j--) body(j)` in signed arithmetic. -/
def forDown {σ : Type} : (count : Nat) → (body : Nat → σ → Option σ) → σ → Option σ
  | 0, _, s => some s
  | count + 1, body, s => do forDown count body (← body count s)

/-- Conversion of a `std::size_t` to `int`, which keeps the low 32 bits. -/
def toInt (k : Nat) : Int := (BitVec.ofNat 32 k).toInt

/-- One column of `seed` for row `i`: `min` is the last column seen with a Z bit, and the phase `f`
takes the overlap with the seed into account.
-/
def seedColumn (d : Discipline) (s : ChpState) (i j : Nat) (state : Nat × Int)
    : Option (Nat × Int) := do
  let (min, f) := state
  if ← s.bitZ d i j then
    if ← s.bitX d (wrap (2 * s.n)) j then return (j, (f + 2).tmod 4) else return (j, f)
  else return (min, f)

/-- The loop body of `seed` for row `i`. -/
def seedRow (d : Discipline) (i : Nat) (state : Nat × ChpState) : Option (Nat × ChpState) := do
  let (min, s) := state
  let f ← s.getR i
  let (min, f) ← forDown (toInt (wrap (s.n + (2 ^ 64 - 1))) + 1).toNat (seedColumn d s i) (min, f)
  if f = 2 then
    -- Make the seed consistent with the ith equation
    return (min, ← s.toggleX d (wrap (2 * s.n)) min)
  else return (min, s)

/-- Finds a Pauli operator `P` such that the basis state `P|0...0>` occurs with nonzero amplitude, and
writes `P` to the scratch row; `g` is the return value of `gaussian`.
-/
def seed (d : Discipline) (fuel g : Nat) (s : ChpState) : Option ChpState := do
  let scratch := wrap (2 * s.n)
  let s ← s.setR scratch 0
  -- Wipe the scratch space clean
  let s ← forRange s.over32 (fun w s => do (← s.setX d scratch w 0#64).setZ d scratch w 0#64) s
  let (_, s) ← countDown (wrap (s.n + g)) (seedRow d) fuel (wrap (2 * s.n + (2 ^ 64 - 1))) (0, s)
  return s

variable {n : Nat}

-----------------------------------------------------------------------------------------
-- One equation
-----------------------------------------------------------------------------------------

namespace BitRow

/-- The columns of a row from the last to the first. -/
def scan (R : BitRow n) (x : Fin n → Bool) (start : Fin n × Int) : Fin n × Int :=
  (List.finRange n).foldr
    (fun j state => if R.z j then (j, if x j then (state.2 + 2).tmod 4 else state.2) else state)
    start

/-- One equation on boolean rows. -/
def solve (R : BitRow n) (min : Fin n) (x : Fin n → Bool) : Fin n × (Fin n → Bool) :=
  let (min, f) := R.scan x (min, R.r)
  if f = 2 then (min, Function.update x min (!x min)) else (min, x)

/-- The sign of an even phase as a bit. -/
def half (f : Int) : ZMod 2 := ((f / 2 : Int) : ZMod 2)

/-- The bits of an unknown. -/
def vector (x : Fin n → Bool) : Fin n → ZMod 2 := fun q => scalar (x q)

/-- The scan ends at the first column with a Z bit. -/
theorem scan_leading {R : BitRow n} {c : Fin n} (has : R.z c = true)
    (before : ∀ j < c, R.z j = false) (x : Fin n → Bool) (start : Fin n × Int)
    : (R.scan x start).1 = c := by
  have first (columns : List (Fin n)) (sorted : columns.Pairwise (· < ·)) (member : c ∈ columns)
      : (columns.foldr (fun j state =>
          if R.z j then (j, if x j then (state.2 + 2).tmod 4 else state.2) else state) start).1
        = c := by
    induction columns with
    | nil => cases member
    | cons j rest ih =>
        obtain ⟨earlier, sorted⟩ := List.pairwise_cons.mp sorted
        rw [List.foldr_cons]
        rcases List.mem_cons.mp member with rfl | later
        · rw [if_pos has]
        · rw [before j (earlier c later)]
          exact ih sorted later
  exact first _ (List.pairwise_lt_finRange n) (List.mem_finRange c)

/-- The scan adds the overlap to the sign of the phase. -/
theorem scan_phase (R : BitRow n) (x : Fin n → Bool) {start : Fin n × Int}
    (even : start.2 = 0 ∨ start.2 = 2)
    : ((R.scan x start).2 = 0 ∨ (R.scan x start).2 = 2)
      ∧ half (R.scan x start).2 = half start.2 + R.toPauli.z ⬝ᵥ vector x := by
  have flipped (f : Int) (even : f = 0 ∨ f = 2)
      : ((f + 2).tmod 4 = 0 ∨ (f + 2).tmod 4 = 2) ∧ half ((f + 2).tmod 4) = half f + 1 := by
    rcases even with rfl | rfl <;> decide
  have fold (columns : List (Fin n))
      : let state := columns.foldr (fun j state =>
          if R.z j then (j, if x j then (state.2 + 2).tmod 4 else state.2) else state) start
        (state.2 = 0 ∨ state.2 = 2)
          ∧ half state.2
            = half start.2 + (columns.map (fun j => R.toPauli.z j * vector x j)).sum := by
    induction columns with
    | nil => exact ⟨even, by simp⟩
    | cons j rest ih =>
        obtain ⟨evenRest, halfRest⟩ := ih
        simp only [List.foldr_cons, List.map_cons, List.sum_cons]
        generalize rest.foldr _ start = state at evenRest halfRest
        cases hasZ : R.z j with
        | false =>
            have none : R.toPauli.z j = 0 := (scalar_eq_zero _).mpr hasZ
            rw [none, zero_mul, zero_add]
            exact ⟨evenRest, halfRest⟩
        | true =>
            have one : R.toPauli.z j = 1 := (scalar_eq_one _).mpr hasZ
            rw [one, one_mul]
            cases hasX : x j with
            | false =>
                have none : vector x j = 0 := (scalar_eq_zero _).mpr hasX
                rw [none, zero_add]
                exact ⟨evenRest, halfRest⟩
            | true =>
                have seen : vector x j = 1 := (scalar_eq_one _).mpr hasX
                obtain ⟨evenNext, halfNext⟩ := flipped state.2 evenRest
                rw [seen]
                refine ⟨evenNext, halfNext.trans ?_⟩
                rw [halfRest]
                ring
  have whole := fold (List.finRange n)
  rw [← Fin.sum_univ_def] at whole
  exact whole

/-- An equation with a leading Z bit is solved by adjusting the unknown of that bit. -/
theorem solve_adjusts {T : Tableau (Fin n)} {k c : Fin n} {R : BitRow n}
    (row : R.toPauli = T.stabilizer k) (leads : T.zRows.IsLeadingEntry k c)
    (even : R.r = 0 ∨ R.r = 2) (right : Fin n → ZMod 2) (sign : right k = half R.r)
    (min : Fin n) (x : Fin n → Bool)
    : vector (R.solve min x).2 = adjust T.zRows right k c (vector x) := by
  have bits : ∀ a : ZMod 2, a ≠ 0 → a = 1 := by decide
  have entry (j : Fin n) : T.zRows k j = scalar (R.z j) := by
    rw [show T.zRows k j = (T.stabilizer k).z j from rfl, ← row]
    rfl
  have pivot : T.zRows k c = 1 := bits _ leads.2
  have lowest : (R.scan x (min, R.r)).1 = c := by
    refine scan_leading ?_ (fun j before => ?_) x _
    · rw [← scalar_eq_one, ← entry, pivot]
    · rw [← scalar_eq_zero, ← entry]
      exact leads.1 j before
  obtain ⟨evenAfter, halfAfter⟩ := @scan_phase n R x (min, R.r) even
  have same : T.zRows k = R.toPauli.z := by
    rw [row]
    rfl
  have residue : right k - T.zRows k ⬝ᵥ vector x = half (R.scan x (min, R.r)).2 := by
    have subtract : ∀ a b : ZMod 2, a - b = a + b := by decide
    rw [halfAfter, sign, same, subtract]
  rw [adjust, residue, pivot, div_one, solve]
  simp only [lowest]
  rcases evenAfter with zero | two
  · rw [zero, if_neg (by decide)]
    simp [half]
  · rw [two, if_pos rfl]
    funext q
    by_cases here : q = c
    · subst here
      have toggled : ∀ b : Bool, scalar (!b) = scalar b + 1 := by decide
      simpa [vector, half] using toggled (x q)
    · simp [vector, here]

end BitRow

-----------------------------------------------------------------------------------------
-- Loops
-----------------------------------------------------------------------------------------

/-- The loop of `countDown` goes through the indices from `i` to the bound, if that is positive, and
needs one test more than these for it.
-/
theorem countDown_invariant {σ : Type} {bound : Nat} {body : Nat → σ → Option σ} (P : Nat → σ → Prop)
    (positive : 0 < bound) {i : Nat} (reaches : bound ≤ i + 1) (small : i < 2 ^ 64) {s : σ}
    (start : P (i + 1) s)
    (round : ∀ k, bound ≤ k → k ≤ i → ∀ s, P (k + 1) s → ∃ t, body k s = some t ∧ P k t)
    : ∃ t, P bound t ∧ ∀ fuel, i + 1 - bound < fuel → countDown bound body fuel i s = some t := by
  induction left : i + 1 - bound generalizing i s with
  | zero =>
      refine ⟨s, (show i + 1 = bound by omega) ▸ start, fun fuel enough => ?_⟩
      obtain ⟨fuel, rfl⟩ := Nat.exists_eq_add_of_lt enough
      rw [Nat.zero_add, countDown, if_neg (by omega)]
  | succ left ih =>
      obtain ⟨t, ran, next⟩ := round i (by omega) le_rfl s start
      have lower : wrap (i + (2 ^ 64 - 1)) = i - 1 := by
        rw [wrap]
        omega
      obtain ⟨u, done, runs⟩ := ih (i := i - 1) (s := t) (by omega) (by omega)
        ((show i - 1 + 1 = i by omega).symm ▸ next)
        (fun k low high s holds => round k low (by omega) s holds) (by omega)
      refine ⟨u, done, fun fuel enough => ?_⟩
      obtain ⟨fuel, rfl⟩ : ∃ more, fuel = more + 1 := ⟨fuel - 1, by omega⟩
      rw [countDown, if_pos (by omega), ran, Option.bind_eq_bind, Option.bind_some, lower]
      exact runs fuel (by omega)

/-- The loop of `forDown` over the columns. -/
theorem forDown_columns {σ τ : Type} (code : τ → σ) {body : Nat → σ → Option σ}
    {f : Fin n → τ → τ} (round : ∀ q : Fin n, ∀ t, body q (code t) = some (code (f q t))) (t : τ)
    : forDown n body (code t) = some (code ((List.finRange n).foldr f t)) := by
  have rounds (k : Nat) (inside : k ≤ n) (t : τ)
      : forDown k body (code t) = some (code (((List.finRange n).take k).foldr f t)) := by
    induction k generalizing t with
    | zero => rfl
    | succ k ih =>
        rw [forDown, round ⟨k, inside⟩ t, Option.bind_eq_bind, Option.bind_some, ih (by omega),
          List.take_succ_eq_append_getElem (by simpa using inside), List.foldr_append]
        simp
  have whole := rounds n le_rfl t
  rwa [List.take_of_length_le (by simp)] at whole

/-- The loop variable of the inner loop starts at the last column, for fewer than `2^31` qubits. -/
theorem columns_eq (positive : 1 ≤ n) (small : n < 2 ^ 31)
    : (toInt (wrap (n + (2 ^ 64 - 1))) + 1).toNat = n := by
  have last : wrap (n + (2 ^ 64 - 1)) = n - 1 := by
    rw [wrap]
    omega
  rw [last, toInt, BitVec.toInt_eq_toNat_of_lt (by rw [BitVec.toNat_ofNat]; omega),
    BitVec.toNat_ofNat]
  omega

-----------------------------------------------------------------------------------------
-- The packed state
-----------------------------------------------------------------------------------------

/-- A boolean tableau with a seed in its scratch row. -/
def BitTableau.withSeed (B : BitTableau n) (x : Fin n → Bool) : BitTableau n :=
  Function.update B (2 * n) ⟨x, fun _ => false, 0⟩

section Packed

variable {s : ChpState} {B : BitTableau n} {x : Fin n → Bool}

/-- The inner loop is the scan of the row. -/
theorem Represents.seedColumns (represents : Represents (2 * n + 1) s (B.withSeed x))
    (d : Discipline) {i : Nat} (below : i < 2 * n) (start : Fin n × Int)
    : forDown n (seedColumn d s i) (start.1, start.2)
      = some ((((B i).scan x start).1 : Nat), ((B i).scan x start).2) := by
  refine forDown_columns (fun state : Fin n × Int => ((state.1 : Nat), state.2)) ?_ start
  rintro q ⟨min, f⟩
  have rowI : (B.withSeed x i) = B i := Function.update_of_ne (by omega) _ _
  have scratch : (B.withSeed x (2 * n)).x = x := by
    rw [BitTableau.withSeed, Function.update_self]
  simp only [seedColumn, represents.wrap_double,
    represents.bitZ d (show i < 2 * n + 1 by omega) (by omega) q,
    represents.bitX d (show 2 * n < 2 * n + 1 by omega) le_rfl q, rowI, scratch,
    Option.bind_eq_bind, Option.bind_some]
  cases (B i).z q <;> cases x q <;> rfl

/-- Flipping a bit of the seed. -/
theorem Represents.toggleSeed (represents : Represents (2 * n + 1) s (B.withSeed x))
    (d : Discipline) (q : Fin n)
    : Produces (s.toggleX d (2 * n) q) (2 * n + 1)
        (B.withSeed (Function.update x q (!x q))) := by
  have inside : 2 * n ≤ 2 * s.n := by rw [represents.qubits]
  have yields := toggleXIf_yields represents.layout d inside true (represents.column q)
  simp only [onlyIf, if_true] at yields
  have formed := represents.formed (2 * n) (by omega)
  have flipped := represents.update yields (formed.toggleX q.isLt) (Row.bits_toggleX formed q)
    (fun j below => Or.inr below) le_rfl
  rw [represents.bits (2 * n) (by omega)] at flipped
  simpa only [BitTableau.withSeed, Function.update_self, Function.update_idem, BitRow.toggleX]
    using flipped

/-- The loop body of `seed` solves the equation of a row. -/
theorem Represents.seedRow (represents : Represents (2 * n + 1) s (B.withSeed x))
    (positive : 1 ≤ n) (small : n < 2 ^ 31) (d : Discipline) {i : Nat} (below : i < 2 * n)
    (min : Fin n)
    : ∃ t, State.seedRow d i (min, s) = some ((((B i).solve min x).1 : Nat), t)
        ∧ Represents (2 * n + 1) t (B.withSeed ((B i).solve min x).2) := by
  have phase : s.getR i = some (B i).r := by
    have rowI : B.withSeed x i = B i := Function.update_of_ne (by omega) _ _
    rw [represents.getR (show i < 2 * n + 1 by omega) le_rfl, rowI]
  have columns := represents.seedColumns d below (min, (B i).r)
  have whole := represents.wrap_double
  rw [represents.qubits] at whole
  generalize scanned : (B i).scan x (min, (B i).r) = after at columns
  simp only [State.seedRow, phase, represents.qubits, columns_eq positive small, columns, whole,
    Option.bind_eq_bind, Option.bind_some, BitRow.solve, scanned]
  split
  · obtain ⟨t, ran, represented⟩ := represents.toggleSeed d after.1
    exact ⟨t, by simp only [ran, Option.bind_some]; rfl, represented⟩
  · exact ⟨s, rfl, represents⟩

/-- The scratch row is wiped whatever it holds. -/
theorem Represents.wipe (represents : Represents (2 * n) s B) (d : Discipline)
    : Produces
        ((s.setR (2 * n) 0).bind (fun s => forRange s.over32 (fun w s => do
          (← s.setX d (2 * n) w 0#64).setZ d (2 * n) w 0#64) s))
        (2 * n + 1) (B.withSeed (fun _ => false)) := by
  have inside : 2 * n ≤ 2 * s.n := by rw [represents.qubits]
  have formed : Row.WellFormed n ⟨fun _ => 0#64, fun _ => 0#64, 0⟩ :=
    ⟨fun _ => signExtended_zero, fun _ => signExtended_zero, le_rfl, by decide,
      fun q _ => hasBit_zero _, fun q _ => hasBit_zero _⟩
  have cleared := Yields.bindRow inside (setR_yields represents.layout inside 0)
    (fun t shape row => by
      have words := clearWords_yields (shape.layout represents.layout) d (2 * n)
        (by rw [shape.n]; exact inside)
      rw [row] at words
      exact words)
  refine represents.update cleared formed ?_ (by omega) le_rfl
  ext1
  · exact funext fun q => hasBit_zero _
  · exact funext fun q => hasBit_zero _
  · rfl

/-- Once the stabilizers are in normal form, `seed` writes a solution of the equations of the rows
without X bits to the scratch row.
-/
theorem Represents.seed (represents : Represents (2 * n) s B) {g : Nat}
    (valid : B.tableau.Valid) (form : B.tableau.NormalForm g) (fits : g ≤ n) (positive : 1 ≤ n)
    (small : n < 2 ^ 31) (d : Discipline)
    : ∃ (x : Fin n → Bool) (u : ChpState), (∀ fuel, n < fuel → State.seed d fuel g s = some u)
        ∧ Represents (2 * n + 1) u (B.withSeed x)
        ∧ ∀ k : Fin n, g ≤ k → B.tableau.zRows k ⬝ᵥ BitRow.vector x = BitRow.half (B (k + n)).r := by
  have even (k : Fin n) : (B (k + n)).r = 0 ∨ (B (k + n)).r = 2 := by
    have phase := represents.sound.phase_eq (represents.tableau_eq ▸ valid)
      (show (k : Nat) + n < 2 * n by omega)
    rw [← represents.bits (k + n) (by omega)]
    exact phase
  have first : wrap (2 * n + (2 ^ 64 - 1)) = 2 * n - 1 := by
    rw [wrap]
    omega
  have last : wrap (n + g) = n + g := Nat.mod_eq_of_lt (by omega)
  have whole := represents.wrap_double
  rw [represents.qubits] at whole
  obtain ⟨t, ranWipe, wiped⟩ := represents.wipe d
  let right (k : Fin n) : ZMod 2 := BitRow.half (B (k + n)).r
  -- The rows from `i` on are solved.
  let solved (i : Nat) (state : Nat × ChpState) : Prop :=
    ∃ (min : Fin n) (x : Fin n → Bool), state.1 = min ∧ Represents (2 * n + 1) state.2 (B.withSeed x)
      ∧ ∀ k : Fin n, g ≤ k → i ≤ k + n → B.tableau.zRows k ⬝ᵥ BitRow.vector x = right k
  have start : solved (2 * n - 1 + 1) (0, t) :=
    ⟨⟨0, positive⟩, _, rfl, wiped, fun k _ past => absurd past (by omega)⟩
  obtain ⟨⟨min, u⟩, ⟨_, x, _, represented, solves⟩, runs⟩ :=
    @countDown_invariant _ (n + g) (State.seedRow d) solved (by omega) (2 * n - 1) (by omega) (by omega)
      (0, t) start (by
        rintro i low high ⟨_, v⟩ ⟨min, x, rfl, represented, solves⟩
        obtain ⟨k, rfl⟩ : ∃ k : Fin n, (k : Nat) + n = i := ⟨⟨i - n, by omega⟩, by simp; omega⟩
        obtain ⟨c, leads⟩ := form.zLeads.lead k (by omega) k.isLt
        obtain ⟨w, ran, next⟩ := represented.seedRow positive small d (i := k + n) (by omega) min
        refine ⟨(_, w), ran, _, _, rfl, next, fun l low' reached => ?_⟩
        rw [BitRow.solve_adjusts rfl leads (even k) right rfl min x]
        refine form.zLeads.adjust_solves (by omega) leads (fun r after _ => ?_)
          (Fin.le_def.mpr (by omega)) l.isLt
        have later := Fin.lt_def.mp after
        exact solves r (by omega) (by omega))
  refine ⟨x, u, fun fuel enough => ?_, represented, fun k low => solves k low (by omega)⟩
  have ran := runs fuel (by omega)
  obtain ⟨v, set, clears⟩ := Option.bind_eq_some_iff.mp ranWipe
  have qubits : t.n = n := wiped.qubits
  simp only [Option.bind_eq_bind] at clears
  simp only [State.seed, whole, represents.qubits, set, clears, qubits, first, last, ran,
    Option.bind_eq_bind, Option.bind_some, Option.pure_def]

end Packed

-----------------------------------------------------------------------------------------
-- Support
-----------------------------------------------------------------------------------------

/-- In every reachable state of `n` qubits, `gaussian` and then `seed` succeed, the loop of `seed`
with at most `n` rounds. The rows below the scratch row stay as `gaussian` left them. The scratch row
has no Z bits and no phase, and its X bits overlap with each stabilizer without X bits in the parity
that the phase of the stabilizer says, so that they are a basis state that occurs in the vector.
-/
theorem seed_occurs {s : ChpState} (positive : 1 ≤ n) (small : n < 2 ^ 31)
    (reachable : Reachable n s ∨ CallReachable n s) (d : Discipline)
    : ∃ g t u, gaussian d s = some (g, t) ∧ (∀ fuel, n < fuel → seed d fuel g t = some u)
        ∧ (∀ j < 2 * n, u.row j = t.row j)
        ∧ (∀ q, (u.row (2 * n)).bitZ q = false) ∧ u.r.cell (2 * n) = 0
        ∧ (∀ i, n + g ≤ i → i < 2 * n
          → ∑ q : Fin n, scalar ((u.row (2 * n)).bitX q) * scalar ((u.row i).bitZ q)
            = ((u.r.cell i / 2 : Int) : ZMod 2))
        ∧ ∀ ψ, (s.tableau n).Stabilizes ψ → ψ (fun q => scalar ((u.row (2 * n)).bitX q)) ≠ 0 := by
  have prepared : Sound n s ∧ (s.tableau n).Valid := by
    rcases reachable with programs | calls
    · exact ⟨(programs.prepared small).sound, (programs.prepared small).valid⟩
    · exact calls.invariant small
  obtain ⟨sound, valid⟩ := prepared
  obtain ⟨g, t, ran, soundT, validT, group, rank, form⟩ := gaussian_eliminates sound valid d
  have fits : g ≤ n := by
    rw [← rank]
    simpa using Matrix.rank_le_width (s.tableau n).xRows
  have represents := soundT.represents (B := fun j => (t.row j).bits n) (fun _ _ => rfl)
  obtain ⟨x, u, seeds, represented, solves⟩ := represents.seed
    (represents.tableau_eq ▸ validT) (represents.tableau_eq ▸ form) fits positive small d
  have scratch : (u.row (2 * n)).bits n = ⟨x, fun _ => false, 0⟩ := by
    rw [represented.bits (2 * n) (by omega), BitTableau.withSeed, Function.update_self]
  have bitX (q : Fin n) : (u.row (2 * n)).bitX q = x q := congrFun (congrArg BitRow.x scratch) q
  have rows (j : Nat) (below : j < 2 * n) : u.row j = t.row j := by
    have bits := represented.bits j (by omega)
    rw [BitTableau.withSeed, Function.update_of_ne (by omega)] at bits
    exact (represented.formed j (by omega)).ext (soundT.rows j below)
      (congrArg BitRow.toPauli bits)
  have equation (k : Fin n) (low : g ≤ k)
      : ∑ q : Fin n, scalar ((u.row (2 * n)).bitX q) * scalar ((t.row (k + n)).bitZ q)
        = ((t.r.cell (k + n) / 2 : Int) : ZMod 2) := by
    simp only [bitX]
    rw [← show _ = ((t.r.cell (k + n) / 2 : Int) : ZMod 2) from solves k low]
    exact Finset.sum_congr rfl fun q _ => mul_comm _ _
  refine ⟨g, t, u, ran, seeds, rows, ?_, congrArg BitRow.r scratch, ?_, ?_⟩
  · intro q
    by_cases inside : q < n
    · exact congrFun (congrArg BitRow.z scratch) ⟨q, inside⟩
    · exact (represented.formed (2 * n) (by omega)).paddingZ q (not_lt.mp inside)
  · intro i low high
    have index : i - n + n = i := by omega
    have solved := equation ⟨i - n, by omega⟩ (by simp only; omega)
    simp only [index] at solved
    have phase : u.r.cell i = t.r.cell i := congrArg Row.r (rows i high)
    rw [rows i high, phase]
    exact solved
  · intro ψ stabilizes
    have same : (fun q : Fin n => scalar ((u.row (2 * n)).bitX q)) = BitRow.vector x :=
      funext fun q => congrArg scalar (bitX q)
    have stabilizesT : (t.tableau n).Stabilizes ψ :=
      ⟨stabilizes.nonzero, fun i =>
        stabilizes.fixes (group ▸ (t.tableau n).stabilizer_mem_group i)⟩
    rw [same, form.occurs_iff validT stabilizesT]
    intro k low
    have phases := soundT.phase_eq validT (show (k : Nat) + n < 2 * n by omega)
    have overlap : ((t.tableau n).stabilizer k).z ⬝ᵥ BitRow.vector x = BitRow.half (t.row (k + n)).r :=
      solves k low
    have phase : ((t.tableau n).stabilizer k).phase = ((t.row (k + n)).r : ZMod 4) := rfl
    rw [PauliString.entry_eq (form.xEmpty k low), overlap, phase]
    rcases phases with zero | two
    · rw [zero]
      decide
    · rw [two]
      decide

/-- Three entangled qubits: the seed is in the support of every vector that the state stabilizes. -/
theorem seed_occurs_three
    : ∃ s g t u, s.tableau 3 = (Tableau.run (List.finRange 3) (circuit 3 catCircuit)
            Tableau.initial (.const true)).2.1
        ∧ gaussian .allocated s = some (g, t) ∧ seed .allocated 4 g t = some u
        ∧ ∀ ψ, (s.tableau 3).Stabilizes ψ
          → ψ (fun q : Fin 3 => scalar ((u.row (2 * 3)).bitX q)) ≠ 0 := by
  obtain ⟨s, reachable, ran⟩ := exists_cat
  obtain ⟨g, t, u, eliminates, seeds, _, _, _, _, occurs⟩ :=
    seed_occurs (n := 3) (by decide) (by decide) (Or.inl reachable) .allocated
  exact ⟨s, g, t, u, ran, eliminates, seeds 4 (by decide), occurs⟩

end Sabot.State
