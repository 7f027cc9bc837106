import Sabot.State.RowMemory

/-! What the gates and row operations of the packed tableau do to its rows. Each operation is
described by a function on single rows; all other rows are unchanged.
-/

namespace Sabot.State

open ChpState

-----------------------------------------------------------------------------------------
-- Loops and row updates
-----------------------------------------------------------------------------------------

/-- The invariant rule for counting loops. -/
theorem forRange_invariant {σ : Type} (body : Nat → σ → Option σ) (count : Nat)
    (I : Nat → σ → Prop) {s : σ} (start : I 0 s)
    (round : ∀ k < count, ∀ s, I k s → ∃ t, body k s = some t ∧ I (k + 1) t)
    : ∃ t, forRange count body s = some t ∧ I count t := by
  induction count with
  | zero => exact ⟨s, rfl, start⟩
  | succ count ih =>
      obtain ⟨t, ran, holds⟩ := ih (fun k below => round k (by omega))
      obtain ⟨u, step, next⟩ := round count (by omega) t holds
      exact ⟨u, by simp [forRange, ran, step], next⟩

/-- The computation succeeds, keeps the arrays, and leaves the given rows. -/
def Yields (result : Option ChpState) (s : ChpState) (rows : Nat → Row) : Prop :=
  ∃ t, result = some t ∧ SameShape s t ∧ ∀ j ≤ 2 * s.n, t.row j = rows j

/-- Running a second computation after the first composes their effects on rows. -/
theorem Yields.bind {first : Option ChpState} {next : ChpState → Option ChpState}
    {s : ChpState} {middle rows : Nat → Row} (yields : Yields first s middle)
    (continues
      : ∀ t, SameShape s t → (∀ j ≤ 2 * s.n, t.row j = middle j) → Yields (next t) t rows)
    : Yields (first.bind next) s rows := by
  obtain ⟨t, ran, shape, rowsEq⟩ := yields
  obtain ⟨u, ranNext, shapeNext, rowsNext⟩ := continues t shape rowsEq
  refine ⟨u, by rw [ran, Option.bind_some, ranNext], shape.trans shapeNext, ?_⟩
  intro j inside
  exact rowsNext j (by rw [shape.n]; exact inside)

theorem Yields.of_eq {s : ChpState} {rows : Nat → Row} (same : ∀ j ≤ 2 * s.n, s.row j = rows j)
    : Yields (some s) s rows :=
  ⟨s, rfl, SameShape.refl s, same⟩

theorem Yields.congr {result : Option ChpState} {s : ChpState} {rows rows' : Nat → Row}
    (yields : Yields result s rows) (same : ∀ j ≤ 2 * s.n, rows j = rows' j)
    : Yields result s rows' := by
  obtain ⟨t, ran, shape, rowsEq⟩ := yields
  exact ⟨t, ran, shape, fun j inside => (rowsEq j inside).trans (same j inside)⟩

/-- A loop whose rounds rewrite one row each rewrites all of them; a round may rely on a fact
about the state that every round keeps.
-/
theorem forRange_rows {body : Nat → ChpState → Option ChpState} {s : ChpState} {count : Nat}
    (I : ChpState → Prop) (f : Nat → Row → Row) (bound : count ≤ 2 * s.n + 1)
    (start : I s)
    (round
      : ∀ i < count, ∀ t, SameShape s t → I t → t.row i = s.row i
          → ∃ u, body i t = some u ∧ I u ∧ SameShape t u
            ∧ ∀ j ≤ 2 * s.n, u.row j = if j = i then f i (s.row i) else t.row j)
    : Yields (forRange count body s) s
        (fun j => if j < count then f j (s.row j) else s.row j) := by
  have loop := forRange_invariant body count (s := s)
    (fun k t => SameShape s t ∧ I t
      ∧ ∀ j ≤ 2 * s.n, t.row j = if j < k then f j (s.row j) else s.row j)
    ⟨SameShape.refl s, start, fun j _ => by simp⟩
    (by
      rintro k below t ⟨shape, inv, rowsEq⟩
      have current : t.row k = s.row k := by
        rw [rowsEq k (by omega), if_neg (by omega)]
      obtain ⟨u, ran, invNext, shapeNext, rowsNext⟩ := round k below t shape inv current
      refine ⟨u, ran, shape.trans shapeNext, invNext, ?_⟩
      intro j inside
      rw [rowsNext j inside, rowsEq j inside]
      by_cases same : j = k
      · subst same
        simp
      · have iff : j < k + 1 ↔ j < k := by omega
        simp [same, iff])
  obtain ⟨t, ran, shape, _, rowsEq⟩ := loop
  exact ⟨t, ran, shape, rowsEq⟩

-----------------------------------------------------------------------------------------
-- Gates on one row
-----------------------------------------------------------------------------------------

namespace Row

/-- `x & pt(q)` and `z & pt(q)` for the column of a qubit. -/
def bitX (R : Row) (q : Nat) : Bool := hasBit (R.x (q / 32)) (q % 32)

def bitZ (R : Row) (q : Nat) : Bool := hasBit (R.z (q / 32)) (q % 32)

/-- Add two to the phase, modulo four. -/
def negateIf (condition : Bool) (R : Row) : Row :=
  if condition then { R with r := (R.r + 2).tmod 4 } else R

def toggleX (q : Nat) (R : Row) : Row :=
  { R with x := Function.update R.x (q / 32) (R.x (q / 32) ^^^ pt (q % 32)) }

def toggleZ (q : Nat) (R : Row) : Row :=
  { R with z := Function.update R.z (q / 32) (R.z (q / 32) ^^^ pt (q % 32)) }

def cnot (control target : Nat) (R : Row) : Row :=
  let R := if R.bitX control then R.toggleX target else R
  let R := if R.bitZ target then R.toggleZ control else R
  let same := R.bitX control && R.bitZ target && R.bitX target && R.bitZ control
  let none := R.bitX control && R.bitZ target && !R.bitX target && !R.bitZ control
  (R.negateIf same).negateIf none

def hadamard (q : Nat) (R : Row) : Row :=
  let x := R.x (q / 32)
  let z := R.z (q / 32)
  let R := {
    R with
    x := Function.update R.x (q / 32) (x ^^^ ((x ^^^ z) &&& pt (q % 32)))
    z := Function.update R.z (q / 32) (z ^^^ ((z ^^^ x) &&& pt (q % 32)))
  }
  R.negateIf (R.bitX q && R.bitZ q)

def phase (q : Nat) (R : Row) : Row :=
  let R := R.negateIf (R.bitX q && R.bitZ q)
  { R with
    z := Function.update R.z (q / 32) (R.z (q / 32) ^^^ (R.x (q / 32) &&& pt (q % 32))) }

end Row

-----------------------------------------------------------------------------------------
-- The loop bodies rewrite one row
-----------------------------------------------------------------------------------------

/-- Two computations in a row that both rewrite row `i` rewrite it once. -/
theorem Yields.bindRow {first : Option ChpState} {next : ChpState → Option ChpState}
    {s : ChpState} {i : Nat} {R R' : Row} (hi : i ≤ 2 * s.n)
    (yields : Yields first s (Function.update s.row i R))
    (continues
      : ∀ t, SameShape s t → t.row i = R → Yields (next t) t (Function.update t.row i R'))
    : Yields (first.bind next) s (Function.update s.row i R') := by
  refine yields.bind ?_
  intro t shape rowsEq
  have current : t.row i = R := by simpa using rowsEq i hi
  refine (continues t shape current).congr ?_
  intro j inside
  by_cases same : j = i
  · subst same
    simp
  · rw [Function.update_of_ne same, Function.update_of_ne same,
      rowsEq j (by rw [← shape.n]; exact inside), Function.update_of_ne same]

section Bodies

variable {s : ChpState} (layout : s.Layout) (d : Discipline) {i : Nat} (hi : i ≤ 2 * s.n)
include layout hi

theorem setX_yields {w : Nat} (hw : w < s.over32) (value : Word)
    : Yields (s.setX d i w value) s
        (Function.update s.row i { s.row i with x := Function.update (s.row i).x w value }) :=
  ⟨_, setX_eq layout d hi hw value, sameShape_putX s i w value, fun j hj => by
    rw [row_putX layout hi hw value hj, Function.update_apply]⟩

theorem setZ_yields {w : Nat} (hw : w < s.over32) (value : Word)
    : Yields (s.setZ d i w value) s
        (Function.update s.row i { s.row i with z := Function.update (s.row i).z w value }) :=
  ⟨_, setZ_eq layout d hi hw value, sameShape_putZ s i w value, fun j hj => by
    rw [row_putZ layout hi hw value hj, Function.update_apply]⟩

theorem setR_yields (value : Int)
    : Yields (s.setR i value) s (Function.update s.row i { s.row i with r := value }) :=
  ⟨_, setR_eq layout hi value, sameShape_putR s i value, fun j _ => by
    rw [row_putR, Function.update_apply]⟩

theorem bitX_eq {q : Nat} (hq : q / 32 < s.over32)
    : s.bitX d i q = some ((s.row i).bitX q) := by
  simp [ChpState.bitX, getX_eq layout d hi hq, Row.bitX]

theorem bitZ_eq {q : Nat} (hq : q / 32 < s.over32)
    : s.bitZ d i q = some ((s.row i).bitZ q) := by
  simp [ChpState.bitZ, getZ_eq layout d hi hq, Row.bitZ]

omit layout hi in
/-- Leaving a state alone yields its own rows. -/
theorem pure_yields {R : Row} (same : s.row i = R)
    : Yields (some s) s (Function.update s.row i R) :=
  Yields.of_eq (fun j _ => by rw [← same, Function.update_eq_self])

theorem negateIf_yields (condition : Bool)
    : Yields (onlyIf condition (negate i) s) s
        (Function.update s.row i ((s.row i).negateIf condition)) := by
  cases condition with
  | false => exact pure_yields rfl
  | true =>
      simp only [onlyIf, if_true, negate, getR_eq layout hi, Option.bind_eq_bind,
        Option.bind_some, Row.negateIf]
      exact setR_yields layout hi _

theorem toggleXIf_yields (condition : Bool) {q : Nat} (hq : q / 32 < s.over32)
    : Yields (onlyIf condition (toggleX d i q) s) s
        (Function.update s.row i (if condition then (s.row i).toggleX q else s.row i)) := by
  cases condition with
  | false => exact pure_yields rfl
  | true =>
      simp only [onlyIf, if_true, toggleX, getX_eq layout d hi hq, Option.bind_eq_bind,
        Option.bind_some]
      exact setX_yields layout d hi hq _

theorem toggleZIf_yields (condition : Bool) {q : Nat} (hq : q / 32 < s.over32)
    : Yields (onlyIf condition (toggleZ d i q) s) s
        (Function.update s.row i (if condition then (s.row i).toggleZ q else s.row i)) := by
  cases condition with
  | false => exact pure_yields rfl
  | true =>
      simp only [onlyIf, if_true, toggleZ, getZ_eq layout d hi hq, Option.bind_eq_bind,
        Option.bind_some]
      exact setZ_yields layout d hi hq _

theorem cnotRow_yields {control target : Nat} (hc : control / 32 < s.over32)
    (ht : target / 32 < s.over32)
    : Yields (cnotRow d control target i s) s
        (Function.update s.row i ((s.row i).cnot control target)) := by
  simp only [cnotRow, bitX_eq layout d hi hc, Option.bind_eq_bind, Option.bind_some]
  refine Yields.bindRow hi (toggleXIf_yields layout d hi _ ht) ?_
  intro t shapeT rowT
  have layoutT := shapeT.layout layout
  have hiT : i ≤ 2 * t.n := by rw [shapeT.n]; exact hi
  rw [← shapeT.over32] at hc ht
  simp only [bitZ_eq layoutT d hiT ht, Option.bind_some]
  refine Yields.bindRow hiT (toggleZIf_yields layoutT d hiT _ hc) ?_
  intro u shapeU rowU
  have layoutU := shapeU.layout layoutT
  have hiU : i ≤ 2 * u.n := by rw [shapeU.n]; exact hiT
  rw [← shapeU.over32] at hc ht
  simp only [bitX_eq layoutU d hiU hc, bitX_eq layoutU d hiU ht, bitZ_eq layoutU d hiU hc,
    bitZ_eq layoutU d hiU ht, Option.bind_some]
  refine Yields.bindRow hiU (negateIf_yields layoutU hiU _) ?_
  intro v shapeV rowV
  have hiV : i ≤ 2 * v.n := by rw [shapeV.n]; exact hiU
  have last := negateIf_yields (shapeV.layout layoutU) hiV
    ((u.row i).bitX control && (u.row i).bitZ target && !(u.row i).bitX target
      && !(u.row i).bitZ control)
  rw [rowV, rowU, rowT] at last
  rw [rowU, rowT]
  exact last

theorem hadamardRow_yields {q : Nat} (hq : q / 32 < s.over32)
    : Yields (hadamardRow d q i s) s
        (Function.update s.row i ((s.row i).hadamard q)) := by
  simp only [hadamardRow, getX_eq layout d hi hq, getZ_eq layout d hi hq, Option.bind_eq_bind,
    Option.bind_some]
  refine Yields.bindRow hi (setX_yields layout d hi hq _) ?_
  intro t shapeT rowT
  have layoutT := shapeT.layout layout
  have hiT : i ≤ 2 * t.n := by rw [shapeT.n]; exact hi
  rw [← shapeT.over32] at hq
  refine Yields.bindRow hiT (setZ_yields layoutT d hiT hq _) ?_
  intro u shapeU rowU
  have layoutU := shapeU.layout layoutT
  have hiU : i ≤ 2 * u.n := by rw [shapeU.n]; exact hiT
  rw [← shapeU.over32] at hq
  simp only [bitX_eq layoutU d hiU hq, bitZ_eq layoutU d hiU hq, Option.bind_some]
  have last := negateIf_yields layoutU hiU ((u.row i).bitX q && (u.row i).bitZ q)
  rw [rowU, rowT] at last
  rw [rowU, rowT]
  exact last

theorem phaseRow_yields {q : Nat} (hq : q / 32 < s.over32)
    : Yields (phaseRow d q i s) s (Function.update s.row i ((s.row i).phase q)) := by
  simp only [phaseRow, bitX_eq layout d hi hq, bitZ_eq layout d hi hq, Option.bind_eq_bind,
    Option.bind_some]
  refine Yields.bindRow hi (negateIf_yields layout hi _) ?_
  intro t shapeT rowT
  have layoutT := shapeT.layout layout
  have hiT : i ≤ 2 * t.n := by rw [shapeT.n]; exact hi
  rw [← shapeT.over32] at hq
  simp only [getX_eq layoutT d hiT hq, getZ_eq layoutT d hiT hq, Option.bind_some]
  have last := setZ_yields layoutT d hiT hq
    ((t.row i).z (q / 32) ^^^ ((t.row i).x (q / 32) &&& pt (q % 32)))
  rw [rowT] at last
  rw [rowT]
  exact last

end Bodies

-----------------------------------------------------------------------------------------
-- Gates rewrite every row but the scratch row
-----------------------------------------------------------------------------------------

/-- A gate's loop applies its row function to all destabilizers and stabilizers. -/
theorem gate_yields {s : ChpState} (layout : s.Layout) {body : Nat → ChpState → Option ChpState}
    {f : Row → Row}
    (round
      : ∀ t, SameShape s t → ∀ i ≤ 2 * t.n,
          Yields (body i t) t (Function.update t.row i (f (t.row i))))
    : Yields (forRange (wrap (2 * s.n)) body s) s
        (fun j => if j < 2 * s.n then f (s.row j) else s.row j) := by
  rw [layout.wrap_eq le_rfl]
  refine forRange_rows (fun _ => True) (fun _ => f) (by omega) trivial ?_
  intro i below t shape _ current
  obtain ⟨u, ran, shapeU, rowsU⟩ := round t shape i (by rw [shape.n]; omega)
  refine ⟨u, ran, trivial, shapeU, ?_⟩
  intro j inside
  rw [rowsU j (by rw [shape.n]; exact inside), Function.update_apply, current]

section Gates

variable {s : ChpState} (layout : s.Layout) (d : Discipline)
include layout

theorem cnot_yields {control target : Nat} (hc : control / 32 < s.over32)
    (ht : target / 32 < s.over32)
    : Yields (cnot d control target s) s
        (fun j => if j < 2 * s.n then (s.row j).cnot control target else s.row j) :=
  gate_yields layout (fun t shape _ hi => cnotRow_yields (shape.layout layout) d hi
    (by rw [shape.over32]; exact hc) (by rw [shape.over32]; exact ht))

theorem hadamard_yields {q : Nat} (hq : q / 32 < s.over32)
    : Yields (hadamard d q s) s
        (fun j => if j < 2 * s.n then (s.row j).hadamard q else s.row j) :=
  gate_yields layout (fun t shape _ hi => hadamardRow_yields (shape.layout layout) d hi
    (by rw [shape.over32]; exact hq))

theorem phase_yields {q : Nat} (hq : q / 32 < s.over32)
    : Yields (phase d q s) s
        (fun j => if j < 2 * s.n then (s.row j).phase q else s.row j) :=
  gate_yields layout (fun t shape _ hi => phaseRow_yields (shape.layout layout) d hi
    (by rw [shape.over32]; exact hq))

end Gates

end Sabot.State
