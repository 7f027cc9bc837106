import Sabot.State.RowOperations

/-! Copying, setting and multiplying rows of the packed tableau, and the two branches of a
measurement as functions on its rows.
-/

namespace Sabot.State

open ChpState

-----------------------------------------------------------------------------------------
-- Loops over the words of a row
-----------------------------------------------------------------------------------------

theorem row_x_of_le (s : ChpState) (i : Nat) {w : Nat} (past : s.over32 ≤ w)
    : (s.row i).x w = 0#64 :=
  if_neg (by omega)

theorem row_z_of_le (s : ChpState) (i : Nat) {w : Nat} (past : s.over32 ≤ w)
    : (s.row i).z w = 0#64 :=
  if_neg (by omega)

/-- Row `a` with its first `k` words replaced. -/
def Row.replaceWords (R : Row) (k : Nat) (fx fz : Nat → Word) : Row where
  x w := if w < k then fx w else R.x w
  z w := if w < k then fz w else R.z w
  r := R.r

theorem Row.replaceWords_succ (R : Row) (k : Nat) (fx fz : Nat → Word)
    : R.replaceWords (k + 1) fx fz
      = { R.replaceWords k fx fz with
          x := Function.update (R.replaceWords k fx fz).x k (fx k)
          z := Function.update (R.replaceWords k fx fz).z k (fz k) } := by
  have words (f g : Nat → Word)
      : (fun w => if w < k + 1 then f w else g w)
        = Function.update (fun w => if w < k then f w else g w) k (f k) := by
    funext w
    rw [Function.update_apply]
    by_cases same : w = k
    · subst same
      simp
    · have iff : w < k + 1 ↔ w < k := by omega
      simp [same, iff]
  ext1
  · exact words fx R.x
  · exact words fz R.z
  · rfl

/-- A loop over the words of row `a` that writes one word of x and one of z in each round, from
values that the rounds before do not change.
-/
theorem forRange_words {s : ChpState} {a : Nat} (ha : a ≤ 2 * s.n)
    (body : Nat → ChpState → Option ChpState) (fx fz : Nat → Word)
    (round
      : ∀ k < s.over32, ∀ t, SameShape s t
          → (∀ j ≤ 2 * s.n, t.row j
              = if j = a then (s.row a).replaceWords k fx fz else s.row j)
          → Yields (body k t) t (Function.update t.row a {
              t.row a with
              x := Function.update (t.row a).x k (fx k)
              z := Function.update (t.row a).z k (fz k) }))
    : Yields (forRange s.over32 body s) s
        (Function.update s.row a ((s.row a).replaceWords s.over32 fx fz)) := by
  have loop := forRange_invariant body s.over32 (s := s)
    (fun k t => SameShape s t
      ∧ ∀ j ≤ 2 * s.n, t.row j
          = if j = a then (s.row a).replaceWords k fx fz else s.row j)
    ⟨SameShape.refl s, fun j _ => by
      by_cases same : j = a
      · subst same
        simp [Row.replaceWords]
      · simp [same]⟩
    (by
      rintro k below t ⟨shape, rowsEq⟩
      obtain ⟨u, ran, shapeU, rowsU⟩ := round k below t shape rowsEq
      refine ⟨u, ran, shape.trans shapeU, ?_⟩
      intro j inside
      have here := rowsEq a ha
      rw [if_pos rfl] at here
      rw [rowsU j (by rw [shape.n]; exact inside), Function.update_apply, here,
        ← Row.replaceWords_succ, rowsEq j inside]
      by_cases same : j = a <;> simp [same])
  obtain ⟨t, ran, shape, rowsEq⟩ := loop
  exact ⟨t, ran, shape, fun j inside => by rw [rowsEq j inside, Function.update_apply]⟩

/-- Replacing all words of a row by words that vanish past its end replaces the row. -/
theorem replaceWords_all (s : ChpState) (a : Nat) {fx fz : Nat → Word}
    (hx : ∀ w, s.over32 ≤ w → fx w = 0#64) (hz : ∀ w, s.over32 ≤ w → fz w = 0#64)
    : (s.row a).replaceWords s.over32 fx fz = ⟨fx, fz, (s.row a).r⟩ := by
  ext1
  · funext w
    by_cases inside : w < s.over32
    · simp [Row.replaceWords, inside]
    · simp [Row.replaceWords, inside, row_x_of_le s a (not_lt.mp inside), hx w (not_lt.mp inside)]
  · funext w
    by_cases inside : w < s.over32
    · simp [Row.replaceWords, inside]
    · simp [Row.replaceWords, inside, row_z_of_le s a (not_lt.mp inside), hz w (not_lt.mp inside)]
  · rfl

-----------------------------------------------------------------------------------------
-- Copying and setting rows
-----------------------------------------------------------------------------------------

section Rows

variable {s : ChpState} (layout : s.Layout) (d : Discipline)
include layout

/-- One round of a word loop: both words of row `a` are set. -/
theorem setWords_yields {a w : Nat} (ha : a ≤ 2 * s.n) (hw : w < s.over32)
    (xv zv : Word) (next : ChpState → Option Word)
    (value : ∀ t, SameShape s t → (∀ j ≤ 2 * s.n, (t.row j).z = (s.row j).z) → next t = some zv)
    : Yields
        ((s.setX d a w xv).bind (fun t => (next t).bind (fun v => t.setZ d a w v))) s
        (Function.update s.row a {
          s.row a with
          x := Function.update (s.row a).x w xv
          z := Function.update (s.row a).z w zv }) := by
  have first := setX_yields layout d ha hw xv
  obtain ⟨t, ran, shape, rowsEq⟩ := first
  have sameZ : ∀ j ≤ 2 * s.n, (t.row j).z = (s.row j).z := by
    intro j inside
    rw [rowsEq j inside, Function.update_apply]
    by_cases same : j = a <;> simp [same]
  have hereT : t.row a = { s.row a with x := Function.update (s.row a).x w xv } := by
    simpa using rowsEq a ha
  have second := setZ_yields (shape.layout layout) d (i := a) (w := w)
    (by rw [shape.n]; exact ha) (by rw [shape.over32]; exact hw) zv
  rw [ran, Option.bind_some, value t shape sameZ, Option.bind_some]
  obtain ⟨u, ranU, shapeU, rowsU⟩ := second
  refine ⟨u, ranU, shape.trans shapeU, ?_⟩
  intro j inside
  rw [rowsU j (by rw [shape.n]; exact inside), hereT, Function.update_apply,
    Function.update_apply]
  by_cases same : j = a
  · simp [same]
  · simp [same, rowsEq j inside]

theorem rowcopy_yields (dest source : Nat) (hd : dest ≤ 2 * s.n) (hs : source ≤ 2 * s.n)
    : Yields (rowcopy d dest source s) s
        (Function.update s.row dest (s.row source)) := by
  have words := forRange_words hd
    (fun w s => do
      let s ← s.setX d dest w (← s.getX d source w)
      s.setZ d dest w (← s.getZ d source w))
    (s.row source).x (s.row source).z
    (by
      intro k below t shape rowsEq
      have layoutT := shape.layout layout
      have hsT : source ≤ 2 * t.n := by rw [shape.n]; exact hs
      have belowT : k < t.over32 := by rw [shape.over32]; exact below
      have word : (t.row source).x k = (s.row source).x k
          ∧ (t.row source).z k = (s.row source).z k := by
        rw [rowsEq source hs]
        by_cases same : source = dest
        · subst same
          simp [Row.replaceWords]
        · simp [same]
      simp only [getX_eq layoutT d hsT belowT, Option.bind_eq_bind, Option.bind_some, word.1]
      refine setWords_yields layoutT d (by rw [shape.n]; exact hd) belowT _ _ _ ?_
      intro u shapeU sameZ
      rw [getZ_eq (shapeU.layout layoutT) d (by rw [shapeU.n]; exact hsT)
        (by rw [shapeU.over32]; exact belowT), sameZ source hsT, word.2])
  rw [replaceWords_all s dest (fun w => row_x_of_le s source) (fun w => row_z_of_le s source)]
    at words
  refine words.bind ?_
  intro t shape rowsEq
  have layoutT := shape.layout layout
  have hdT : dest ≤ 2 * t.n := by rw [shape.n]; exact hd
  have phase : (t.row source).r = (s.row source).r := by
    rw [rowsEq source hs, Function.update_apply]
    by_cases same : source = dest <;> simp [same]
  simp only [getR_eq layoutT (i := source) (by rw [shape.n]; exact hs), Option.bind_eq_bind,
    Option.bind_some, phase]
  refine (setR_yields layoutT hdT _).congr ?_
  intro j inside
  rw [shape.n] at inside
  rw [Function.update_apply, Function.update_apply, rowsEq dest hd, Function.update_self,
    rowsEq j inside, Function.update_apply]
  by_cases same : j = dest <;> simp [same]

/-- Clearing the words of a row. -/
theorem clearWords_yields (row : Nat) (hr : row ≤ 2 * s.n)
    : Yields (forRange s.over32 (fun w s => do (← s.setX d row w 0#64).setZ d row w 0#64) s) s
        (Function.update s.row row ⟨fun _ => 0#64, fun _ => 0#64, (s.row row).r⟩) := by
  have words := forRange_words hr
    (fun w s => do (← s.setX d row w 0#64).setZ d row w 0#64) (fun _ => 0#64) (fun _ => 0#64)
    (by
      intro k below t shape _
      exact setWords_yields (shape.layout layout) d (by rw [shape.n]; exact hr)
        (by rw [shape.over32]; exact below) 0#64 0#64 (fun _ => some 0#64) (fun _ _ _ => rfl))
  rwa [replaceWords_all s row (fun _ _ => rfl) (fun _ _ => rfl)] at words

/-- Setting a row to `Z` on a qubit clears it first. -/
theorem rowset_yields (row q : Nat) (hr : row ≤ 2 * s.n) (hq : q < s.n)
    : Yields (rowset d row (q + s.n) s) s
        (Function.update s.row row
          ⟨fun _ => 0#64, Function.update (fun _ => 0#64) (q / 32) (pt (q % 32)), 0⟩) := by
  refine Yields.bindRow hr (clearWords_yields layout d row hr) ?_
  intro t shapeT rowT
  have layoutT := shapeT.layout layout
  have hrT : row ≤ 2 * t.n := by rw [shapeT.n]; exact hr
  refine Yields.bindRow hrT (setR_yields layoutT hrT 0) ?_
  intro u shapeU rowU
  have shape := shapeT.trans shapeU
  have hqU : q < u.n := by rw [shape.n]; exact hq
  have column := (shape.layout layout).column_lt hqU
  have notX : ¬q + s.n < u.n := by rw [shape.n]; omega
  have observable : q + s.n - u.n = q := by rw [shape.n]; omega
  rw [if_neg notX, observable]
  have last := setZ_yields (shape.layout layout) d (i := row) (by rw [shape.n]; exact hr) column
    (pt (q % 32))
  rw [rowU, rowT] at last
  exact last

-----------------------------------------------------------------------------------------
-- Products
-----------------------------------------------------------------------------------------

end Rows

/-- The exponent of `i` that one column of a product contributes. -/
def columnExponent (A B : Row) (i j : Nat) : Int :=
  cliffordColumn (hasBit (B.x i) j) (hasBit (B.z i) j) (hasBit (A.x i) j) (hasBit (A.z i) j) 0

/-- The phase of the product of row `B` with row `A`, over `words` words. -/
def Row.productPhase (words : Nat) (A B : Row) : Int :=
  let e := ((∑ i ∈ Finset.range words, ∑ j ∈ Finset.range 32, columnExponent A B i j)
    + A.r + B.r).tmod 4
  if e ≥ 0 then e else e + 4

/-- Row `A` left-multiplied by row `B`. -/
def Row.product (words : Nat) (A B : Row) : Row where
  x w := A.x w ^^^ B.x w
  z w := A.z w ^^^ B.z w
  r := Row.productPhase words A B

/-- The six cases add to the exponent, whatever it was. -/
theorem cliffordColumn_eq_add (xb zb xa za : Bool) (e : Int)
    : cliffordColumn xb zb xa za e = e + cliffordColumn xb zb xa za 0 := by
  cases xb <;> cases zb <;> cases xa <;> cases za <;> simp [cliffordColumn] <;> rfl

/-- A loop that adds a value in each round sums the values. -/
theorem forRange_sum (f : Nat → Int) (count : Nat) (e : Int)
    : forRange count (fun k e => some (e + f k)) e
      = some (e + ∑ k ∈ Finset.range count, f k) := by
  induction count with
  | zero => simp [forRange]
  | succ count ih => simp [forRange, ih, Finset.sum_range_succ, add_assoc]

theorem forRange_congr {σ : Type} {body body' : Nat → σ → Option σ} {count : Nat} (s : σ)
    (same : ∀ k < count, ∀ s, body k s = body' k s)
    : forRange count body s = forRange count body' s := by
  induction count with
  | zero => rfl
  | succ count ih =>
      simp only [forRange]
      rw [ih (fun k below => same k (by omega))]
      congr 1
      funext t
      exact same count (by omega) t

section Products

variable {s : ChpState} (layout : s.Layout) (d : Discipline) {a b : Nat} (ha : a ≤ 2 * s.n)
  (hb : b ≤ 2 * s.n)
include layout ha hb

theorem clifford_eq
    : clifford d s a b = some (Row.productPhase s.over32 (s.row a) (s.row b)) := by
  have inner (i : Nat) (hi : i < s.over32) (e : Int)
      : forRange 32 (fun j e => do
          let xb ← s.getX d b i
          let zb ← s.getZ d b i
          let xa ← s.getX d a i
          let za ← s.getZ d a i
          return cliffordColumn (hasBit xb j) (hasBit zb j) (hasBit xa j) (hasBit za j) e) e
        = some (e + ∑ j ∈ Finset.range 32, columnExponent (s.row a) (s.row b) i j) := by
    rw [← forRange_sum]
    apply forRange_congr
    intro j _ e
    simp only [getX_eq layout d hb hi, getZ_eq layout d hb hi, getX_eq layout d ha hi,
      getZ_eq layout d ha hi, Option.bind_eq_bind, Option.bind_some, Option.pure_def,
      columnExponent]
    rw [cliffordColumn_eq_add]
  have outer := forRange_sum
    (fun i => ∑ j ∈ Finset.range 32, columnExponent (s.row a) (s.row b) i j) s.over32 0
  rw [← forRange_congr 0 (fun i hi e => inner i hi e)] at outer
  rw [clifford, outer]
  simp only [getR_eq layout ha, getR_eq layout hb, Option.bind_eq_bind, Option.bind_some,
    Option.pure_def, zero_add, Row.productPhase]

theorem rowmult_yields (distinct : a ≠ b)
    : Yields (rowmult d a b s) s
        (Function.update s.row a (Row.product s.over32 (s.row a) (s.row b))) := by
  simp only [rowmult, clifford_eq layout d ha hb, Option.bind_eq_bind, Option.bind_some]
  refine (setR_yields layout ha _).bind ?_
  intro t shape rowsEq
  have layoutT := shape.layout layout
  have haT : a ≤ 2 * t.n := by rw [shape.n]; exact ha
  have hbT : b ≤ 2 * t.n := by rw [shape.n]; exact hb
  have rowA : t.row a = { s.row a with r := Row.productPhase s.over32 (s.row a) (s.row b) } := by
    simpa using rowsEq a ha
  have rowB : t.row b = s.row b := by
    rw [rowsEq b hb, Function.update_of_ne distinct.symm]
  have words := forRange_words haT
    (fun w s => do
      let s ← s.setX d a w ((← s.getX d a w) ^^^ (← s.getX d b w))
      s.setZ d a w ((← s.getZ d a w) ^^^ (← s.getZ d b w)))
    (fun w => (t.row a).x w ^^^ (t.row b).x w) (fun w => (t.row a).z w ^^^ (t.row b).z w)
    (by
      intro k below u shapeU rowsU
      have layoutU := shapeU.layout layoutT
      have haU : a ≤ 2 * u.n := by rw [shapeU.n]; exact haT
      have hbU : b ≤ 2 * u.n := by rw [shapeU.n]; exact hbT
      have belowU : k < u.over32 := by rw [shapeU.over32]; exact below
      have wordA : (u.row a).x k = (t.row a).x k ∧ (u.row a).z k = (t.row a).z k := by
        rw [rowsU a haT, if_pos rfl]
        simp [Row.replaceWords]
      have wordB : (u.row b) = t.row b := by
        rw [rowsU b hbT, if_neg distinct.symm]
      simp only [getX_eq layoutU d haU belowU, getX_eq layoutU d hbU belowU,
        Option.bind_eq_bind, Option.bind_some, wordA.1, wordB]
      have round := setWords_yields layoutU d haU belowU
        ((t.row a).x k ^^^ (t.row b).x k) ((t.row a).z k ^^^ (t.row b).z k)
        (fun v => (v.getZ d a k).bind (fun za => (v.getZ d b k).bind
          (fun zb => some (za ^^^ zb))))
        (by
          intro v shapeV sameZ
          rw [getZ_eq (shapeV.layout layoutU) d (by rw [shapeV.n]; exact haU)
              (by rw [shapeV.over32]; exact belowU),
            getZ_eq (shapeV.layout layoutU) d (by rw [shapeV.n]; exact hbU)
              (by rw [shapeV.over32]; exact belowU), Option.bind_some, Option.bind_some,
            sameZ a haU, sameZ b hbU, wordA.2, wordB])
      simpa only [Option.bind_assoc, Option.bind_some] using round)
  rw [replaceWords_all t a
    (fun w past => by rw [row_x_of_le t a past, row_x_of_le t b past]; rfl)
    (fun w past => by rw [row_z_of_le t a past, row_z_of_le t b past]; rfl)] at words
  refine words.congr ?_
  intro j inside
  rw [shape.n] at inside
  rw [Function.update_apply, Function.update_apply, rowsEq j inside, Function.update_apply, rowA,
    rowB]
  by_cases same : j = a
  · simp [same, Row.product]
  · simp [same]

end Products

end Sabot.State
