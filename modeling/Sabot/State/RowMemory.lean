import Sabot.State.ChpState

/-! The packed tableau row by row. When the arrays have the sizes that `n` asks for, accesses
inside a row are admitted by every discipline and a write changes its own row only.
-/

namespace Sabot.State

/-- The words and the phase of one row; words past the end of the row read as zero. -/
@[ext]
structure Row where
  x : Nat → Word
  z : Nat → Word
  r : Int

namespace ChpState

/-- Row `i` of the tableau. -/
def row (s : ChpState) (i : Nat) : Row where
  x w := if w < s.over32 then s.x.read i w else 0#64
  z w := if w < s.over32 then s.z.read i w else 0#64
  r := s.r.cell i

/-- The matrix has a pointer for each row and a chunk with its own cells for each row. -/
structure Fits (m : Matrix) (n over32 : Nat) : Prop where
  rows : m.rows = 2 * n + 1
  stride : m.over32 = over32
  size : m.chunk.size = (2 * n + 1) * over32

/-- The arrays of the state are live and have the sizes that `n` asks for, and no size wraps. -/
structure Layout (s : ChpState) : Prop where
  live : s.pointers = .live
  over32_eq : s.over32 = s.n / 32 + 1
  small : (2 * s.n + 1) * s.over32 < 2 ^ 64
  x : Fits s.x s.n s.over32
  z : Fits s.z s.n s.over32
  r : s.r.size = 2 * s.n + 1

-----------------------------------------------------------------------------------------
-- Addresses
-----------------------------------------------------------------------------------------

theorem Layout.double_lt {s : ChpState} (layout : s.Layout) : 2 * s.n + 1 < 2 ^ 64 := by
  have words : 0 < s.over32 := by rw [layout.over32_eq]; omega
  calc 2 * s.n + 1 ≤ (2 * s.n + 1) * s.over32 := Nat.le_mul_of_pos_right _ words
    _ < 2 ^ 64 := layout.small

theorem Layout.wrap_eq {s : ChpState} (layout : s.Layout) {k : Nat} (inside : k ≤ 2 * s.n)
    : wrap k = k := by
  have := layout.double_lt
  exact Nat.mod_eq_of_lt (by omega)

/-- The column of a qubit lies in the row. -/
theorem Layout.column_lt {s : ChpState} (layout : s.Layout) {q : Nat} (qubit : q < s.n)
    : q / 32 < s.over32 := by
  rw [layout.over32_eq]
  omega

theorem Fits.address_eq {m : Matrix} {n over32 i : Nat} (fits : Fits m n over32)
    (small : (2 * n + 1) * over32 < 2 ^ 64) (inside : i ≤ 2 * n) (w : Nat)
    : m.address i w = i * over32 + w := by
  have below : i * over32 < 2 ^ 64 :=
    lt_of_le_of_lt (Nat.mul_le_mul_right over32 (by omega)) small
  rw [Matrix.address, fits.stride, wrap, Nat.mod_eq_of_lt below]

/-- Cells of different rows or columns have different addresses. -/
theorem address_injective {over32 i j v w : Nat} (hv : v < over32) (hw : w < over32)
    (same : i * over32 + v = j * over32 + w)
    : i = j ∧ v = w := by
  have quotient : (i * over32 + v) / over32 = (j * over32 + w) / over32 := by rw [same]
  have remainder : (i * over32 + v) % over32 = (j * over32 + w) % over32 := by rw [same]
  have positive : 0 < over32 := by omega
  rw [mul_comm i, mul_comm j, Nat.mul_add_div positive, Nat.mul_add_div positive,
    Nat.div_eq_of_lt hv, Nat.div_eq_of_lt hw] at quotient
  rw [mul_comm i, mul_comm j, Nat.mul_add_mod, Nat.mul_add_mod, Nat.mod_eq_of_lt hv,
    Nat.mod_eq_of_lt hw] at remainder
  exact ⟨by simpa using quotient, remainder⟩

theorem Fits.admits {s : ChpState} {m : Matrix} (fits : Fits m s.n s.over32)
    (small : (2 * s.n + 1) * s.over32 < 2 ^ 64) (d : Discipline) {i w : Nat}
    (hi : i ≤ 2 * s.n) (hw : w < s.over32)
    : s.admits d m i w = true := by
  have inside : i * s.over32 + w < (2 * s.n + 1) * s.over32 :=
    calc i * s.over32 + w < (i + 1) * s.over32 := by rw [Nat.add_mul]; omega
      _ ≤ (2 * s.n + 1) * s.over32 := Nat.mul_le_mul_right _ (by omega)
  have rows : i < m.rows := by rw [fits.rows]; omega
  have chunk : m.address i w < m.chunk.size := by
    rw [fits.address_eq small hi, fits.size]
    exact inside
  simp [ChpState.admits, rows, chunk, hi, hw]

/-- A write is read back in its own cell and nowhere else. -/
theorem Fits.read_write {m : Matrix} {n over32 i j v w : Nat} (fits : Fits m n over32)
    (small : (2 * n + 1) * over32 < 2 ^ 64) (hi : i ≤ 2 * n) (hj : j ≤ 2 * n)
    (hv : v < over32) (hw : w < over32) (value : Word)
    : (m.write i v value).read j w = if j = i ∧ w = v then value else m.read j w := by
  have target := fits.address_eq small hi v
  have source := fits.address_eq small hj w
  have same : (m.write i v value).address j w = m.address j w := rfl
  rw [Matrix.read, Matrix.read, same]
  simp only [Matrix.write, Function.update_apply]
  rw [target, source]
  by_cases here : j = i ∧ w = v
  · rw [if_pos here, here.1, here.2, if_pos rfl]
  · rw [if_neg here, if_neg]
    intro equal
    exact here (address_injective hw hv equal)

-----------------------------------------------------------------------------------------
-- Cells
-----------------------------------------------------------------------------------------

/-- The state after a write to word `w` of row `i` of the x matrix. -/
def putX (s : ChpState) (i w : Nat) (value : Word) : ChpState :=
  { s with x := s.x.write i w value }

def putZ (s : ChpState) (i w : Nat) (value : Word) : ChpState :=
  { s with z := s.z.write i w value }

def putR (s : ChpState) (i : Nat) (value : Int) : ChpState :=
  { s with r := { s.r with cell := Function.update s.r.cell i value } }

/-- The two states have arrays of the same sizes. -/
structure SameShape (s t : ChpState) : Prop where
  n : t.n = s.n
  over32 : t.over32 = s.over32
  layout : s.Layout → t.Layout

theorem SameShape.refl (s : ChpState) : SameShape s s := ⟨rfl, rfl, id⟩

theorem SameShape.trans {s t u : ChpState} (st : SameShape s t) (tu : SameShape t u)
    : SameShape s u :=
  ⟨tu.n.trans st.n, tu.over32.trans st.over32, tu.layout ∘ st.layout⟩

theorem sameShape_putX (s : ChpState) (i w : Nat) (value : Word)
    : SameShape s (s.putX i w value) :=
  ⟨rfl, rfl, fun layout =>
    ⟨layout.live, layout.over32_eq, layout.small,
      ⟨layout.x.rows, layout.x.stride, layout.x.size⟩, layout.z, layout.r⟩⟩

theorem sameShape_putZ (s : ChpState) (i w : Nat) (value : Word)
    : SameShape s (s.putZ i w value) :=
  ⟨rfl, rfl, fun layout =>
    ⟨layout.live, layout.over32_eq, layout.small, layout.x,
      ⟨layout.z.rows, layout.z.stride, layout.z.size⟩, layout.r⟩⟩

theorem sameShape_putR (s : ChpState) (i : Nat) (value : Int) : SameShape s (s.putR i value) :=
  ⟨rfl, rfl, fun layout =>
    ⟨layout.live, layout.over32_eq, layout.small, layout.x, layout.z, layout.r⟩⟩

section Access

variable {s : ChpState} (layout : s.Layout) (d : Discipline) {i w : Nat}
include layout

theorem getX_eq (hi : i ≤ 2 * s.n) (hw : w < s.over32)
    : s.getX d i w = some ((s.row i).x w) := by
  simp [getX, layout.x.admits layout.small d hi hw, row, hw]

theorem getZ_eq (hi : i ≤ 2 * s.n) (hw : w < s.over32)
    : s.getZ d i w = some ((s.row i).z w) := by
  simp [getZ, layout.z.admits layout.small d hi hw, row, hw]

theorem getR_eq (hi : i ≤ 2 * s.n) : s.getR i = some (s.row i).r := by
  have inside : i < s.r.size := by rw [layout.r]; omega
  simp [getR, inside, row]

theorem setX_eq (hi : i ≤ 2 * s.n) (hw : w < s.over32) (value : Word)
    : s.setX d i w value = some (s.putX i w value) := by
  simp [setX, layout.x.admits layout.small d hi hw, putX]

theorem setZ_eq (hi : i ≤ 2 * s.n) (hw : w < s.over32) (value : Word)
    : s.setZ d i w value = some (s.putZ i w value) := by
  simp [setZ, layout.z.admits layout.small d hi hw, putZ]

theorem setR_eq (hi : i ≤ 2 * s.n) (value : Int)
    : s.setR i value = some (s.putR i value) := by
  have inside : i < s.r.size := by rw [layout.r]; omega
  simp [setR, inside, putR]

theorem row_putX (hi : i ≤ 2 * s.n) (hw : w < s.over32) (value : Word) {j : Nat}
    (hj : j ≤ 2 * s.n)
    : (s.putX i w value).row j
      = if j = i then { s.row i with x := Function.update (s.row i).x w value }
        else s.row j := by
  have cells (v : Nat) (hv : v < s.over32)
      : (s.x.write i w value).read j v = if j = i ∧ v = w then value else s.x.read j v :=
    layout.x.read_write layout.small hi hj hw hv value
  by_cases same : j = i
  · subst same
    rw [if_pos rfl]
    ext1
    · funext v
      by_cases hv : v < s.over32
      · simp [row, putX, hv, cells v hv, Function.update_apply]
      · have off : v ≠ w := by omega
        simp [row, putX, hv, off]
    · rfl
    · rfl
  · rw [if_neg same]
    ext1
    · funext v
      by_cases hv : v < s.over32
      · simp [row, putX, hv, cells v hv, same]
      · simp [row, putX, hv]
    · rfl
    · rfl

theorem row_putZ (hi : i ≤ 2 * s.n) (hw : w < s.over32) (value : Word) {j : Nat}
    (hj : j ≤ 2 * s.n)
    : (s.putZ i w value).row j
      = if j = i then { s.row i with z := Function.update (s.row i).z w value }
        else s.row j := by
  have cells (v : Nat) (hv : v < s.over32)
      : (s.z.write i w value).read j v = if j = i ∧ v = w then value else s.z.read j v :=
    layout.z.read_write layout.small hi hj hw hv value
  by_cases same : j = i
  · subst same
    rw [if_pos rfl]
    ext1
    · rfl
    · funext v
      by_cases hv : v < s.over32
      · simp [row, putZ, hv, cells v hv, Function.update_apply]
      · have off : v ≠ w := by omega
        simp [row, putZ, hv, off]
    · rfl
  · rw [if_neg same]
    ext1
    · rfl
    · funext v
      by_cases hv : v < s.over32
      · simp [row, putZ, hv, cells v hv, same]
      · simp [row, putZ, hv]
    · rfl

end Access

theorem row_putR (s : ChpState) (i : Nat) (value : Int) (j : Nat)
    : (s.putR i value).row j = if j = i then { s.row i with r := value } else s.row j := by
  by_cases same : j = i
  · subst same
    rw [if_pos rfl]
    ext1
    · rfl
    · rfl
    · simp [row, putR]
  · rw [if_neg same]
    ext1
    · rfl
    · rfl
    · simp [row, putR, same]

end ChpState

end Sabot.State
