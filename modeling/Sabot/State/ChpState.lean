import Sabot.State.Word

/-! The packed tableau `_chp_state` and the operations of `chp_state`, cell by cell. Every
access is checked: `none` marks an access that the chosen discipline does not admit.
-/

namespace Sabot.State

-----------------------------------------------------------------------------------------
-- Memory
-----------------------------------------------------------------------------------------

/-- Arithmetic of `std::size_t`. -/
def wrap (k : Nat) : Nat := k % 2 ^ 64

/-- An array from `new`. The empty block stands for a null pointer and for one whose array was
released, neither of which has a cell to access.
-/
structure Block (α : Type) where
  size : Nat
  cell : Nat → α

/-- The row pointers of a matrix and the chunk that they point into: the pointer of row `i` is
the address of cell `i * over32` of the chunk.
-/
structure Matrix where
  rows : Nat
  over32 : Nat
  chunk : Block Word

def Matrix.address (m : Matrix) (i w : Nat) : Nat := wrap (i * m.over32) + w

def Matrix.read (m : Matrix) (i w : Nat) : Word := m.chunk.cell (m.address i w)

def Matrix.write (m : Matrix) (i w : Nat) (value : Word) : Matrix :=
  { m with chunk := { m.chunk with cell := Function.update m.chunk.cell (m.address i w) value } }

/-- What the three pointers `x`, `z` and `r` hold: live arrays, released arrays in the first
`count` of them and null in the others, or arrays that were released a second time, which is
undefined.
-/
inductive Pointers where
  | live
  | stale (count : Nat)
  | freedTwice
deriving DecidableEq

/-- A refused allocation releases what the pointers hold, the first `renewed` of them being new. -/
def Pointers.release (renewed : Nat) : Pointers → Pointers
  | .live => .stale 3
  | .stale count => if renewed < count then .freedTwice else .stale renewed
  | .freedTwice => .freedTwice

/-- `_chp_state`: the number of qubits, the x and z bits of destabilizer, stabilizer and scratch
rows, their phases, and the number of words in a row.
-/
structure ChpState where
  n : Nat
  x : Matrix
  z : Matrix
  r : Block Int
  over32 : Nat
  pointers : Pointers

/-- The constructor of `_chp_state`: no qubits and null pointers. -/
def ChpState.fresh : ChpState where
  n := 0
  x := ⟨0, 0, 0, fun _ => 0⟩
  z := ⟨0, 0, 0, fun _ => 0⟩
  r := ⟨0, fun _ => 0⟩
  over32 := 0
  pointers := .stale 0

/-- Which accesses are let through: all those inside a live array, or only those inside the row
that the access names.
-/
inductive Discipline where
  | allocated
  | tableau
deriving DecidableEq

namespace ChpState

/-- Access to word `w` of row `i` of the x or z matrix. -/
def admits (d : Discipline) (s : ChpState) (m : Matrix) (i w : Nat) : Bool :=
  decide (i < m.rows) && decide (m.address i w < m.chunk.size)
    && (d == .allocated || (decide (i ≤ 2 * s.n) && decide (w < s.over32)))

def getX (d : Discipline) (s : ChpState) (i w : Nat) : Option Word :=
  if s.admits d s.x i w then some (s.x.read i w) else none

def getZ (d : Discipline) (s : ChpState) (i w : Nat) : Option Word :=
  if s.admits d s.z i w then some (s.z.read i w) else none

def setX (d : Discipline) (i w : Nat) (value : Word) (s : ChpState) : Option ChpState :=
  if s.admits d s.x i w then some { s with x := s.x.write i w value } else none

def setZ (d : Discipline) (i w : Nat) (value : Word) (s : ChpState) : Option ChpState :=
  if s.admits d s.z i w then some { s with z := s.z.write i w value } else none

def getR (s : ChpState) (i : Nat) : Option Int :=
  if i < s.r.size then some (s.r.cell i) else none

def setR (i : Nat) (value : Int) (s : ChpState) : Option ChpState :=
  if i < s.r.size then some { s with r := { s.r with cell := Function.update s.r.cell i value } }
  else none

/-- `state.x[i][qubit>>5]&pt(qubit&0x1F)`. -/
def bitX (d : Discipline) (s : ChpState) (i qubit : Nat) : Option Bool := do
  return hasBit (← s.getX d i (qubit / 32)) (qubit % 32)

/-- `state.z[i][qubit>>5]&pt(qubit&0x1F)`. -/
def bitZ (d : Discipline) (s : ChpState) (i qubit : Nat) : Option Bool := do
  return hasBit (← s.getZ d i (qubit / 32)) (qubit % 32)

/-- `state.r[i] = (state.r[i]+2)%4`. -/
def negate (i : Nat) (s : ChpState) : Option ChpState := do
  s.setR i (((← s.getR i) + 2).tmod 4)

/-- `state.x[i][qubit>>5] ^= pt(qubit&0x1F)`. -/
def toggleX (d : Discipline) (i qubit : Nat) (s : ChpState) : Option ChpState := do
  s.setX d i (qubit / 32) ((← s.getX d i (qubit / 32)) ^^^ pt (qubit % 32))

/-- `state.z[i][qubit>>5] ^= pt(qubit&0x1F)`. -/
def toggleZ (d : Discipline) (i qubit : Nat) (s : ChpState) : Option ChpState := do
  s.setZ d i (qubit / 32) ((← s.getZ d i (qubit / 32)) ^^^ pt (qubit % 32))

end ChpState

-----------------------------------------------------------------------------------------
-- Control flow
-----------------------------------------------------------------------------------------

/-- `if(condition) { body }`. -/
def onlyIf {σ : Type} (condition : Bool) (body : σ → Option σ) (s : σ) : Option σ :=
  if condition then body s else some s

/-- `for(i = 0; i < count; i++) body(i)`. -/
def forRange {σ : Type} : (count : Nat) → (body : Nat → σ → Option σ) → σ → Option σ
  | 0, _, s => some s
  | count + 1, body, s => do body count (← forRange count body s)

/-- `while(p < limit) { if(condition(p)) break; p++; }` with `count` indices left to try. -/
def search (condition : Nat → Option Bool) : (count p : Nat) → Option Nat
  | 0, p => some p
  | count + 1, p => do
      if ← condition p then return p
      search condition count (p + 1)

-----------------------------------------------------------------------------------------
-- Gates
-----------------------------------------------------------------------------------------

open ChpState

/-- The loop body of `cnot`. The two phase conditions read the bits after the update. -/
def cnotRow (d : Discipline) (control target i : Nat) (s : ChpState) : Option ChpState := do
  let s ← onlyIf (← s.bitX d i control) (toggleX d i target) s
  let s ← onlyIf (← s.bitZ d i target) (toggleZ d i control) s
  let xc ← s.bitX d i control
  let zt ← s.bitZ d i target
  let xt ← s.bitX d i target
  let zc ← s.bitZ d i control
  let s ← onlyIf (xc && zt && xt && zc) (negate i) s
  onlyIf (xc && zt && !xt && !zc) (negate i) s

/-- Apply a CNOT gate to two qubits. -/
def cnot (d : Discipline) (control target : Nat) (s : ChpState) : Option ChpState :=
  forRange (wrap (2 * s.n)) (cnotRow d control target) s

/-- The loop body of `hadamard`. -/
def hadamardRow (d : Discipline) (qubit i : Nat) (s : ChpState) : Option ChpState := do
  let tmp ← s.getX d i (qubit / 32)
  let zw ← s.getZ d i (qubit / 32)
  let s ← s.setX d i (qubit / 32) (tmp ^^^ ((tmp ^^^ zw) &&& pt (qubit % 32)))
  let s ← s.setZ d i (qubit / 32) (zw ^^^ ((zw ^^^ tmp) &&& pt (qubit % 32)))
  onlyIf ((← s.bitX d i qubit) && (← s.bitZ d i qubit)) (negate i) s

/-- Apply a Hadamard gate to a qubit. -/
def hadamard (d : Discipline) (qubit : Nat) (s : ChpState) : Option ChpState :=
  forRange (wrap (2 * s.n)) (hadamardRow d qubit) s

/-- The loop body of `phase`. -/
def phaseRow (d : Discipline) (qubit i : Nat) (s : ChpState) : Option ChpState := do
  let s ← onlyIf ((← s.bitX d i qubit) && (← s.bitZ d i qubit)) (negate i) s
  let xw ← s.getX d i (qubit / 32)
  s.setZ d i (qubit / 32) ((← s.getZ d i (qubit / 32)) ^^^ (xw &&& pt (qubit % 32)))

/-- Apply a phase gate to a qubit. -/
def phase (d : Discipline) (qubit : Nat) (s : ChpState) : Option ChpState :=
  forRange (wrap (2 * s.n)) (phaseRow d qubit) s

-----------------------------------------------------------------------------------------
-- Rows
-----------------------------------------------------------------------------------------

/-- Copy one row into another. -/
def rowcopy (d : Discipline) (dest source : Nat) (s : ChpState) : Option ChpState := do
  let s ← forRange s.over32 (fun w s => do
    let s ← s.setX d dest w (← s.getX d source w)
    s.setZ d dest w (← s.getZ d source w)) s
  s.setR dest (← s.getR source)

/-- Swap two rows, through the scratch row. -/
def rowswap (d : Discipline) (a b : Nat) (s : ChpState) : Option ChpState := do
  let s ← rowcopy d (wrap (2 * s.n)) b s
  let s ← rowcopy d b a s
  rowcopy d a (wrap (2 * s.n)) s

/-- Set a row equal to an observable: the X operators first, then the Z operators. -/
def rowset (d : Discipline) (row observable : Nat) (s : ChpState) : Option ChpState := do
  let s ← forRange s.over32 (fun w s => do (← s.setX d row w 0#64).setZ d row w 0#64) s
  let s ← s.setR row 0
  if observable < s.n then s.setX d row (observable / 32) (pt (observable % 32))
  else s.setZ d row ((observable - s.n) / 32) (pt ((observable - s.n) % 32))

/-- The exponent of `i` after the six cases of one column, row `b` on the left. -/
def cliffordColumn (xb zb xa za : Bool) (e : Int) : Int :=
  let e := if xb && !zb then
      -- X: XY=iZ, XZ=-iY
      let e := if xa && za then e + 1 else e
      if !xa && za then e - 1 else e
    else e
  let e := if xb && zb then
      -- Y: YZ=iX, YX=-iZ
      let e := if !xa && za then e + 1 else e
      if xa && !za then e - 1 else e
    else e
  if !xb && zb then
    -- Z: ZX=iY, ZY=-iX
    let e := if xa && !za then e + 1 else e
    if xa && za then e - 1 else e
  else e

/-- The phase (0,1,2,3) when row `a` is left-multiplied by row `b`. -/
def clifford (d : Discipline) (s : ChpState) (a b : Nat) : Option Int := do
  let e ← forRange s.over32 (fun i e => forRange 32 (fun j e => do
    let xb ← s.getX d b i
    let zb ← s.getZ d b i
    let xa ← s.getX d a i
    let za ← s.getZ d a i
    return cliffordColumn (hasBit xb j) (hasBit zb j) (hasBit xa j) (hasBit za j) e) e) 0
  let e := (e + (← s.getR a) + (← s.getR b)).tmod 4
  return if e ≥ 0 then e else e + 4

/-- Left-multiply row `a` by row `b`. -/
def rowmult (d : Discipline) (a b : Nat) (s : ChpState) : Option ChpState := do
  let s ← s.setR a (← clifford d s a b)
  forRange s.over32 (fun w s => do
    let s ← s.setX d a w ((← s.getX d a w) ^^^ (← s.getX d b w))
    s.setZ d a w ((← s.getZ d a w) ^^^ (← s.getZ d b w))) s

-----------------------------------------------------------------------------------------
-- Gaussian elimination
-----------------------------------------------------------------------------------------

/-- One column of `gaussian`: the loop bodies for X and for Z differ in the bits they test only.
A row from `i` on with the bit is moved to row `i`, and the bit is cleared in the rows below; the
result is the next `i`.
-/
def eliminateColumn (d : Discipline) (bit : ChpState → Nat → Option Bool) (i : Nat) (s : ChpState)
    : Option (Nat × ChpState) := do
  let n := s.n
  -- Find a generator containing the matrix in the column
  let k ← search (bit s) (wrap (2 * n) - i) i
  if k < wrap (2 * n) then
    let s ← rowswap d i k s
    let s ← rowswap d (i - n) (k - n) s
    let s ← forRange (wrap (2 * n) - (i + 1)) (fun t s => do
      let k2 := i + 1 + t
      onlyIf (← bit s k2) (fun s => do
        -- Gaussian elimination step
        let s ← rowmult d k2 i s
        rowmult d (i - n) (k2 - n) s) s) s
    return (i + 1, s)
  else
    return (i, s)

/-- Do Gaussian elimination. The result is the number of generators containing X or Y. -/
def gaussian (d : Discipline) (s : ChpState) : Option (Nat × ChpState) := do
  let n := s.n
  let (i, s) ← forRange n (fun j (i, s) => eliminateColumn d (fun s k => s.bitX d k j) i s) (n, s)
  -- Return value
  let g := i - n
  let (_, s) ← forRange n (fun j (i, s) => eliminateColumn d (fun s k => s.bitZ d k j) i s) (i, s)
  return (g, s)

-----------------------------------------------------------------------------------------
-- Measurement
-----------------------------------------------------------------------------------------

/-- The random branch of `measure`, with the coin drawn by `get_uniform_integer(0, 1)`. -/
def measureRandom (d : Discipline) (qubit p : Nat) (coin : Bool) (s : ChpState)
    : Option (Bool × ChpState) := do
  let n := s.n
  -- Set Xbar_p := Zbar_p
  let s ← rowcopy d p (wrap (p + n)) s
  -- Set Zbar_p := Z_b
  let s ← rowset d (wrap (p + n)) (wrap (qubit + n)) s
  -- Moment of quantum randomness
  let s ← s.setR (wrap (p + n)) (2 * (if coin then 1 else 0))
  -- Update the Xbar's and Zbar's that don't commute with Z_b
  let s ← forRange (wrap (2 * n)) (fun i s => do
    if i ≠ p then onlyIf (← s.bitX d i qubit) (rowmult d i p) s else some s) s
  return ((← s.getR (wrap (p + n))) != 0, s)

/-- The deterministic branch of `measure`, which works in the scratch row. -/
def measureDetermined (d : Discipline) (qubit : Nat) (s : ChpState)
    : Option (Bool × ChpState) := do
  let n := s.n
  -- Pivot row in destabilizer
  let m ← search (fun m => s.bitX d m qubit) n 0
  let s ← rowcopy d (wrap (2 * n)) (wrap (m + n)) s
  let s ← forRange (n - (m + 1)) (fun k s => do
    onlyIf (← s.bitX d (m + 1 + k) qubit) (rowmult d (wrap (2 * n)) (wrap (m + 1 + k + n))) s) s
  return ((← s.getR (wrap (2 * n))) != 0, s)

/-- Measure a qubit; the coin is drawn in the random branch only, and returned otherwise. -/
def measure (d : Discipline) (qubit : Nat) (coins : Stream' Bool) (s : ChpState)
    : Option (Bool × ChpState × Stream' Bool) := do
  -- Pivot row in stabilizer
  let p ← search (fun p => s.bitX d (wrap (p + s.n)) qubit) s.n 0
  if p < s.n then
    let (outcome, s) ← measureRandom d qubit p coins.head s
    return (outcome, s, coins.tail)
  else
    let (outcome, s) ← measureDetermined d qubit s
    return (outcome, s, coins)

end Sabot.State
