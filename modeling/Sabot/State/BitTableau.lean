import Sabot.State.ChpState

/-! The tableau algorithm on boolean matrices: the steps of `chp_state` without words, masks and
padding columns. This is what the packed operations are compared with.
-/

namespace Sabot.State

-----------------------------------------------------------------------------------------
-- Control flow
-----------------------------------------------------------------------------------------

/-- `for(i = 0; i < count; i++) body(i)`. -/
def loop {σ : Type} : (count : Nat) → (body : Nat → σ → σ) → σ → σ
  | 0, _, s => s
  | count + 1, body, s => body count (loop count body s)

/-- The same over the columns of a row. -/
def forColumns {σ : Type} (n : Nat) (body : Fin n → σ → σ) (s : σ) : σ :=
  (List.finRange n).foldl (fun s q => body q s) s

/-- `while(p < limit) { if(condition(p)) break; p++; }` with `count` indices left to try. -/
def first (condition : Nat → Bool) : (count p : Nat) → Nat
  | 0, p => p
  | count + 1, p => if condition p then p else first condition count (p + 1)

-----------------------------------------------------------------------------------------
-- Rows
-----------------------------------------------------------------------------------------

/-- The bits of one row and its phase. -/
@[ext]
structure BitRow (n : Nat) where
  x : Fin n → Bool
  z : Fin n → Bool
  r : Int

namespace BitRow

variable {n : Nat}

/-- `if(condition) r = (r+2)%4`. -/
def negateIf (condition : Bool) (R : BitRow n) : BitRow n :=
  if condition then { R with r := (R.r + 2).tmod 4 } else R

def toggleX (q : Fin n) (R : BitRow n) : BitRow n := { R with x := Function.update R.x q (!R.x q) }

def toggleZ (q : Fin n) (R : BitRow n) : BitRow n := { R with z := Function.update R.z q (!R.z q) }

def cnot (control target : Fin n) (R : BitRow n) : BitRow n :=
  let R := if R.x control then R.toggleX target else R
  let R := if R.z target then R.toggleZ control else R
  let same := R.x control && R.z target && R.x target && R.z control
  let none := R.x control && R.z target && !R.x target && !R.z control
  (R.negateIf same).negateIf none

def hadamard (q : Fin n) (R : BitRow n) : BitRow n :=
  let x := R.x q
  let z := R.z q
  let R := {
    R with
    x := Function.update R.x q (x ^^ (x ^^ z))
    z := Function.update R.z q (z ^^ (z ^^ x))
  }
  R.negateIf (R.x q && R.z q)

def phase (q : Fin n) (R : BitRow n) : BitRow n :=
  let R := R.negateIf (R.x q && R.z q)
  { R with z := Function.update R.z q (R.z q ^^ R.x q) }

/-- The phase (0,1,2,3) when row `A` is left-multiplied by row `B`. -/
def clifford (A B : BitRow n) : Int :=
  let e := forColumns n (fun q => cliffordColumn (B.x q) (B.z q) (A.x q) (A.z q)) 0
  let e := (e + A.r + B.r).tmod 4
  if e ≥ 0 then e else e + 4

/-- Row `A` left-multiplied by row `B`. -/
def product (A B : BitRow n) : BitRow n where
  x q := A.x q ^^ B.x q
  z q := A.z q ^^ B.z q
  r := clifford A B

end BitRow

-----------------------------------------------------------------------------------------
-- Tableaux
-----------------------------------------------------------------------------------------

/-- Destabilizer rows, stabilizer rows from `n` on, and the scratch row `2n`. -/
abbrev BitTableau (n : Nat) := Nat → BitRow n

namespace BitTableau

variable {n : Nat}

/-- The loop of a gate over all destabilizer and stabilizer rows. -/
def onRows (f : BitRow n → BitRow n) (B : BitTableau n) : BitTableau n :=
  loop (2 * n) (fun i B => Function.update B i (f (B i))) B

def cnot (control target : Fin n) (B : BitTableau n) : BitTableau n :=
  B.onRows (BitRow.cnot control target)

def hadamard (q : Fin n) (B : BitTableau n) : BitTableau n := B.onRows (BitRow.hadamard q)

def phase (q : Fin n) (B : BitTableau n) : BitTableau n := B.onRows (BitRow.phase q)

def rowcopy (dest source : Nat) (B : BitTableau n) : BitTableau n :=
  Function.update B dest (B source)

def rowswap (a b : Nat) (B : BitTableau n) : BitTableau n :=
  ((B.rowcopy (2 * n) b).rowcopy b a).rowcopy a (2 * n)

/-- Observables below `n` are the X operators, the others the Z operators. -/
def rowset (row observable : Nat) (B : BitTableau n) : BitTableau n :=
  Function.update B row
    ⟨fun k => decide ((k : Nat) = observable), fun k => decide ((k : Nat) + n = observable), 0⟩

def rowmult (a b : Nat) (B : BitTableau n) : BitTableau n :=
  Function.update B a ((B a).product (B b))

def eliminateColumn (bit : BitRow n → Bool) (i : Nat) (B : BitTableau n) : Nat × BitTableau n :=
  let k := first (fun k => bit (B k)) (2 * n - i) i
  if k < 2 * n then
    let B := B.rowswap i k
    let B := B.rowswap (i - n) (k - n)
    let B := loop (2 * n - (i + 1)) (fun t B =>
      let k2 := i + 1 + t
      if bit (B k2) then (B.rowmult k2 i).rowmult (i - n) (k2 - n) else B) B
    (i + 1, B)
  else
    (i, B)

def gaussian (B : BitTableau n) : Nat × BitTableau n :=
  let (i, B) := forColumns n (fun j (i, B) => B.eliminateColumn (fun R => R.x j) i) (n, B)
  let g := i - n
  let (_, B) := forColumns n (fun j (i, B) => B.eliminateColumn (fun R => R.z j) i) (i, B)
  (g, B)

def measureRandom (q : Fin n) (p : Nat) (coin : Bool) (B : BitTableau n) : Bool × BitTableau n :=
  let B := B.rowcopy p (p + n)
  let B := B.rowset (p + n) (q + n)
  let B : BitTableau n :=
    Function.update B (p + n) { B (p + n) with r := 2 * (if coin then 1 else 0) }
  let B := loop (2 * n) (fun i B => if i ≠ p ∧ (B i).x q then B.rowmult i p else B) B
  ((B (p + n)).r != 0, B)

def measureDetermined (q : Fin n) (B : BitTableau n) : Bool × BitTableau n :=
  let m := first (fun m => (B m).x q) n 0
  let B := B.rowcopy (2 * n) (m + n)
  let B := loop (n - (m + 1)) (fun k B =>
    if (B (m + 1 + k)).x q then B.rowmult (2 * n) (m + 1 + k + n) else B) B
  ((B (2 * n)).r != 0, B)

def measure (q : Fin n) (coins : Stream' Bool) (B : BitTableau n)
    : Bool × BitTableau n × Stream' Bool :=
  let p := first (fun p => (B (p + n)).x q) n 0
  if p < n then
    let (outcome, B) := B.measureRandom q p coins.head
    (outcome, B, coins.tail)
  else
    let (outcome, B) := B.measureDetermined q
    (outcome, B, coins)

end BitTableau

end Sabot.State
