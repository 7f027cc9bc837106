import Sabot.Stabilizer.Commutation

/-! Coins and Pauli gates act on signs only, and affinely. Tableaux with the same bits stay so
whatever coins are drawn, and the phases of four runs stay in balance when the coins of the last
are the exclusive or of the coins of the others.
-/

namespace Stabilizer

variable {ι : Type*} [Fintype ι] [DecidableEq ι]

-----------------------------------------------------------------------------------------
-- Equal bits
-----------------------------------------------------------------------------------------

namespace PauliString

/-- The two strings differ in their phases at most. -/
structure SameBits (P Q : PauliString ι) : Prop where
  x : P.x = Q.x
  z : P.z = Q.z

variable {P Q R S : PauliString ι}

omit [Fintype ι] [DecidableEq ι] in
theorem SameBits.refl (P : PauliString ι) : SameBits P P := ⟨rfl, rfl⟩

omit [Fintype ι] [DecidableEq ι] in
theorem SameBits.symm (same : SameBits P Q) : SameBits Q P := ⟨same.x.symm, same.z.symm⟩

omit [Fintype ι] [DecidableEq ι] in
theorem SameBits.trans (first : SameBits P Q) (second : SameBits Q R) : SameBits P R :=
  ⟨first.x.trans second.x, first.z.trans second.z⟩

omit [DecidableEq ι] in
theorem SameBits.mul (first : SameBits P Q) (second : SameBits R S) : SameBits (P * R) (Q * S) :=
  ⟨by rw [mul_x, mul_x, first.x, second.x], by rw [mul_z, mul_z, first.z, second.z]⟩

omit [Fintype ι] [DecidableEq ι] in
theorem SameBits.agree (same : SameBits P Q) (g : Gate ι) : g.Agree P Q :=
  fun q _ => ⟨congrFun same.x q, congrFun same.z q⟩

theorem SameBits.conjugate (same : SameBits P Q) (g : Gate ι)
    : SameBits (g.conjugate P) (g.conjugate Q) := by
  obtain ⟨bits, _⟩ := Gate.conjugate_agree (same.agree g)
  have column (q : ι) : (g.conjugate P).x q = (g.conjugate Q).x q
      ∧ (g.conjugate P).z q = (g.conjugate Q).z q := by
    by_cases off : g.Off q
    · obtain ⟨xP, zP⟩ := Gate.conjugate_off off (P := P)
      obtain ⟨xQ, zQ⟩ := Gate.conjugate_off off (P := Q)
      rw [xP, zP, xQ, zQ, same.x, same.z]
      exact ⟨rfl, rfl⟩
    · exact bits q off
  exact ⟨funext fun q => (column q).1, funext fun q => (column q).2⟩

omit [DecidableEq ι] in
theorem SameBits.absorb (pivots : SameBits P Q) (rows : SameBits R S) (q : ι)
    : SameBits (Tableau.absorb q P R) (Tableau.absorb q Q S) := by
  unfold Tableau.absorb
  rw [rows.x]
  split
  · exact pivots.mul rows
  · exact rows

end PauliString

namespace Tableau

/-- The two tableaux differ in the signs of their rows at most. -/
structure SameBits (T U : Tableau ι) : Prop where
  destabilizer : ∀ i, (T.destabilizer i).SameBits (U.destabilizer i)
  stabilizer : ∀ i, (T.stabilizer i).SameBits (U.stabilizer i)

variable {order : List ι} {T U : Tableau ι}

omit [Fintype ι] [DecidableEq ι] in
theorem SameBits.trans {V : Tableau ι} (first : SameBits T U) (second : SameBits U V)
    : SameBits T V :=
  ⟨fun i => (first.destabilizer i).trans (second.destabilizer i),
    fun i => (first.stabilizer i).trans (second.stabilizer i)⟩

omit [Fintype ι] [DecidableEq ι] in
theorem SameBits.symm (same : SameBits T U) : SameBits U T :=
  ⟨fun i => (same.destabilizer i).symm, fun i => (same.stabilizer i).symm⟩

omit [Fintype ι] [DecidableEq ι] in
theorem SameBits.pivot (same : SameBits T U) (order : List ι) (q : ι) : T.pivot order q = U.pivot order q := by
  simp only [Tableau.pivot, (same.stabilizer _).x]

omit [Fintype ι] [DecidableEq ι] in
theorem SameBits.partners (same : SameBits T U) (order : List ι) (q : ι)
    : T.partners order q = U.partners order q := by
  simp only [Tableau.partners, (same.destabilizer _).x]

theorem SameBits.collapse (same : SameBits T U) (q p : ι) (outcome outcome' : Bool)
    : SameBits (T.collapse q p outcome) (U.collapse q p outcome') := by
  constructor
  · intro i
    simp only [Tableau.collapse]
    split
    · exact same.stabilizer p
    · exact (same.stabilizer p).absorb (same.destabilizer i) q
  · intro i
    simp only [Tableau.collapse]
    split
    · exact ⟨rfl, rfl⟩
    · exact (same.stabilizer p).absorb (same.stabilizer i) q

omit [Fintype ι] [DecidableEq ι] in
/-- The same measurements draw a coin. -/
theorem SameBits.draws (same : SameBits T U) (order : List ι) (op : Operation ι)
    : T.draws order op = U.draws order op := by
  cases op with
  | gate g => rfl
  | measure q => simp only [Tableau.draws, same.pivot order q]

/-- One operation keeps equal bits equal, whatever coins are drawn. -/
theorem SameBits.operate (same : SameBits T U) (coins coins' : Stream' Bool) (op : Operation ι)
    : SameBits (T.operate order coins op).2.1 (U.operate order coins' op).2.1 := by
  cases op with
  | gate g =>
      exact ⟨fun i => (same.destabilizer i).conjugate g, fun i => (same.stabilizer i).conjugate g⟩
  | measure q =>
      have found := same.pivot order q
      cases here : T.pivot order q with
      | none =>
          rw [here] at found
          simp only [Tableau.operate, here, ← found]
          exact same
      | some p =>
          rw [here] at found
          simp only [Tableau.operate, here, ← found]
          exact same.collapse q p _ _

end Tableau

/-- The operation can change more than signs: it is neither the identity nor a Pauli gate. -/
def Operation.movesBits : Operation ι → Bool
  | .gate .identity | .gate (.pauli _) => false
  | .gate (.hadamard _) | .gate (.phase _) | .gate (.cnot _ _ _) | .measure _ => true

namespace Tableau

variable {order : List ι} {T U : Tableau ι}

/-- The other operations draw no coin and leave the bits alone. -/
theorem SameBits.still (order : List ι) {op : Operation ι} (still : op.movesBits = false)
    (T : Tableau ι) (coins : Stream' Bool)
    : SameBits (T.operate order coins op).2.1 T ∧ T.draws order op = 0 := by
  cases op with
  | measure q => cases still
  | gate g =>
      cases g with
      | identity => exact ⟨⟨fun i => .refl _, fun i => .refl _⟩, rfl⟩
      | pauli P => exact ⟨⟨fun i => ⟨rfl, rfl⟩, fun i => ⟨rfl, rfl⟩⟩, rfl⟩
      | hadamard q => cases still
      | phase q => cases still
      | cnot control target distinct => cases still

/-- How many coins a run draws. -/
def drawn (order : List ι) : List (Operation ι) → Tableau ι → Stream' Bool → Nat
  | [], _, _ => 0
  | op :: rest, T, coins =>
      T.draws order op + drawn order rest (T.operate order coins op).2.1
        (T.operate order coins op).2.2

theorem run_coins (circuit : List (Operation ι)) (T : Tableau ι) (coins : Stream' Bool)
    : (run order circuit T coins).2.2 = coins.drop (drawn order circuit T coins) := by
  induction circuit generalizing T coins with
  | nil => rfl
  | cons op rest ih =>
      simp only [run, drawn]
      rw [ih, operate_coins, Stream'.drop_drop]

/-- Identity and Pauli gates can be left out without changing bits or draws. -/
theorem SameBits.run_filter (same : SameBits T U) (order : List ι)
    (circuit : List (Operation ι)) (coins coins' : Stream' Bool)
    : SameBits (run order circuit T coins).2.1
          (run order (circuit.filter Operation.movesBits) U coins').2.1
      ∧ drawn order circuit T coins
        = drawn order (circuit.filter Operation.movesBits) U coins' := by
  induction circuit generalizing T U coins coins' with
  | nil => exact ⟨same, rfl⟩
  | cons op rest ih =>
      cases moves : op.movesBits with
      | false =>
          obtain ⟨alone, none⟩ := SameBits.still order moves T coins
          rw [List.filter_cons_of_neg (by simp [moves])]
          obtain ⟨bits, draws⟩ := ih (alone.trans same) (T.operate order coins op).2.2 coins'
          exact ⟨bits, by rw [drawn, none, Nat.zero_add, draws]⟩
      | true =>
          rw [List.filter_cons_of_pos moves]
          obtain ⟨bits, draws⟩ := ih (same.operate coins coins' op)
            (T.operate order coins op).2.2 (U.operate order coins' op).2.2
          exact ⟨bits, by rw [drawn, drawn, draws, same.draws order]⟩

/-- Circuits that agree up to identity and Pauli gates lead to the same bits and draw the same
number of coins, whatever the coins are.
-/
theorem SameBits.run (same : SameBits T U) (order : List ι) {circuit circuit' : List (Operation ι)}
    (skeleton : circuit.filter Operation.movesBits = circuit'.filter Operation.movesBits)
    (coins coins' : Stream' Bool)
    : SameBits (run order circuit T coins).2.1 (Tableau.run order circuit' U coins').2.1
      ∧ drawn order circuit T coins = drawn order circuit' U coins' := by
  obtain ⟨bits, draws⟩ := same.run_filter order circuit coins coins'
  obtain ⟨bits', draws'⟩ := (same.symm.trans same).run_filter order circuit' coins' coins'
  rw [skeleton] at bits draws
  exact ⟨bits.trans bits'.symm, draws.trans draws'.symm⟩

end Tableau

-----------------------------------------------------------------------------------------
-- Balanced phases
-----------------------------------------------------------------------------------------

/-- The exclusive or of three lists, position by position. -/
def xors (a b c : List Bool) : List Bool := List.zipWith xor (List.zipWith xor a b) c

/-- The exclusive or of three streams. -/
def xorStreams (a b c : Stream' Bool) : Stream' Bool := Stream'.zip xor (Stream'.zip xor a b) c

theorem xors_append {a b c : List Bool} (ab : a.length = b.length) (ac : a.length = c.length)
    (a' b' c' : List Bool)
    : xors (a ++ a') (b ++ b') (c ++ c') = xors a b c ++ xors a' b' c' := by
  unfold xors
  rw [List.zipWith_append ab, List.zipWith_append]
  rw [List.length_zipWith, ← ab, Nat.min_self, ac]

namespace PauliString

/-- Four strings with the same bits and balanced phases. Where the phases are even, the sign of the
last string is the exclusive or of the signs of the others.
-/
structure Balanced (A B C D : PauliString ι) : Prop where
  second : SameBits A B
  third : SameBits A C
  last : SameBits A D
  phase : A.phase + C.phase = B.phase + D.phase

variable {A B C D A' B' C' D' : PauliString ι}

omit [DecidableEq ι] in
theorem Balanced.mul (first : Balanced A B C D) (second : Balanced A' B' C' D')
    : Balanced (A * A') (B * B') (C * C') (D * D') where
  second := first.second.mul second.second
  third := first.third.mul second.third
  last := first.last.mul second.last
  phase := by
    simp only [mul_phase, ← first.second.x, ← first.second.z, ← first.third.x, ← first.third.z,
      ← first.last.x, ← first.last.z, ← second.second.x, ← second.second.z, ← second.third.x,
      ← second.third.z, ← second.last.x, ← second.last.z]
    linear_combination first.phase + second.phase

theorem Balanced.conjugate (balanced : Balanced A B C D) (g : Gate ι)
    : Balanced (g.conjugate A) (g.conjugate B) (g.conjugate C) (g.conjugate D) where
  second := balanced.second.conjugate g
  third := balanced.third.conjugate g
  last := balanced.last.conjugate g
  phase := by
    have second := (Gate.conjugate_agree (balanced.second.agree g)).2
    have third := (Gate.conjugate_agree (balanced.third.agree g)).2
    have last := (Gate.conjugate_agree (balanced.last.agree g)).2
    linear_combination second - third + last + balanced.phase

omit [DecidableEq ι] in
theorem Balanced.absorb (pivots : Balanced A B C D) (rows : Balanced A' B' C' D') (q : ι)
    : Balanced (Tableau.absorb q A A') (Tableau.absorb q B B') (Tableau.absorb q C C')
        (Tableau.absorb q D D') := by
  unfold Tableau.absorb
  rw [← rows.second.x, ← rows.third.x, ← rows.last.x]
  split
  · exact pivots.mul rows
  · exact rows

omit [Fintype ι] in
theorem balanced_signedZ (q : ι) (a b c : Bool)
    : Balanced (signedZ q a) (signedZ q b) (signedZ q c) (signedZ q (a ^^ b ^^ c)) := by
  have signs : ∀ a b c : Bool, (if a then (2 : ZMod 4) else 0) + (if c then 2 else 0)
      = (if b then 2 else 0) + if a ^^ b ^^ c then 2 else 0 := by
    decide
  exact ⟨⟨rfl, rfl⟩, ⟨rfl, rfl⟩, ⟨rfl, rfl⟩, signs a b c⟩

omit [Fintype ι] [DecidableEq ι] in
/-- With even phases the signs are affine. -/
theorem Balanced.sign (balanced : Balanced A B C D) (ha : A.Hermitian) (hb : B.Hermitian)
    (hc : C.Hermitian) (hd : D.Hermitian)
    : decide (D.phase = 2)
      = (decide (A.phase = 2) ^^ decide (B.phase = 2) ^^ decide (C.phase = 2)) := by
  have signs : ∀ a b c d : ZMod 4, parity a = 0 → parity b = 0 → parity c = 0 → parity d = 0
      → a + c = b + d → decide (d = 2) = (decide (a = 2) ^^ decide (b = 2) ^^ decide (c = 2)) := by
    decide
  exact signs _ _ _ _ ha hb hc hd balanced.phase

end PauliString

namespace Tableau

/-- Four tableaux with the same bits and balanced phases. -/
structure Balanced (A B C D : Tableau ι) : Prop where
  destabilizer : ∀ i, PauliString.Balanced (A.destabilizer i) (B.destabilizer i)
    (C.destabilizer i) (D.destabilizer i)
  stabilizer : ∀ i, PauliString.Balanced (A.stabilizer i) (B.stabilizer i) (C.stabilizer i)
    (D.stabilizer i)

omit [Fintype ι] [DecidableEq ι] in
theorem balanced_self (T : Tableau ι) : Balanced T T T T :=
  ⟨fun _ => ⟨.refl _, .refl _, .refl _, rfl⟩, fun _ => ⟨.refl _, .refl _, .refl _, rfl⟩⟩

variable {A B C D : Tableau ι}

omit [Fintype ι] [DecidableEq ι] in
theorem Balanced.sameBits (balanced : Balanced A B C D)
    : A.SameBits B ∧ A.SameBits C ∧ A.SameBits D :=
  ⟨⟨fun i => (balanced.destabilizer i).second, fun i => (balanced.stabilizer i).second⟩,
    ⟨fun i => (balanced.destabilizer i).third, fun i => (balanced.stabilizer i).third⟩,
    ⟨fun i => (balanced.destabilizer i).last, fun i => (balanced.stabilizer i).last⟩⟩

omit [DecidableEq ι] in
theorem Balanced.product (balanced : Balanced A B C D) {a b c d : PauliString ι}
    (start : PauliString.Balanced a b c d) (rows : List ι)
    : PauliString.Balanced (A.product a rows) (B.product b rows) (C.product c rows)
        (D.product d rows) := by
  induction rows generalizing a b c d with
  | nil => exact start
  | cons i rest ih => exact ih ((balanced.stabilizer i).mul start)

theorem Balanced.collapse (balanced : Balanced A B C D) (q p : ι) (a b c : Bool)
    : Balanced (A.collapse q p a) (B.collapse q p b) (C.collapse q p c)
        (D.collapse q p (a ^^ b ^^ c)) := by
  constructor
  · intro i
    simp only [Tableau.collapse]
    split
    · exact balanced.stabilizer p
    · exact (balanced.stabilizer p).absorb (balanced.destabilizer i) q
  · intro i
    simp only [Tableau.collapse]
    split
    · exact PauliString.balanced_signedZ q a b c
    · exact (balanced.stabilizer p).absorb (balanced.stabilizer i) q

/-- One operation keeps the balance, and its outcomes are affine in the coins. -/
theorem Balanced.operate (balanced : Balanced A B C D) {order : List ι}
    (complete : ∀ i, i ∈ order) (once : order.Nodup) (va : A.Valid) (vb : B.Valid) (vc : C.Valid)
    (vd : D.Valid) (a b c : Stream' Bool) (op : Operation ι)
    : Balanced (A.operate order a op).2.1 (B.operate order b op).2.1 (C.operate order c op).2.1
          (D.operate order (xorStreams a b c) op).2.1
      ∧ (D.operate order (xorStreams a b c) op).1
        = xors (A.operate order a op).1 (B.operate order b op).1 (C.operate order c op).1 := by
  obtain ⟨bitsB, bitsC, bitsD⟩ := balanced.sameBits
  cases op with
  | gate g =>
      exact ⟨⟨fun i => (balanced.destabilizer i).conjugate g,
        fun i => (balanced.stabilizer i).conjugate g⟩, rfl⟩
  | measure q =>
      have foundB := bitsB.pivot order q
      have foundC := bitsC.pivot order q
      have foundD := bitsD.pivot order q
      cases here : A.pivot order q with
      | some p =>
          rw [here] at foundB foundC foundD
          simp only [Tableau.operate, here, ← foundB, ← foundC, ← foundD]
          exact ⟨balanced.collapse q p _ _ _, rfl⟩
      | none =>
          rw [here] at foundB foundC foundD
          simp only [Tableau.operate, here, ← foundB, ← foundC, ← foundD]
          have even {T : Tableau ι} (valid : T.Valid) (none : T.pivot order q = none)
              : (T.readout order q).Hermitian := by
            rw [valid.readout_eq complete once ((pivot_eq_none complete).mp none)]
            exact PauliString.signedZ_hermitian _ _
          have readouts : PauliString.Balanced (A.readout order q) (B.readout order q)
              (C.readout order q) (D.readout order q) := by
            simp only [readout, ← bitsB.partners order q, ← bitsC.partners order q,
              ← bitsD.partners order q]
            exact balanced.product ⟨.refl _, .refl _, .refl _, rfl⟩ _
          refine ⟨balanced, ?_⟩
          rw [readouts.sign (even va here) (even vb foundB.symm) (even vc foundC.symm)
            (even vd foundD.symm)]
          rfl

/-- The number of outcomes does not depend on the tableau. -/
theorem length_operate (order : List ι) (T U : Tableau ι) (coins coins' : Stream' Bool)
    (op : Operation ι)
    : (T.operate order coins op).1.length = (U.operate order coins' op).1.length := by
  cases op with
  | gate g => rfl
  | measure q =>
      simp only [Tableau.operate]
      cases T.pivot order q <;> cases U.pivot order q <;> rfl

/-- The outcomes of a whole run are affine in the coins, by induction over the circuit with the
balance as invariant.
-/
theorem Balanced.run (balanced : Balanced A B C D) {order : List ι} (complete : ∀ i, i ∈ order)
    (once : order.Nodup) (va : A.Valid) (vb : B.Valid) (vc : C.Valid) (vd : D.Valid)
    (circuit : List (Operation ι)) (a b c : Stream' Bool)
    : (Tableau.run order circuit D (xorStreams a b c)).1
      = xors (Tableau.run order circuit A a).1 (Tableau.run order circuit B b).1
          (Tableau.run order circuit C c).1 := by
  induction circuit generalizing A B C D a b c with
  | nil => rfl
  | cons op rest ih =>
      obtain ⟨next, outcomes⟩ := balanced.operate complete once va vb vc vd a b c op
      obtain ⟨bitsB, bitsC, bitsD⟩ := balanced.sameBits
      have valid {T : Tableau ι} (valid : T.Valid) (coins : Stream' Bool)
          : (T.operate order coins op).2.1.Valid :=
        (operate_step valid complete once coins op).valid valid
      have coins : (D.operate order (xorStreams a b c) op).2.2
          = xorStreams (A.operate order a op).2.2 (B.operate order b op).2.2
              (C.operate order c op).2.2 := by
        rw [operate_coins, operate_coins, operate_coins, operate_coins, ← bitsB.draws,
          ← bitsC.draws, ← bitsD.draws]
        rfl
      simp only [Tableau.run, outcomes, coins]
      rw [ih next (valid va a) (valid vb b) (valid vc c) (valid vd _),
        ← xors_append (length_operate order A B a b op) (length_operate order A C a c op)]

end Tableau

end Stabilizer
