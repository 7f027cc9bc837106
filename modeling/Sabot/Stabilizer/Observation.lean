import Sabot.Stabilizer.Repetition
import Sabot.Stabilizer.Support

/-! What measurements can tell about a tableau: exactly the signed group of its stabilizers. Every
element of the group is taken to `Z` on some qubit by Hadamard, phase and controlled-not gates, and
a measurement of that qubit reports the sign.
-/

namespace Stabilizer

variable {ι : Type*} [Fintype ι] [DecidableEq ι]

-----------------------------------------------------------------------------------------
-- Lists of gates
-----------------------------------------------------------------------------------------

/-- Three phase gates undo one, and every other gate undoes itself. -/
theorem Gate.conjugate_injective (g : Gate ι) : Function.Injective g.conjugate := by
  by_cases off : ∀ q, g ≠ .phase q
  · exact Function.LeftInverse.injective (Gate.conjugate_conjugate off)
  · push Not at off
    obtain ⟨q, rfl⟩ := off
    intro P Q same
    have undone := congrArg (fun R => R.phaseGate q |>.phaseGate q |>.phaseGate q) same
    simpa only [conjugate, PauliString.phaseGate_inverse] using undone

/-- Conjugation by a list of gates, the first gate first. -/
def conjugateAll (gates : List (Gate ι)) (P : PauliString ι) : PauliString ι :=
  gates.foldl (fun P g => g.conjugate P) P

theorem conjugateAll_append (first second : List (Gate ι)) (P : PauliString ι)
    : conjugateAll (first ++ second) P = conjugateAll second (conjugateAll first P) :=
  List.foldl_append

theorem conjugateAll_injective (gates : List (Gate ι))
    : Function.Injective (conjugateAll gates) := by
  induction gates with
  | nil => exact Function.injective_id
  | cons g rest ih => exact ih.comp g.conjugate_injective

theorem conjugateAll_hermitian (gates : List (Gate ι)) {P : PauliString ι} (sign : P.Hermitian)
    : (conjugateAll gates P).Hermitian := by
  induction gates generalizing P with
  | nil => exact sign
  | cons g rest ih => exact ih (g.hermitian_conjugate sign)

/-- Gates fix the powers of `i`. -/
theorem Gate.conjugate_scalar (g : Gate ι) (k : ZMod 4)
    : g.conjugate ⟨0, 0, k⟩ = ⟨0, 0, k⟩ := by
  cases g with
  | identity => rfl
  | hadamard q => simp [conjugate, PauliString.hadamard]
  | phase q => simp [conjugate, PauliString.phaseGate]
  | cnot c t distinct => simp [conjugate, PauliString.cnot]
  | pauli P => simp [conjugate, PauliString.flip, PauliString.form]

theorem conjugateAll_scalar (gates : List (Gate ι)) (k : ZMod 4)
    : conjugateAll gates ⟨0, 0, k⟩ = ⟨0, 0, k⟩ := by
  induction gates with
  | nil => rfl
  | cons g rest ih =>
      rw [conjugateAll, List.foldl_cons, g.conjugate_scalar]
      exact ih

/-- The gates that generate all others. -/
def Gate.Generates : Gate ι → Prop
  | hadamard _ | phase _ | cnot _ _ _ => True
  | identity | pauli _ => False

-----------------------------------------------------------------------------------------
-- Every signed string is a signed Z behind some gates
-----------------------------------------------------------------------------------------

/-- The X bit on one qubit is cleared there: a Hadamard gate takes X to Z, and a phase gate makes X
of Y.
-/
theorem exists_clear (P : PauliString ι) (q : ι)
    : ∃ gates : List (Gate ι), (∀ g ∈ gates, g.Generates)
        ∧ (conjugateAll gates P).x q = 0
        ∧ ∀ k, k ≠ q → (conjugateAll gates P).x k = P.x k := by
  have bits : ∀ a : ZMod 2, a ≠ 1 → a = 0 := by decide
  by_cases hasX : P.x q = 1
  · by_cases hasZ : P.z q = 1
    · refine ⟨[.phase q, .hadamard q], by simp [Gate.Generates], ?_, ?_⟩
      · simp only [conjugateAll, List.foldl_cons, List.foldl_nil, Gate.conjugate,
          PauliString.phaseGate, PauliString.hadamard, Function.update_self, hasX, hasZ]
        decide
      · intro k off
        simp [conjugateAll, Gate.conjugate, PauliString.phaseGate, PauliString.hadamard, off]
    · refine ⟨[.hadamard q], by simp [Gate.Generates], ?_, ?_⟩
      · simpa [conjugateAll, Gate.conjugate, PauliString.hadamard] using bits _ hasZ
      · intro k off
        simp [conjugateAll, Gate.conjugate, PauliString.hadamard, off]
  · exact ⟨[], by simp, bits _ hasX, fun k _ => rfl⟩

/-- The X bits on all listed qubits are cleared one after another. -/
theorem exists_clear_all (P : PauliString ι) (qubits : List ι)
    : ∃ gates : List (Gate ι), (∀ g ∈ gates, g.Generates)
        ∧ ∀ q ∈ qubits, (conjugateAll gates P).x q = 0 := by
  induction qubits with
  | nil => exact ⟨[], by simp, by simp⟩
  | cons q rest ih =>
      obtain ⟨first, generateF, clearedF⟩ := ih
      obtain ⟨second, generateS, clearedS, keeps⟩ := exists_clear (conjugateAll first P) q
      refine ⟨first ++ second, ?_, ?_⟩
      · intro g member
        exact (List.mem_append.mp member).elim (generateF g) (generateS g)
      · intro k member
        rw [conjugateAll_append]
        rcases eq_or_ne k q with rfl | off
        · exact clearedS
        · rw [keeps k off]
          exact clearedF k ((List.mem_cons.mp member).resolve_left off)

/-- Without X bits, controlled-nots onto a qubit with a Z bit clear the other Z bits. -/
theorem exists_gather {P : PauliString ι} {q : ι} (empty : P.x = 0) (bit : P.z q = 1)
    (qubits : List ι)
    : ∃ gates : List (Gate ι), (∀ g ∈ gates, g.Generates)
        ∧ (conjugateAll gates P).x = 0 ∧ (conjugateAll gates P).z q = 1
        ∧ ∀ k ∈ qubits, k ≠ q → (conjugateAll gates P).z k = 0 := by
  have bits : ∀ a : ZMod 2, a ≠ 1 → a = 0 := by decide
  induction qubits with
  | nil => exact ⟨[], by simp, empty, bit, by simp⟩
  | cons j rest ih =>
      obtain ⟨first, generate, emptyF, bitF, gathered⟩ := ih
      by_cases moves : j ≠ q ∧ (conjugateAll first P).z j = 1
      · obtain ⟨apart, has⟩ := moves
        have ran : conjugateAll (first ++ [.cnot j q apart]) P
            = (conjugateAll first P).cnot j q := conjugateAll_append _ _ _
        refine ⟨first ++ [.cnot j q apart], ?_, ?_, ?_, ?_⟩
        · intro g member
          rcases List.mem_append.mp member with early | last
          · exact generate g early
          · rw [List.mem_singleton.mp last]
            trivial
        · rw [ran]
          simp [PauliString.cnot, emptyF]
        · rw [ran]
          simpa [PauliString.cnot, apart.symm] using bitF
        · intro k member off
          rw [ran]
          rcases eq_or_ne k j with rfl | other
          · simp only [PauliString.cnot, Function.update_self, has, bitF]
            decide
          · simpa [PauliString.cnot, other]
              using gathered k ((List.mem_cons.mp member).resolve_left other) off
      · refine ⟨first, generate, emptyF, bitF, ?_⟩
        intro k member off
        rcases List.mem_cons.mp member with rfl | later
        · exact bits _ (fun has => moves ⟨off, has⟩)
        · exact gathered k later off

/-- A signed string that is no scalar is `Z` or `-Z` on a qubit behind some gates. -/
theorem exists_signedZ {P : PauliString ι} (sign : P.Hermitian) (moves : ∀ k, P ≠ ⟨0, 0, k⟩)
    : ∃ (gates : List (Gate ι)) (q : ι) (outcome : Bool), (∀ g ∈ gates, g.Generates)
        ∧ conjugateAll gates P = .signedZ q outcome := by
  have bits : ∀ a : ZMod 2, a ≠ 0 → a = 1 := by decide
  obtain ⟨first, generateF, cleared⟩ := exists_clear_all P Finset.univ.toList
  have empty : (conjugateAll first P).x = 0 := funext fun q => cleared q (by simp)
  obtain ⟨q, bit⟩ : ∃ q, (conjugateAll first P).z q = 1 := by
    by_contra none
    push Not at none
    have zero : (conjugateAll first P).z = 0 :=
      funext fun q => by_contra fun has => none q (bits _ has)
    refine moves (conjugateAll first P).phase (conjugateAll_injective first ?_)
    rw [conjugateAll_scalar]
    exact PauliString.ext empty zero rfl
  obtain ⟨second, generateS, emptyS, bitS, gathered⟩ := exists_gather empty bit Finset.univ.toList
  have signed : (conjugateAll second (conjugateAll first P)).Hermitian :=
    conjugateAll_hermitian second (conjugateAll_hermitian first sign)
  refine ⟨first ++ second, q,
    decide ((conjugateAll second (conjugateAll first P)).phase = 2), ?_, ?_⟩
  · intro g member
    exact (List.mem_append.mp member).elim (generateF g) (generateS g)
  · rw [conjugateAll_append]
    refine PauliString.ext emptyS (funext fun k => ?_) ?_
    · rcases eq_or_ne k q with rfl | off
      · simpa [PauliString.signedZ] using bitS
      · simpa [PauliString.signedZ, off] using gathered k (by simp) off
    · rcases (parity_eq_zero_iff _).mp signed with zero | two
      · rw [zero]
        rfl
      · rw [two]
        rfl

namespace PauliString

omit [DecidableEq ι]

theorem act_add (P : PauliString ι) (ψ φ : StateVector ι) : P.act (ψ + φ) = P.act ψ + P.act φ :=
  funext fun _ => mul_add _ _ _

theorem act_neg (P : PauliString ι) (ψ : StateVector ι) : P.act (-ψ) = -P.act ψ :=
  funext fun _ => mul_neg _ _

theorem act_one (ψ : StateVector ι) : (1 : PauliString ι).act ψ = ψ := by
  have entries : ∀ b : ZMod 2, columnEntry 0 0 b = 0 := by decide
  funext b
  simp [act, entry, entries]

end PauliString

namespace Tableau

variable {order : List ι} {T U : Tableau ι} {q : ι} {ψ : StateVector ι}

-----------------------------------------------------------------------------------------
-- Every valid tableau stabilizes a vector
-----------------------------------------------------------------------------------------

/-- One more stabilizer fixes a vector: either the sum of the vector and its image is not zero, or
the stabilizer negates the vector and fixes its image under the destabilizer.
-/
theorem Valid.exists_fixed (valid : T.Valid) (rows : List ι)
    : ∃ ψ : StateVector ι, ψ ≠ 0 ∧ ∀ i ∈ rows, (T.stabilizer i).Fixes ψ := by
  induction rows with
  | nil => exact ⟨.zeroState, StateVector.zeroState_ne_zero, by simp⟩
  | cons i rest ih =>
      obtain ⟨ψ, nonzero, fixed⟩ := ih
      have square (φ : StateVector ι) : (T.stabilizer i).act ((T.stabilizer i).act φ) = φ := by
        rw [← PauliString.act_mul, (valid.stabilizerSign i).mul_self, PauliString.act_one]
      by_cases vanishes : ψ + (T.stabilizer i).act ψ = 0
      · by_cases listed : i ∈ rest
        · refine ⟨ψ, nonzero, fun k member => ?_⟩
          rcases List.mem_cons.mp member with rfl | later
          · exact fixed k listed
          · exact fixed k later
        · refine ⟨(T.destabilizer i).act ψ, StateVector.act_ne_zero _ nonzero, fun k member => ?_⟩
          have negated : (T.stabilizer i).act ψ = -ψ := (neg_eq_of_add_eq_zero_right vanishes).symm
          rcases List.mem_cons.mp member with rfl | later
          · rw [PauliString.Fixes, PauliString.act_act_comm, PauliString.form_comm,
              valid.basis.pairing, if_pos rfl, negated, PauliString.act_neg, smul_neg]
            have sign : iPow (signExponent 1) = -1 := iPow_two
            rw [sign, neg_smul, one_smul, neg_neg]
          · have apart : i ≠ k := fun same => listed (same ▸ later)
            rw [PauliString.Fixes, PauliString.act_act_comm, PauliString.form_comm,
              valid.basis.pairing, if_neg apart, map_zero, iPow_zero, one_smul, fixed k later]
      · refine ⟨ψ + (T.stabilizer i).act ψ, vanishes, fun k member => ?_⟩
        rw [PauliString.Fixes, PauliString.act_add]
        rcases List.mem_cons.mp member with rfl | later
        · rw [square, add_comm]
        · rw [PauliString.act_act_comm, valid.basis.stabilizers, map_zero, iPow_zero, one_smul,
            fixed k later]

theorem Valid.exists_stabilizes (valid : T.Valid) : ∃ ψ, T.Stabilizes ψ := by
  obtain ⟨ψ, nonzero, fixed⟩ := valid.exists_fixed Finset.univ.toList
  exact ⟨ψ, nonzero, fun i => fixed i (by simp)⟩

-----------------------------------------------------------------------------------------
-- The group decides the outcomes
-----------------------------------------------------------------------------------------

omit [DecidableEq ι] in
/-- A measurement has a pivot exactly when some element of the group has an X bit on the qubit. -/
theorem noPivot_iff_group
    : (∀ i, (T.stabilizer i).x q = 0) ↔ ∀ P ∈ T.group, P.x q = 0 := by
  constructor
  · intro none P member
    induction member using Subgroup.closure_induction with
    | mem P generator =>
        obtain ⟨i, rfl⟩ := generator
        exact none i
    | one => rfl
    | mul P Q _ _ hp hq =>
        rw [PauliString.mul_x, Pi.add_apply, hp, hq, add_zero]
    | inv P _ hp => exact hp
  · intro none i
    exact none _ (T.stabilizer_mem_group i)

omit [DecidableEq ι] in
/-- The vectors that a tableau stabilizes depend on its group only. -/
theorem Stabilizes.of_group (same : U.group = T.group) (stabilizes : T.Stabilizes ψ)
    : U.Stabilizes ψ where
  nonzero := stabilizes.nonzero
  fixed i := stabilizes.fixes (same ▸ U.stabilizer_mem_group i)

/-- A gate conjugates the group. -/
theorem group_map (T : Tableau ι) (g : Gate ι)
    : (T.map g.conjugate).group = T.group.map g.conjugation := by
  rw [group, group, MonoidHom.map_closure, ← Set.range_comp]
  rfl

/-- Tableaux with the same group report the same outcome, draw the same coins and keep the same
group.
-/
theorem operate_eq_of_group (complete : ∀ i, i ∈ order) (once : order.Nodup) (validT : T.Valid)
    (validU : U.Valid) (same : U.group = T.group) (coins : Stream' Bool) (op : Operation ι)
    : (U.operate order coins op).1 = (T.operate order coins op).1
        ∧ (U.operate order coins op).2.2 = (T.operate order coins op).2.2
        ∧ (U.operate order coins op).2.1.group = (T.operate order coins op).2.1.group := by
  cases op with
  | gate g =>
      refine ⟨rfl, rfl, ?_⟩
      rw [operate, operate, group_map, group_map, same]
  | measure q =>
      have pivots : U.pivot order q = none ↔ T.pivot order q = none := by
        rw [pivot_eq_none complete, pivot_eq_none complete, noPivot_iff_group, noPivot_iff_group,
          same]
      cases foundT : T.pivot order q with
      | none =>
          have foundU := pivots.mpr foundT
          have readT := validT.readout_eq complete once ((pivot_eq_none complete).mp foundT)
          have readU := validU.readout_eq complete once ((pivot_eq_none complete).mp foundU)
          have memberT : T.readout order q ∈ T.group := product_mem_group T (one_mem _) _
          have memberU : U.readout order q ∈ U.group := product_mem_group U (one_mem _) _
          rw [readT] at memberT
          rw [readU, same] at memberU
          obtain ⟨ψ, stabilizes⟩ := validT.exists_stabilizes
          have sign := PauliString.signedZ_unique stabilizes.nonzero (stabilizes.fixes memberU)
            (stabilizes.fixes memberT)
          simp only [operate, foundT, foundU, sign, same, and_self]
      | some p =>
          obtain ⟨r, foundU⟩ : ∃ r, U.pivot order q = some r := by
            rw [← Option.ne_none_iff_exists', Ne, pivots, foundT]
            exact Option.some_ne_none p
          simp only [operate, foundT, foundU, true_and]
          rw [validT.group_collapse (pivot_bit foundT), validU.group_collapse (pivot_bit foundU),
            same]

/-- A circuit is run part by part. -/
theorem run_append (order : List ι) (first second : List (Operation ι)) (T : Tableau ι)
    (coins : Stream' Bool)
    : run order (first ++ second) T coins
      = ((run order first T coins).1
          ++ (run order second (run order first T coins).2.1 (run order first T coins).2.2).1,
        (run order second (run order first T coins).2.1 (run order first T coins).2.2).2) := by
  induction first generalizing T coins with
  | nil => rfl
  | cons op rest ih => simp only [List.cons_append, run, ih, List.append_assoc]

theorem Valid.run (complete : ∀ i, i ∈ order) (once : order.Nodup) (valid : T.Valid)
    (circuit : List (Operation ι)) (coins : Stream' Bool)
    : (Tableau.run order circuit T coins).2.1.Valid := by
  induction circuit generalizing T coins with
  | nil => exact valid
  | cons op rest ih => exact ih ((operate_step valid complete once coins op).valid valid) _

/-- The outcomes of a whole circuit depend on the group only. -/
theorem run_eq_of_group (complete : ∀ i, i ∈ order) (once : order.Nodup) (validT : T.Valid)
    (validU : U.Valid) (same : U.group = T.group) (circuit : List (Operation ι))
    (coins : Stream' Bool)
    : (run order circuit U coins).1 = (run order circuit T coins).1
        ∧ (run order circuit U coins).2.2 = (run order circuit T coins).2.2
        ∧ (run order circuit U coins).2.1.group = (run order circuit T coins).2.1.group := by
  induction circuit generalizing T U coins with
  | nil => exact ⟨rfl, rfl, same⟩
  | cons op rest ih =>
      have stepT := operate_step validT complete once coins op
      have stepU := operate_step validU complete once coins op
      obtain ⟨outcomes, left, groups⟩ :=
        operate_eq_of_group complete once validT validU same coins op
      have later := ih (stepT.valid validT) (stepU.valid validU) groups
        (T.operate order coins op).2.2
      simp only [run, outcomes, left, later, and_self]

-----------------------------------------------------------------------------------------
-- The outcomes decide the group
-----------------------------------------------------------------------------------------

/-- A list of gates conjugates every row and reports nothing. -/
theorem run_gates (gates : List (Gate ι)) (rest : List (Operation ι)) (T : Tableau ι)
    (coins : Stream' Bool)
    : run order (gates.map .gate ++ rest) T coins
      = run order rest (T.map (conjugateAll gates)) coins := by
  induction gates generalizing T with
  | nil => rfl
  | cons g gates ih => exact ih (T.map g.conjugate)

theorem Valid.map_all (valid : T.Valid) (gates : List (Gate ι))
    : (T.map (conjugateAll gates)).Valid := by
  induction gates generalizing T with
  | nil => exact valid
  | cons g gates ih => exact ih (valid.map g.form_conjugate g.hermitian_conjugate)

/-- Gates take exactly the elements of the group into the conjugated group. -/
theorem mem_group_map_all (gates : List (Gate ι)) {P : PauliString ι}
    : conjugateAll gates P ∈ (T.map (conjugateAll gates)).group ↔ P ∈ T.group := by
  induction gates generalizing T P with
  | nil => rfl
  | cons g gates ih =>
      refine (ih (T := T.map g.conjugate) (P := g.conjugate P)).trans ?_
      rw [group_map]
      exact Subgroup.mem_map_iff_mem g.conjugate_injective

/-- A sign that is in the group is reported whatever the coins. -/
theorem operate_of_member (complete : ∀ i, i ∈ order) (once : order.Nodup) (valid : T.Valid)
    {outcome : Bool} (member : PauliString.signedZ q outcome ∈ T.group) (coins : Stream' Bool)
    : (T.operate order coins (.measure q)).1 = [outcome] := by
  obtain ⟨ψ, stabilizes⟩ := valid.exists_stabilizes
  rw [operate_of_sign complete once valid stabilizes (stabilizes.fixes member)]

/-- An outcome that is reported whatever the coins is a sign in the group. -/
theorem member_of_operate (complete : ∀ i, i ∈ order) (once : order.Nodup) (valid : T.Valid)
    {outcome : Bool} (reports : ∀ coins, (T.operate order coins (.measure q)).1 = [outcome])
    : PauliString.signedZ q outcome ∈ T.group := by
  cases found : T.pivot order q with
  | some p =>
      have first := reports (.const (!outcome))
      simp only [operate, found, List.cons.injEq, and_true] at first
      exact absurd first (Bool.not_ne_self outcome)
  | none =>
      have readout := valid.readout_eq complete once ((pivot_eq_none complete).mp found)
      have member : T.readout order q ∈ T.group := product_mem_group T (one_mem _) _
      have here := reports (.const outcome)
      simp only [operate, found, List.cons.injEq, and_true] at here
      rwa [readout, here] at member

/-- All elements of the group commute. -/
theorem Valid.form_group_group (valid : T.Valid) {P Q : PauliString ι} (memberP : P ∈ T.group)
    (memberQ : Q ∈ T.group)
    : P.form Q = 0 := by
  induction memberP using Subgroup.closure_induction with
  | mem P generator =>
      obtain ⟨i, rfl⟩ := generator
      exact valid.form_group memberQ i
  | one => simp [PauliString.form]
  | mul P R _ _ hp hr => rw [PauliString.form_mul_left, hp, hr, add_zero]
  | inv P _ hp => exact hp

/-- All elements of the group are signed. -/
theorem Valid.group_hermitian (valid : T.Valid) {P : PauliString ι} (member : P ∈ T.group)
    : P.Hermitian := by
  induction member using Subgroup.closure_induction with
  | mem P generator =>
      obtain ⟨i, rfl⟩ := generator
      exact valid.stabilizerSign i
  | one => exact map_zero parity
  | mul P Q memberP memberQ hp hq => exact hp.mul hq (valid.form_group_group memberP memberQ)
  | inv P _ hp => exact (map_neg parity _).trans (neg_eq_zero.mpr hp)

/-- The group has no scalars but one. -/
theorem Valid.scalar_eq (valid : T.Valid) {k : ZMod 4}
    (member : (⟨0, 0, k⟩ : PauliString ι) ∈ T.group)
    : (⟨0, 0, k⟩ : PauliString ι) = 1 := by
  obtain ⟨ψ, stabilizes⟩ := valid.exists_stabilizes
  obtain ⟨b, occurs⟩ := Function.ne_iff.mp stabilizes.nonzero
  have entry := (stabilizes.fixes member).entry_eq_zero rfl occurs
  rw [PauliString.entry_eq rfl, zero_dotProduct, map_zero, add_zero] at entry
  exact PauliString.ext rfl rfl entry

/-- Where gates and one measurement cannot tell two tableaux apart, what fixes the vector of one is
in the group of the other.
-/
theorem group_le_of_run (complete : ∀ i, i ∈ order) (once : order.Nodup) (validT : T.Valid)
    (validU : U.Valid)
    (same : ∀ gates : List (Gate ι), (∀ g ∈ gates, g.Generates) → ∀ q coins,
      (run order (gates.map .gate ++ [.measure q]) U coins).1
      = (run order (gates.map .gate ++ [.measure q]) T coins).1)
    : T.group ≤ U.group := by
  intro P member
  by_cases scalar : ∃ k, P = ⟨0, 0, k⟩
  · obtain ⟨k, rfl⟩ := scalar
    rw [validT.scalar_eq member]
    exact U.group.one_mem
  · push Not at scalar
    obtain ⟨gates, q, outcome, generate, moved⟩ :=
      exists_signedZ (validT.group_hermitian member) scalar
    have memberT : PauliString.signedZ q outcome ∈ (T.map (conjugateAll gates)).group := by
      rw [← moved]
      exact (mem_group_map_all gates).mpr member
    have reports (coins : Stream' Bool)
        : ((U.map (conjugateAll gates)).operate order coins (.measure q)).1 = [outcome] := by
      have equal := same gates generate q coins
      rw [run_gates, run_gates] at equal
      simp only [run, List.append_nil] at equal
      rw [equal]
      exact operate_of_member complete once (validT.map_all gates) memberT coins
    have memberU := member_of_operate complete once (validU.map_all gates) reports
    rw [← moved] at memberU
    exact (mem_group_map_all gates).mp memberU

end Tableau

end Stabilizer
