import Sabot.Stabilizer.CircuitEquivalence
import Sabot.Stabilizer.Commutation
import Sabot.Stabilizer.Sampling

/-! Clients that operate on qubits of their own. What they are told together has one distribution,
in whatever order their operations are run, although the measurements of one client change the
vector and the coins that the measurements of another one find.
-/

namespace Stabilizer

open Coins
open Function (update update_comm update_of_ne)

variable {ι : Type*} [Fintype ι] [DecidableEq ι] {κ : Type*} [DecidableEq κ]

/-- The two operations act on different qubits. -/
def Operation.Disjoint : Operation ι → Operation ι → Prop
  | .gate g, op => op.Avoids g
  | .measure q, .gate g => g.Off q
  | .measure q, .measure p => q ≠ p

/-- The outcomes that each client is told, when clients run a circuit together. -/
def told : List (κ × Operation ι) → List Bool → κ → List Bool
  | (_, .gate _) :: rest, outcomes => told rest outcomes
  | (client, .measure _) :: rest, outcome :: outcomes =>
      update (told rest outcomes) client (outcome :: told rest outcomes client)
  | _, _ => fun _ => []

open Classical in
/-- The weight that is left of a vector when each client is told the outcomes. -/
noncomputable def jointWeight
    : List (κ × Operation ι) → (κ → List Bool) → StateVector ι → ℝ
  | [], results, ψ => if results = fun _ => [] then ψ.weight else 0
  | (_, .gate g) :: rest, results, ψ => jointWeight rest results (g.unitary ψ)
  | (client, .measure q) :: rest, results, ψ =>
      match results client with
      | [] => 0
      | outcome :: more => jointWeight rest (update results client more) (ψ.project q outcome)

variable {results : κ → List Bool} {ψ : StateVector ι}

-----------------------------------------------------------------------------------------
-- Vectors
-----------------------------------------------------------------------------------------

namespace StateVector

omit [Fintype ι] [DecidableEq ι] in
/-- Projections on different qubits commute. -/
theorem project_comm (q p : ι) (first second : Bool) (ψ : StateVector ι)
    : project p second (project q first ψ) = project q first (project p second ψ) := by
  ext b
  simp only [project]
  split_ifs <;> rfl

/-- A projection is the mean of the vector and its image under the signed `Z`. -/
theorem project_eq_mean (q : ι) (outcome : Bool) (ψ : StateVector ι)
    : project q outcome ψ = (1 / 2 : ℂ) • (ψ + (PauliString.signedZ q outcome).act ψ) := by
  have bits : ∀ a : ZMod 2, a = 0 ∨ a = 1 := by decide
  ext b
  rw [Pi.smul_apply, Pi.add_apply, PauliString.signedZ_act, project, smul_eq_mul]
  rcases bits (b q) with zero | one
  · rw [zero]
    cases outcome <;> simp [iPow_two, iPow_zero]
    ring
  · rw [one]
    cases outcome <;> simp [iPow_two, iPow_zero, show (2 : ZMod 4) + 2 = 0 by decide]
    ring

/-- A gate elsewhere commutes with a projection. -/
theorem unitary_project {g : Gate ι} {q : ι} (off : g.Off q) (outcome : Bool) (ψ : StateVector ι)
    : g.unitary (project q outcome ψ) = project q outcome (g.unitary ψ) := by
  have moved : g.unitary ((PauliString.signedZ q outcome).act ψ)
      = (PauliString.signedZ q outcome).act (g.unitary ψ) := by
    rw [← g.act_conjugate, Gate.conjugate_signedZ_off off]
  rw [project_eq_mean, project_eq_mean, g.unitary_smul, g.unitary_add, moved]

end StateVector

/-- Gates on different qubits commute up to a phase. -/
theorem Gate.exists_phase_comm {g k : Gate ι} (disjoint : g.Disjoint k)
    : ∃ c : ℂ, ‖c‖ = 1 ∧ ∀ ψ, g.unitary (k.unitary ψ) = c • k.unitary (g.unitary ψ) := by
  have same : conjugateAll [k, g] = conjugateAll [g, k] :=
    funext fun P => Gate.conjugate_comm disjoint P
  exact exists_phase same

-----------------------------------------------------------------------------------------
-- The order of the operations
-----------------------------------------------------------------------------------------

section Order

variable {steps rest : List (κ × Operation ι)}

/-- A multiple of a vector leaves a multiple of the weight. -/
theorem jointWeight_smul (steps : List (κ × Operation ι)) (results : κ → List Bool) (c : ℂ)
    (ψ : StateVector ι)
    : jointWeight steps results (c • ψ) = ‖c‖ ^ 2 * jointWeight steps results ψ := by
  induction steps generalizing results ψ with
  | nil =>
      rw [jointWeight, jointWeight, mul_ite, mul_zero, StateVector.weight_smul]
  | cons step rest ih =>
      obtain ⟨client, op⟩ := step
      cases op with
      | gate g =>
          rw [jointWeight, jointWeight, g.unitary_smul, ih]
      | measure q =>
          rw [jointWeight, jointWeight]
          cases results client with
          | nil => exact (mul_zero _).symm
          | cons outcome more =>
              exact (congrArg _ (StateVector.project_smul q outcome c ψ)).trans (ih _ _)

theorem jointWeight_zero (steps : List (κ × Operation ι)) (results : κ → List Bool)
    : jointWeight steps results 0 = 0 := by
  have scaled := jointWeight_smul steps results 0 0
  rwa [smul_zero, norm_zero, zero_pow two_ne_zero, zero_mul] at scaled

/-- A change of the operations behind the first one. -/
theorem jointWeight_congr {others : List (κ × Operation ι)}
    (same : ∀ results ψ, jointWeight steps results ψ = jointWeight others results ψ)
    (step : κ × Operation ι) (results : κ → List Bool) (ψ : StateVector ι)
    : jointWeight (step :: steps) results ψ = jointWeight (step :: others) results ψ := by
  obtain ⟨client, op⟩ := step
  cases op with
  | gate g => exact same _ _
  | measure q =>
      rw [jointWeight, jointWeight]
      cases results client with
      | nil => rfl
      | cons outcome more => exact same _ _

/-- Two clients' operations on different qubits change places. -/
theorem jointWeight_swap {client other : κ} (differ : client ≠ other) {first second : Operation ι}
    (disjoint : first.Disjoint second) (rest : List (κ × Operation ι)) (results : κ → List Bool)
    (ψ : StateVector ι)
    : jointWeight ((client, first) :: (other, second) :: rest) results ψ
      = jointWeight ((other, second) :: (client, first) :: rest) results ψ := by
  cases first with
  | gate g =>
      cases second with
      | gate k =>
          obtain ⟨c, unit, commute⟩ := Gate.exists_phase_comm disjoint
          simp only [jointWeight]
          rw [commute, jointWeight_smul, unit, one_pow, one_mul]
      | measure q =>
          simp only [jointWeight]
          cases results other with
          | nil => rfl
          | cons outcome more =>
              exact congrArg _ (StateVector.unitary_project disjoint outcome ψ).symm
  | measure p =>
      cases second with
      | gate k =>
          simp only [jointWeight]
          cases results client with
          | nil => rfl
          | cons outcome more =>
              exact congrArg _ (StateVector.unitary_project disjoint outcome ψ)
      | measure q =>
          cases mine : results client with
          | nil =>
              cases yours : results other with
              | nil => simp [jointWeight, mine, yours]
              | cons outcome more => simp [jointWeight, mine, yours, update_of_ne differ]
          | cons outcome more =>
              cases yours : results other with
              | nil => simp [jointWeight, mine, yours, update_of_ne differ.symm]
              | cons outcome' more' =>
                  simp only [jointWeight, mine, yours, update_of_ne differ,
                    update_of_ne differ.symm]
                  rw [update_comm differ, StateVector.project_comm]

/-- An operation can be run before those of the other clients. -/
theorem jointWeight_front {client : κ} {op : Operation ι} {before : List (κ × Operation ι)}
    (others : ∀ step ∈ before, step.1 ≠ client)
    (disjoint : ∀ step ∈ before, step.2.Disjoint op) (after : List (κ × Operation ι))
    (results : κ → List Bool) (ψ : StateVector ι)
    : jointWeight (before ++ (client, op) :: after) results ψ
      = jointWeight ((client, op) :: (before ++ after)) results ψ := by
  induction before generalizing results ψ with
  | nil => rfl
  | cons step before ih =>
      have later := ih (fun s member => others s (List.mem_cons_of_mem _ member))
        (fun s member => disjoint s (List.mem_cons_of_mem _ member))
      calc jointWeight (step :: (before ++ (client, op) :: after)) results ψ
          = jointWeight (step :: (client, op) :: (before ++ after)) results ψ :=
            jointWeight_congr later step results ψ
        _ = jointWeight ((client, op) :: step :: (before ++ after)) results ψ :=
            jointWeight_swap (others step List.mem_cons_self)
              (disjoint step List.mem_cons_self) _ _ _

/-- Two orders of the same operations of each client. -/
def SameSteps (steps others : List (κ × Operation ι)) : Prop :=
  ∀ client, steps.filter (·.1 = client) = others.filter (·.1 = client)

omit [Fintype ι] [DecidableEq ι] in
/-- The first operation of the one order is the first one of its client in the other order. -/
theorem SameSteps.cons {client : κ} {op : Operation ι} {others : List (κ × Operation ι)}
    (same : SameSteps ((client, op) :: steps) others)
    : ∃ before after, others = before ++ (client, op) :: after
        ∧ (∀ step ∈ before, step.1 ≠ client) ∧ SameSteps steps (before ++ after) := by
  have mine := same client
  rw [List.filter_cons_of_pos (by simp)] at mine
  obtain ⟨before, after, rfl, apart, _, later⟩ := List.filter_eq_cons_iff.mp mine.symm
  have apart (step : κ × Operation ι) (member : step ∈ before) : step.1 ≠ client := by
    simpa using apart step member
  refine ⟨before, after, rfl, apart, fun d => ?_⟩
  by_cases here : client = d
  · subst here
    have none : before.filter (·.1 = client) = [] := by
      rw [List.filter_eq_nil_iff]
      intro step member
      simpa using apart step member
    rw [List.filter_append, none, List.nil_append]
    exact later.symm
  · simpa [List.filter_cons, here] using same d

omit [Fintype ι] [DecidableEq ι] in
theorem SameSteps.perm {others : List (κ × Operation ι)} (same : SameSteps steps others)
    : steps.Perm others := by
  induction steps generalizing others with
  | nil =>
      cases others with
      | nil => exact .nil
      | cons step rest => simpa using same step.1
  | cons step steps ih =>
      obtain ⟨before, after, rfl, _, remaining⟩ := same.cons
      exact ((ih remaining).cons _).trans List.perm_middle.symm

/-- The order of operations on different qubits leaves no trace. By induction on the one order: its
first operation is brought to the front of the other one.
-/
theorem jointWeight_eq {others : List (κ × Operation ι)} (same : SameSteps steps others)
    (disjoint : ∀ s ∈ steps, ∀ t ∈ steps, s.1 ≠ t.1 → s.2.Disjoint t.2)
    (results : κ → List Bool) (ψ : StateVector ι)
    : jointWeight steps results ψ = jointWeight others results ψ := by
  induction steps generalizing others results ψ with
  | nil => rw [List.nil_perm.mp same.perm]
  | cons step steps ih =>
      obtain ⟨before, after, rfl, apart, remaining⟩ := same.cons
      have first (s : κ × Operation ι) (member : s ∈ before) : s.2.Disjoint step.2 :=
        disjoint s (same.perm.mem_iff.mpr (List.mem_append_left _ member)) step
          List.mem_cons_self (apart s member)
      rw [jointWeight_front apart first]
      exact jointWeight_congr (fun results ψ => ih remaining
        (fun s memberS t memberT => disjoint s (List.mem_cons_of_mem _ memberS) t
          (List.mem_cons_of_mem _ memberT)) results ψ) _ _ _

end Order

-----------------------------------------------------------------------------------------
-- Chances
-----------------------------------------------------------------------------------------

namespace Tableau

variable {order : List ι} {T : Tableau ι} {steps : List (κ × Operation ι)}

/-- What the clients are told by a run on a tableau. -/
def tells (order : List ι) (steps : List (κ × Operation ι)) (T : Tableau ι) (coins : Stream' Bool)
    : κ → List Bool :=
  told steps (run order (steps.map Prod.snd) T coins).1

omit [Fintype ι] [DecidableEq ι] in
/-- An outcome is the next one that its client is told. -/
theorem told_measure_iff {client : κ} {q : ι} {outcome first : Bool} {more outcomes : List Bool}
    (mine : results client = first :: more)
    : told ((client, .measure q) :: steps) (outcome :: outcomes) = results
      ↔ outcome = first ∧ told steps outcomes = update results client more := by
  rw [told]
  constructor
  · intro same
    have here := congrFun same client
    rw [Function.update_self, mine] at here
    obtain ⟨rfl, rfl⟩ := List.cons.inj here
    refine ⟨rfl, ?_⟩
    rw [← same, Function.update_idem, Function.update_eq_self]
  · rintro ⟨rfl, rest⟩
    rw [rest, Function.update_idem, Function.update_self, ← mine, Function.update_eq_self]

omit [Fintype ι] [DecidableEq ι] in
theorem told_measure_ne {client : κ} {q : ι} {outcome : Bool} {outcomes : List Bool}
    (mine : results client = [])
    : told ((client, .measure q) :: steps) (outcome :: outcomes) ≠ results := by
  intro same
  have here := congrFun same client
  rw [told, Function.update_self, mine] at here
  cases here

/-- A run that measures first reports an outcome. -/
theorem run_measure (q : ι) (rest : List (Operation ι)) (coins : Stream' Bool)
    : ∃ outcome outcomes, (run order (.measure q :: rest) T coins).1 = outcome :: outcomes := by
  cases found : T.pivot order q with
  | some p => exact ⟨_, _, by simp only [run, operate, found]; rfl⟩
  | none => exact ⟨_, _, by simp only [run, operate, found]; rfl⟩

section Measurements

variable {client : κ} {q : ι} {first : Bool} {more : List Bool}

/-- A measurement with a pivot tells its client the first coin. -/
theorem chance_tells_random {p : ι} (found : T.pivot order q = some p)
    (mine : results client = first :: more) (D : Nat)
    : chance (D + 1) (fun coins => tells order ((client, .measure q) :: steps) T coins = results)
      = chance D (fun coins =>
          tells order steps (T.collapse q p first) coins = update results client more) / 2 := by
  have taken (outcome : Bool) (coins : Stream' Bool)
      : tells order ((client, .measure q) :: steps) T (Stream'.cons outcome coins) = results
        ↔ outcome = first
          ∧ tells order steps (T.collapse q p outcome) coins = update results client more := by
    unfold tells
    rw [← told_measure_iff (q := q) mine]
    simp [run, operate, found]
  rw [chance_succ]
  simp only [taken]
  cases first with
  | false => simp [chance_false]
  | true => simp [chance_false]

/-- A measurement without a pivot tells its client the sign. -/
theorem chance_tells_determined (found : T.pivot order q = none) {sign : Bool}
    (reads : decide ((T.readout order q).phase = 2) = sign) (mine : results client = first :: more)
    (D : Nat)
    : chance D (fun coins => tells order ((client, .measure q) :: steps) T coins = results)
      = if first = sign
        then chance D (fun coins => tells order steps T coins = update results client more)
        else 0 := by
  have taken (coins : Stream' Bool)
      : tells order ((client, .measure q) :: steps) T coins = results
        ↔ sign = first ∧ tells order steps T coins = update results client more := by
    unfold tells
    rw [← told_measure_iff (q := q) mine]
    simp [run, operate, found, reads]
  simp only [taken]
  split
  · rename_i same
    simp [same]
  · rename_i differ
    simp [Ne.symm differ, chance_false]

end Measurements

/-- With as many fair coins as there are measurements, the chance of what the clients are told is
the weight that it leaves of the vector that the tableau stabilizes. By induction on the
operations, as for the outcomes of a single client.
-/
theorem chance_tells (complete : ∀ i, i ∈ order) (once : order.Nodup) (valid : T.Valid)
    (stabilizes : T.Stabilizes ψ) (steps : List (κ × Operation ι)) {D : Nat}
    (enough : (steps.map Prod.snd).countP Operation.isMeasure ≤ D) (results : κ → List Bool)
    : chance D (fun coins => tells order steps T coins = results) * ψ.weight
      = jointWeight steps results ψ := by
  induction steps generalizing T ψ D results with
  | nil =>
      rw [jointWeight]
      split
      · rename_i empty
        simp [tells, told, empty, chance_true]
      · rename_i other
        simp [tells, told, Ne.symm other, chance_false]
  | cons step rest ih =>
      obtain ⟨client, op⟩ := step
      cases op with
      | gate g =>
          have counted : (rest.map Prod.snd).countP Operation.isMeasure ≤ D := by
            simpa [Operation.isMeasure] using enough
          rw [jointWeight, ← ih (valid.map g.form_conjugate g.hermitian_conjugate)
            (stabilizes.map g.act_conjugate (g.unitary_ne_zero stabilizes.nonzero)) counted,
            g.weight_unitary]
          rfl
      | measure q =>
          have counted : (rest.map Prod.snd).countP Operation.isMeasure + 1 ≤ D := by
            simpa [Operation.isMeasure, List.countP_cons] using enough
          rw [jointWeight]
          cases mine : results client with
          | nil =>
              have never (coins : Stream' Bool)
                  : tells order ((client, .measure q) :: rest) T coins = results ↔ False := by
                obtain ⟨outcome, outcomes, reported⟩ := run_measure q (rest.map Prod.snd) coins
                rw [tells, List.map_cons, reported]
                exact iff_of_false (told_measure_ne mine) id
              simp only [never]
              rw [chance_false, zero_mul]
          | cons first more =>
              show _ = jointWeight rest (update results client more) (ψ.project q first)
              cases found : T.pivot order q with
              | some p =>
                  have bit := pivot_bit found
                  obtain ⟨D, rfl⟩ : ∃ k, D = k + 1 := ⟨D - 1, by omega⟩
                  have half := stabilizes.probability_eq_half bit first
                  rw [StateVector.probability,
                    div_eq_iff (StateVector.weight_ne_zero stabilizes.nonzero)] at half
                  have enoughD : (rest.map Prod.snd).countP Operation.isMeasure ≤ D := by omega
                  rw [chance_tells_random found mine, ← ih (valid.collapse bit first)
                    (stabilizes.collapse bit first) enoughD, half]
                  ring
              | none =>
                  have noPivot := (pivot_eq_none complete).mp found
                  have readout := valid.readout_eq complete once noPivot
                  have member : T.readout order q ∈ T.group := product_mem_group T (one_mem _) _
                  rw [readout] at member
                  have fixed := stabilizes.fixes member
                  rw [chance_tells_determined found rfl mine]
                  split
                  · rename_i same
                    subst same
                    rw [fixed.project_eq]
                    exact ih valid stabilizes (by omega) _
                  · rename_i differ
                    have never := StateVector.probability_eq_zero fixed.project_eq
                    rw [← Bool.eq_not_of_ne differ, StateVector.probability, div_eq_zero_iff]
                      at never
                    have nothing := (StateVector.weight_eq_zero_iff _).mp
                      (never.resolve_right (StateVector.weight_ne_zero stabilizes.nonzero))
                    rw [nothing, jointWeight_zero, zero_mul]

/-- The order of operations on different qubits does not change how what the clients are told is
distributed.
-/
theorem chance_tells_eq (complete : ∀ i, i ∈ order) (once : order.Nodup) (valid : T.Valid)
    (stabilizes : T.Stabilizes ψ) {others : List (κ × Operation ι)} (same : SameSteps steps others)
    (disjoint : ∀ s ∈ steps, ∀ t ∈ steps, s.1 ≠ t.1 → s.2.Disjoint t.2) {D : Nat}
    (enough : (steps.map Prod.snd).countP Operation.isMeasure ≤ D) (event : (κ → List Bool) → Prop)
    : chance D (fun coins => event (tells order steps T coins))
      = chance D (fun coins => event (tells order others T coins)) := by
  have enough' := enough
  rw [(same.perm.map Prod.snd).countP_eq] at enough'
  refine chance_eq_of_values (fun results => ?_) event
  have first := chance_tells complete once valid stabilizes steps enough results
  have second := chance_tells complete once valid stabilizes others enough' results
  rw [jointWeight_eq same disjoint, ← second] at first
  exact mul_right_cancel₀ (StateVector.weight_ne_zero stabilizes.nonzero) first

/-- A run reports one outcome for each measurement. -/
theorem length_run (circuit : List (Operation ι)) (T : Tableau ι) (coins : Stream' Bool)
    : (run order circuit T coins).1.length = circuit.countP Operation.isMeasure := by
  induction circuit generalizing T coins with
  | nil => rfl
  | cons op rest ih =>
      rw [run, List.length_append, ih, List.countP_cons, Nat.add_comm]
      cases op with
      | gate g => rfl
      | measure q => cases found : T.pivot order q <;> simp [operate, found, Operation.isMeasure]

omit [Fintype ι] [DecidableEq ι] in
/-- A client is told what it was told before and after. -/
theorem told_append {before after : List (κ × Operation ι)} {first second : List Bool}
    (counted : first.length = (before.map Prod.snd).countP Operation.isMeasure)
    : told (before ++ after) (first ++ second)
      = fun client => told before first client ++ told after second client := by
  induction before generalizing first with
  | nil =>
      rw [List.length_eq_zero_iff.mp counted]
      rfl
  | cons step rest ih =>
      obtain ⟨other, op⟩ := step
      cases op with
      | gate g => exact ih (by simpa [Operation.isMeasure] using counted)
      | measure q =>
          have here : first.length = (rest.map Prod.snd).countP Operation.isMeasure + 1 := by
            simpa [Operation.isMeasure, List.countP_cons] using counted
          cases first with
          | nil => cases here
          | cons outcome first =>
              funext client
              rw [List.cons_append, List.cons_append, told, told, ih (Nat.succ.inj here)]
              by_cases same : client = other
              · rw [same, Function.update_self, Function.update_self, List.cons_append]
              · rw [update_of_ne same, update_of_ne same]

omit [Fintype ι] [DecidableEq ι] in
/-- A client is told all outcomes of a circuit of its own. -/
theorem told_own {circuit : List (Operation ι)} {outcomes : List Bool}
    (counted : outcomes.length = circuit.countP Operation.isMeasure) (client : κ)
    : told (circuit.map fun op => (client, op)) outcomes
      = fun other => if client = other then outcomes else [] := by
  induction circuit generalizing outcomes with
  | nil =>
      rw [List.length_eq_zero_iff.mp counted]
      exact funext fun _ => (ite_self _).symm
  | cons op rest ih =>
      cases op with
      | gate g => exact ih (by simpa [Operation.isMeasure] using counted)
      | measure q =>
          have here : outcomes.length = rest.countP Operation.isMeasure + 1 := by
            simpa [Operation.isMeasure, List.countP_cons] using counted
          cases outcomes with
          | nil => cases here
          | cons outcome outcomes =>
              funext other
              rw [List.map_cons, told, ih (Nat.succ.inj here)]
              by_cases same : client = other
              · subst same
                simp
              · rw [update_of_ne (Ne.symm same), if_neg same, if_neg same]

omit [Fintype ι] [DecidableEq ι] in
/-- A client is told nothing about the operations of others. -/
theorem told_others {client : κ} (others : ∀ step ∈ steps, step.1 ≠ client) (outcomes : List Bool)
    : told steps outcomes client = [] := by
  induction steps generalizing outcomes with
  | nil => rfl
  | cons step rest ih =>
      obtain ⟨other, op⟩ := step
      have later := ih (fun s member => others s (List.mem_cons_of_mem _ member))
      cases op with
      | gate g => exact later outcomes
      | measure q =>
          cases outcomes with
          | nil => rfl
          | cons outcome outcomes =>
              rw [told, update_of_ne (others _ List.mem_cons_self).symm]
              exact later outcomes

/-- What a client is told is distributed as if the others did nothing. -/
theorem chance_tells_own (complete : ∀ i, i ∈ order) (once : order.Nodup) (valid : T.Valid)
    (stabilizes : T.Stabilizes ψ)
    (disjoint : ∀ s ∈ steps, ∀ t ∈ steps, s.1 ≠ t.1 → s.2.Disjoint t.2) {D : Nat}
    (enough : (steps.map Prod.snd).countP Operation.isMeasure ≤ D) (client : κ)
    (event : List Bool → Prop)
    : chance D (fun coins => event (tells order steps T coins client))
      = chance D (fun coins =>
          event (tells order (steps.filter (·.1 = client)) T coins client)) := by
  let own := steps.filter (·.1 = client)
  let foreign := steps.filter (fun step => !decide (step.1 = client))
  have same : SameSteps steps (own ++ foreign) := by
    intro d
    simp only [own, foreign, List.filter_append, List.filter_filter]
    by_cases here : d = client
    · subst here
      simp
    · have none : steps.filter (fun step => decide (step.1 = d) && decide (step.1 = client)) = [] := by
        rw [List.filter_eq_nil_iff]
        intro step _
        simp only [Bool.and_eq_true, decide_eq_true_eq, not_and]
        rintro rfl
        exact here
      have whole : steps.filter (fun step => decide (step.1 = d) && !decide (step.1 = client))
          = steps.filter (·.1 = d) := by
        refine List.filter_congr fun step _ => ?_
        by_cases label : step.1 = d
        · simp [label, here]
        · simp [label]
      rw [none, whole, List.nil_append]
  rw [chance_tells_eq complete once valid stabilizes same disjoint enough
    (fun results => event (results client))]
  refine chance_congr fun coins => ?_
  have joined : tells order (own ++ foreign) T coins client = tells order own T coins client := by
    have apart : ∀ step ∈ foreign, step.1 ≠ client := by simp [foreign]
    rw [tells, List.map_append, run_append, told_append (length_run _ _ _)]
    show _ ++ told foreign _ client = _
    rw [told_others apart, List.append_nil]
    rfl
  rw [joined]

end Tableau

end Stabilizer
