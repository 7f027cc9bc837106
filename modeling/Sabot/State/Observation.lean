import Sabot.Stabilizer.Observation
import Sabot.State.Elimination
import Sabot.State.Simulation

/-! What programs can tell about a stored state, one by one or in sessions: the signed group of its
stabilizers and nothing else. The destabilizers, the order of the rows and Gaussian elimination are
invisible.
-/

namespace Sabot.State

open Stabilizer
open Sabot.Language (Instruction Program circuit qubit qubit_of_lt)

variable {n : Nat}

-----------------------------------------------------------------------------------------
-- Valid states
-----------------------------------------------------------------------------------------

/-- Programs and calls reach sound states with valid tableaux, which stabilize a vector. -/
theorem prepared_of_reachable (small : n < 2 ^ 31) {s : ChpState}
    (reachable : Reachable n s ∨ CallReachable n s)
    : Prepared n s := by
  rcases reachable with programs | calls
  · exact programs.prepared small
  · obtain ⟨sound, valid⟩ := calls.invariant small
    exact ⟨sound, valid, valid.exists_stabilizes⟩

/-- A container holds one list of items. -/
theorem holds_unique {α : Type} {itemSize capacity : Nat}
    {c : ManagedContainer α itemSize capacity} {items others : List α} (first : c.Holds items)
    (second : c.Holds others)
    : items = others := by
  have lengths : items.length = others.length := first.count_eq.symm.trans second.count_eq
  refine List.ext_getElem? fun i => ?_
  by_cases inside : i < items.length
  · rw [← first.slot_eq i inside, second.slot_eq i (lengths ▸ inside)]
  · rw [List.getElem?_eq_none (not_lt.mp inside), List.getElem?_eq_none (by omega)]

theorem character_injective : Function.Injective character := by
  intro a b same
  cases a <;> cases b <;> first | rfl | exact absurd same (by decide)

-----------------------------------------------------------------------------------------
-- Programs that tell states apart
-----------------------------------------------------------------------------------------

/-- No program tells the states apart: with the same coins it writes the same results and draws as
many coins.
-/
def Indistinguishable (n : Nat) (s t : ChpState) : Prop :=
  ∀ (p : Program) (instructions : List Instruction), p.instructions.Holds instructions
    → (∀ instruction ∈ instructions, instruction.Within n)
    → ∀ world, ∃ m m' written, measureState s p .empty world = some (true, m)
      ∧ measureState t p .empty world = some (true, m')
      ∧ m.buffer.Holds written ∧ m'.buffer.Holds written
      ∧ m.world.coins = m'.world.coins

theorem operand_lt (small : n < 2 ^ 31) (q : Fin n) : (UInt64.ofNat q).toNat < n := by
  rw [init_operand (q.isLt.trans small)]
  exact q.isLt

/-- Qubits can be named by operands. -/
theorem qubit_ofNat (small : n < 2 ^ 31) (q : Fin n) : qubit n (UInt64.ofNat q) = some q := by
  rw [qubit_of_lt (operand_lt small q)]
  exact congrArg some (Fin.ext (init_operand (q.isLt.trans small)))

/-- A generating gate is an instruction. -/
theorem exists_instruction (small : n < 2 ^ 31) {g : Gate (Fin n)} (generates : g.Generates)
    : ∃ i : Instruction, i.Within n ∧ i.operation n = some (.gate g) := by
  cases g with
  | hadamard q =>
      refine ⟨⟨.hadamard, .cons (UInt64.ofNat q) .nil⟩, operand_lt small q, ?_⟩
      simp only [Instruction.operation, List.Vector.head_cons, qubit_ofNat small, Option.map_some]
  | phase q =>
      refine ⟨⟨.phase, .cons (UInt64.ofNat q) .nil⟩, operand_lt small q, ?_⟩
      simp only [Instruction.operation, List.Vector.head_cons, qubit_ofNat small, Option.map_some]
  | cnot c t distinct =>
      refine ⟨⟨.cnot, .cons (UInt64.ofNat c) (.cons (UInt64.ofNat t) .nil)⟩, ?_, ?_⟩
      · refine ⟨operand_lt small c, operand_lt small t, ?_⟩
        show (UInt64.ofNat c).toNat ≠ (UInt64.ofNat t).toNat
        rw [init_operand (c.isLt.trans small), init_operand (t.isLt.trans small)]
        exact Fin.val_ne_of_ne distinct
      · show ((qubit n (UInt64.ofNat c)).bind fun control =>
            (qubit n (UInt64.ofNat t)).bind fun target =>
              if distinct : control ≠ target
              then some (Operation.gate (Gate.cnot control target distinct)) else none) = _
        rw [qubit_ofNat small, qubit_ofNat small]
        exact dif_pos distinct
  | identity => exact generates.elim
  | pauli P => exact generates.elim

/-- The generating gates are instructions. -/
theorem exists_instructions (small : n < 2 ^ 31) {gates : List (Gate (Fin n))}
    (generate : ∀ g ∈ gates, g.Generates)
    : ∃ instructions : List Instruction, (∀ i ∈ instructions, i.Within n)
        ∧ circuit n instructions = gates.map .gate := by
  induction gates with
  | nil => exact ⟨[], by simp, rfl⟩
  | cons g rest ih =>
      obtain ⟨i, withinI, reads⟩ := exists_instruction small (generate g List.mem_cons_self)
      obtain ⟨instructions, within, whole⟩ :=
        ih (fun k member => generate k (List.mem_cons_of_mem _ member))
      refine ⟨i :: instructions, ?_, ?_⟩
      · intro k member
        rcases List.mem_cons.mp member with rfl | later
        · exact withinI
        · exact within k later
      · simp only [circuit] at whole
        simp [circuit, reads, whole]

/-- States with the same stabilizer group write the same results, and are left with the same group.
-/
theorem Prepared.measures_same {s t : ChpState} (preparedS : Prepared n s)
    (preparedT : Prepared n t) (same : (t.tableau n).group = (s.tableau n).group) {p : Program}
    {instructions : List Instruction} (stored : p.instructions.Holds instructions)
    (within : ∀ instruction ∈ instructions, instruction.Within n) (world : World)
    : ∃ m m' written, State.measureState s p .empty world = some (true, m)
        ∧ State.measureState t p .empty world = some (true, m')
        ∧ m.buffer.Holds written ∧ m'.buffer.Holds written ∧ m.world = m'.world
        ∧ Prepared n m.state ∧ Prepared n m'.state
        ∧ (m'.state.tableau n).group = (m.state.tableau n).group := by
  obtain ⟨outcomes, m, ranM, bufferM, preparedM, grantsM, runs⟩ :=
    preparedS.measureState stored within world
  obtain ⟨outcomes', m', ranM', bufferM', preparedM', grantsM', runs'⟩ :=
    preparedT.measureState stored within world
  obtain ⟨outcomesEq, left, group⟩ := Tableau.run_eq_of_group List.mem_finRange
    (List.nodup_finRange n) preparedS.valid preparedT.valid same (circuit n instructions) world.coins
  rw [runs, runs'] at outcomesEq left group
  simp only at outcomesEq left group
  refine ⟨m, m', _, ranM, ranM', bufferM, outcomesEq ▸ bufferM', ?_, preparedM, preparedM', group⟩
  cases ends : m.world
  cases ends' : m'.world
  simp only [ends, ends'] at left grantsM grantsM'
  rw [left, grantsM, grantsM']

/-- States with the same stabilizer group are indistinguishable. -/
theorem Prepared.indistinguishable {s t : ChpState} (preparedS : Prepared n s)
    (preparedT : Prepared n t) (same : (t.tableau n).group = (s.tableau n).group)
    : Indistinguishable n s t := by
  intro p instructions stored within world
  obtain ⟨m, m', written, ranM, ranM', bufferM, bufferM', worlds, _⟩ :=
    preparedS.measures_same preparedT same stored within world
  exact ⟨m, m', written, ranM, ranM', bufferM, bufferM', congrArg World.coins worlds⟩

/-- Indistinguishable states have the same outcomes. -/
theorem Indistinguishable.outcomes_eq {s t : ChpState} (same : Indistinguishable n s t)
    (preparedS : Prepared n s) (preparedT : Prepared n t) {instructions : List Instruction}
    (within : ∀ instruction ∈ instructions, instruction.Within n) (coins : Stream' Bool)
    : (Tableau.run (List.finRange n) (circuit n instructions) (t.tableau n) coins).1
      = (Tableau.run (List.finRange n) (circuit n instructions) (s.tableau n) coins).1 := by
  obtain ⟨p, _, stored⟩ := Program.ofArray_holds instructions
  let world : World := ⟨coins, .const none⟩
  obtain ⟨m, m', written, ranM, ranM', bufferM, bufferM', _⟩ :=
    same p instructions stored within world
  obtain ⟨outcomes, k, ranK, bufferK, _, _, runs⟩ := preparedS.measureState stored within world
  obtain ⟨outcomes', k', ranK', bufferK', _, _, runs'⟩ := preparedT.measureState stored within world
  obtain rfl : m = k := by simpa [ranM] using ranK
  obtain rfl : m' = k' := by simpa [ranM'] using ranK'
  have characters := (holds_unique bufferK' bufferM').trans (holds_unique bufferM bufferK)
  have equal : outcomes' = outcomes := List.map_injective_iff.mpr character_injective characters
  rw [show _ = (outcomes, _, _) from runs, show _ = (outcomes', _, _) from runs', equal]

theorem Indistinguishable.symm {s t : ChpState} (same : Indistinguishable n s t)
    : Indistinguishable n t s := by
  intro p instructions stored within world
  obtain ⟨m, m', written, ranM, ranM', bufferM, bufferM', coins⟩ :=
    same p instructions stored within world
  exact ⟨m', m, written, ranM', ranM, bufferM', bufferM, coins.symm⟩

/-- What a program can see of one state is in the group of the other. -/
theorem Indistinguishable.group_le (small : n < 2 ^ 31) {s t : ChpState}
    (same : Indistinguishable n s t) (preparedS : Prepared n s) (preparedT : Prepared n t)
    : (s.tableau n).group ≤ (t.tableau n).group := by
  refine Tableau.group_le_of_run List.mem_finRange (List.nodup_finRange n) preparedS.valid
    preparedT.valid ?_
  intro gates generate q coins
  obtain ⟨instructions, within, whole⟩ := exists_instructions small generate
  have reads : Instruction.operation n ⟨.measure, .cons (UInt64.ofNat q) .nil⟩
      = some (.measure q) := by
    simp only [Instruction.operation, List.Vector.head_cons, qubit_ofNat small, Option.map_some]
  have joined : circuit n (instructions ++ [⟨.measure, .cons (UInt64.ofNat q) .nil⟩])
      = gates.map .gate ++ [.measure q] := by
    simp only [circuit] at whole
    simp [circuit, whole, reads]
  rw [← joined]
  refine same.outcomes_eq preparedS preparedT ?_ coins
  intro i member
  rcases List.mem_append.mp member with early | last
  · exact within i early
  · rw [List.mem_singleton.mp last]
    exact operand_lt small q

/-- Indistinguishable states have the same stabilizer group. -/
theorem Indistinguishable.group_eq (small : n < 2 ^ 31) {s t : ChpState}
    (same : Indistinguishable n s t) (preparedS : Prepared n s) (preparedT : Prepared n t)
    : (s.tableau n).group = (t.tableau n).group :=
  le_antisymm (same.group_le small preparedS preparedT)
    (same.symm.group_le small preparedT preparedS)

-----------------------------------------------------------------------------------------
-- Sessions
-----------------------------------------------------------------------------------------

/-- A later request for a stored state, with the coins and the memory that there are when it is
served: requests for other states may come before it.
-/
inductive StateRequest where
  | modify (p : Program) (world : World)
  | measure (p : Program) (world : World)

namespace StateRequest

def program : StateRequest → Program
  | modify p _ | measure p _ => p

/-- Its program is valid: the instructions are on qubits of the state, and none of them is `init` or
`macro`.
-/
def Valid (n : Nat) (request : StateRequest) : Prop :=
  ∃ instructions, request.program.instructions.Holds instructions
    ∧ ∀ instruction ∈ instructions, instruction.Within n

/-- What comes of a request: whether its program ran to the end, its results, which `modify_state`
does not have, and the coins and the memory that are left.
-/
structure Served where
  ok : Bool
  results : StringBuffer
  left : World

def serve (s : ChpState) : StateRequest → Option (Served × ChpState)
  | modify p world => do
      let (ok, t, left) ← modifyState s p world
      return (⟨ok, .empty, left⟩, t)
  | measure p world => do
      let (ok, m) ← measureState s p .empty world
      return (⟨ok, m.buffer, m.world⟩, m.state)

section Serve

variable {s : ChpState} {p : Program} {world : World} {ok : Bool} {m : Machine}

theorem serve_modify (ran : measureState s p .empty world = some (ok, m))
    : (modify p world).serve s = some (⟨ok, .empty, m.world⟩, m.state) := by
  have program : runProgram .allocated p ⟨s, .empty, world⟩ = some (ok, m) := ran
  simp [serve, modifyState, program]

theorem serve_measure (ran : measureState s p .empty world = some (ok, m))
    : (measure p world).serve s = some (⟨ok, m.buffer, m.world⟩, m.state) := by
  simp [serve, ran]

end Serve

/-- A session: one request after the other. -/
def serveAll : List StateRequest → ChpState → Option (List Served × ChpState)
  | [], s => some ([], s)
  | request :: rest, s => do
      let (served, t) ← request.serve s
      let (others, u) ← serveAll rest t
      return (served :: others, u)

/-- The same comes of two requests, whatever the memory is in which their buffers store it. -/
structure Served.Same (a b : Served) : Prop where
  ok : a.ok = b.ok
  results : ∃ written, a.results.Holds written ∧ b.results.Holds written
  left : a.left = b.left

end StateRequest

open StateRequest (Served serveAll serve_modify serve_measure)

/-- No session with valid programs tells the states apart. -/
def SameSessions (n : Nat) (s t : ChpState) : Prop :=
  ∀ requests : List StateRequest, (∀ request ∈ requests, request.Valid n)
    → ∃ served s' served' t', serveAll requests s = some (served, s')
      ∧ serveAll requests t = some (served', t') ∧ List.Forall₂ Served.Same served served'

/-- The same comes of a request for states with the same stabilizer group, and it keeps their groups
the same.
-/
theorem Prepared.serve_same {s t : ChpState} (preparedS : Prepared n s) (preparedT : Prepared n t)
    (same : (t.tableau n).group = (s.tableau n).group) {request : StateRequest}
    (valid : request.Valid n)
    : ∃ a s' b t', request.serve s = some (a, s') ∧ request.serve t = some (b, t')
        ∧ a.Same b ∧ Prepared n s' ∧ Prepared n t'
        ∧ (t'.tableau n).group = (s'.tableau n).group := by
  obtain ⟨instructions, stored, within⟩ := valid
  cases request with
  | modify p world =>
      obtain ⟨m, m', _, ranM, ranM', _, _, left, preparedM, preparedM', group⟩ :=
        preparedS.measures_same preparedT same stored within world
      have empty : (.empty : StringBuffer).Holds [] := ManagedContainer.empty_holds (by decide)
      exact ⟨_, _, _, _, serve_modify ranM, serve_modify ranM', ⟨rfl, ⟨[], empty, empty⟩, left⟩,
        preparedM, preparedM', group⟩
  | measure p world =>
      obtain ⟨m, m', written, ranM, ranM', bufferM, bufferM', left, preparedM, preparedM', group⟩ :=
        preparedS.measures_same preparedT same stored within world
      exact ⟨_, _, _, _, serve_measure ranM, serve_measure ranM',
        ⟨rfl, ⟨written, bufferM, bufferM'⟩, left⟩, preparedM, preparedM', group⟩

/-- States with the same stabilizer group are the same in every session. By induction on the
requests: what one hands to the next is the group.
-/
theorem Prepared.sameSessions {s t : ChpState} (preparedS : Prepared n s)
    (preparedT : Prepared n t) (same : (t.tableau n).group = (s.tableau n).group)
    : SameSessions n s t := by
  intro requests valid
  induction requests generalizing s t with
  | nil => exact ⟨[], s, [], t, rfl, rfl, .nil⟩
  | cons request rest ih =>
      obtain ⟨a, s', b, t', ranS, ranT, agree, preparedS', preparedT', group⟩ :=
        preparedS.serve_same preparedT same (valid request List.mem_cons_self)
      obtain ⟨served, s'', served', t'', restS, restT, agreeRest⟩ :=
        ih preparedS' preparedT' group (fun k member => valid k (List.mem_cons_of_mem _ member))
      exact ⟨a :: served, s'', b :: served', t'', by simp [serveAll, ranS, restS],
        by simp [serveAll, ranT, restT], .cons agree agreeRest⟩

/-- Sessions of one measurement are enough to tell states apart. -/
theorem SameSessions.indistinguishable {s t : ChpState} (same : SameSessions n s t)
    (preparedS : Prepared n s) (preparedT : Prepared n t)
    : Indistinguishable n s t := by
  intro p instructions stored within world
  obtain ⟨_, m, ranM, _⟩ := preparedS.measureState stored within world
  obtain ⟨_, m', ranM', _⟩ := preparedT.measureState stored within world
  obtain ⟨served, s', served', t', ranS, ranT, agree⟩ :=
    same [.measure p world] (List.forall_mem_singleton.mpr ⟨instructions, stored, within⟩)
  obtain ⟨rfl, _⟩ : [⟨true, m.buffer, m.world⟩] = served ∧ m.state = s' := by
    simpa [serveAll, serve_measure ranM] using ranS
  obtain ⟨rfl, _⟩ : [⟨true, m'.buffer, m'.world⟩] = served' ∧ m'.state = t' := by
    simpa [serveAll, serve_measure ranM'] using ranT
  cases agree with
  | cons agree _ =>
      obtain ⟨_, ⟨written, bufferM, bufferM'⟩, left⟩ := agree
      exact ⟨m, m', written, ranM, ranM', bufferM, bufferM', congrArg World.coins left⟩

/-- No session of requests with valid programs can tell two reachable states of `n` qubits apart if
and only if their stabilizers generate the same signed group. A single measurement can tell apart
whatever a session can.
-/
theorem indistinguishable_iff_group (small : n < 2 ^ 31) {s t : ChpState}
    (reachableS : Reachable n s ∨ CallReachable n s)
    (reachableT : Reachable n t ∨ CallReachable n t)
    : (SameSessions n s t ↔ (s.tableau n).group = (t.tableau n).group)
      ∧ (Indistinguishable n s t ↔ (s.tableau n).group = (t.tableau n).group) := by
  have preparedS := prepared_of_reachable small reachableS
  have preparedT := prepared_of_reachable small reachableT
  refine ⟨⟨fun same => ?_, fun same => ?_⟩, fun same => ?_, fun same => ?_⟩
  · exact (same.indistinguishable preparedS preparedT).group_eq small preparedS preparedT
  · exact preparedS.sameSessions preparedT same.symm
  · exact same.group_eq small preparedS preparedT
  · exact preparedS.indistinguishable preparedT same.symm

/-- A Bell pair, prepared from the one and from the other qubit: neither the stabilizer rows nor the
destabilizer rows are the same.
-/
theorem indistinguishable_iff_group_two
    : ∃ s t, Reachable 2 s ∧ Reachable 2 t
        ∧ (s.tableau 2).stabilizer 0 ≠ (t.tableau 2).stabilizer 0
        ∧ (s.tableau 2).destabilizer 0 ≠ (t.tableau 2).destabilizer 0
        ∧ SameSessions 2 s t ∧ Indistinguishable 2 s t := by
  have small : 2 < 2 ^ 31 := by decide
  have withinS : ∀ instruction ∈ [(⟨.hadamard, .cons 0 .nil⟩ : Instruction),
      ⟨.cnot, .cons 0 (.cons 1 .nil)⟩], instruction.Within 2 := by
    decide
  have withinT : ∀ instruction ∈ [(⟨.hadamard, .cons 1 .nil⟩ : Instruction),
      ⟨.cnot, .cons 1 (.cons 0 .nil)⟩], instruction.Within 2 := by
    decide
  obtain ⟨s, reachableS, ranS⟩ := exists_reachable small withinS (.const true)
  obtain ⟨t, reachableT, ranT⟩ := exists_reachable small withinT (.const true)
  -- The rows of the one are those of the other, in the other order.
  have swapped : ∀ i, (s.tableau 2).stabilizer i = (t.tableau 2).stabilizer (Equiv.swap 0 1 i) := by
    rw [ranS, ranT]
    intro i
    fin_cases i <;> exact PauliString.ext (by decide) (by decide) (by decide)
  have group : (s.tableau 2).group = (t.tableau 2).group := by
    rw [Tableau.group, Tableau.group, funext swapped]
    exact congrArg Subgroup.closure ((Equiv.swap 0 1).surjective.range_comp _)
  obtain ⟨sessions, programs⟩ :=
    indistinguishable_iff_group small (Or.inl reachableS) (Or.inl reachableT)
  refine ⟨s, t, reachableS, reachableT, ?_, ?_, sessions.mpr group, programs.mpr group⟩
  · rw [ranS, ranT]
    intro same
    exact absurd (congrArg PauliString.x same) (by decide)
  · rw [ranS, ranT]
    intro same
    exact absurd (congrArg PauliString.x same) (by decide)

-----------------------------------------------------------------------------------------
-- Elimination between other calls
-----------------------------------------------------------------------------------------

namespace Call

/-- A sequence of calls. -/
def performAll (d : Discipline)
    : List (Call n) → Stream' Bool → ChpState → Option (List Answer × ChpState × Stream' Bool)
  | [], coins, s => some ([], s, coins)
  | call :: rest, coins, s => do
      let (answer, s, coins) ← call.perform d coins s
      let (answers, s, coins) ← performAll d rest coins s
      return (answer :: answers, s, coins)

/-- The circuit operation of a call; elimination is none. -/
def operation : Call n → Option (Operation (Fin n))
  | cnot control target distinct => some (.gate (.cnot control target distinct))
  | hadamard q => some (.gate (.hadamard q))
  | phase q => some (.gate (.phase q))
  | measure q => some (.measure q)
  | gaussian => none

end Call

/-- The outcome that a measurement returns. -/
def Answer.measured : Answer → Option Bool
  | outcome value => some value
  | nothing | generators _ => none

/-- The calls on the state are those on the circuit. -/
structure Performs (T : Tableau (Fin n)) (circuit : List (Operation (Fin n)))
    (coins : Stream' Bool) (answers : List Answer) (t : ChpState) (left : Stream' Bool) : Prop where
  prepared : Prepared n t
  outcomes : (Tableau.run (List.finRange n) circuit T coins).1 = answers.filterMap Answer.measured
  remaining : (Tableau.run (List.finRange n) circuit T coins).2.2 = left
  group : (Tableau.run (List.finRange n) circuit T coins).2.1.group = (t.tableau n).group

/-- One call is its operation. Elimination is none: it keeps the group. -/
theorem Prepared.perform {s : ChpState} (prepared : Prepared n s) (d : Discipline) (call : Call n)
    (coins : Stream' Bool)
    : ∃ answer t left, call.perform d coins s = some (answer, t, left)
        ∧ Performs (s.tableau n) call.operation.toList coins [answer] t left := by
  obtain ⟨sound, valid, ψ, stabilizes⟩ := prepared
  have gate {g : Gate (Fin n)} {result : Option ChpState}
      (refines : Refines n result ((s.tableau n).map g.conjugate))
      : ∃ t, result = some t ∧ Performs (s.tableau n) [.gate g] coins [.nothing] t coins := by
    obtain ⟨t, ran, soundT, tableauT⟩ := refines
    have validT : (t.tableau n).Valid := by
      rw [tableauT]
      exact valid.map g.form_conjugate g.hermitian_conjugate
    exact ⟨t, ran, ⟨soundT, validT, validT.exists_stabilizes⟩, rfl, rfl,
      congrArg Tableau.group tableauT.symm⟩
  cases call with
  | cnot control target distinct =>
      obtain ⟨t, ran, performs⟩ := gate (g := .cnot control target distinct)
        (cnot_refines sound d distinct)
      exact ⟨_, t, _, by simp [Call.perform, ran], performs⟩
  | hadamard q =>
      obtain ⟨t, ran, performs⟩ := gate (g := .hadamard q) (hadamard_refines sound d q)
      exact ⟨_, t, _, by simp [Call.perform, ran], performs⟩
  | phase q =>
      obtain ⟨t, ran, performs⟩ := gate (g := .phase q) (phase_refines sound d q)
      exact ⟨_, t, _, by simp [Call.perform, ran], performs⟩
  | measure q =>
      obtain ⟨outcome, t, left, ran, soundT, operates⟩ := measure_operates sound valid d q coins
      have stepped := Tableau.operate_step valid List.mem_finRange (List.nodup_finRange n) coins
        (.measure q)
      rw [operates] at stepped
      have validT := stepped.valid valid
      have runs : Tableau.run (List.finRange n) [.measure q] (s.tableau n) coins
          = ([outcome], t.tableau n, left) := by
        rw [Tableau.run, operates]
        rfl
      refine ⟨.outcome outcome, t, left, by simp [Call.perform, ran],
        ⟨soundT, validT, validT.exists_stabilizes⟩, ?_, ?_, ?_⟩
      · exact congrArg Prod.fst runs
      · exact congrArg (fun result => result.2.2) runs
      · exact congrArg (fun result => result.2.1.group) runs
  | gaussian =>
      obtain ⟨g, t, ran, soundT, validT, group, _⟩ := gaussian_eliminates sound valid d
      exact ⟨.generators g, t, coins, by simp [Call.perform, ran],
        ⟨soundT, validT, validT.exists_stabilizes⟩, rfl, rfl, group.symm⟩

/-- A sequence of calls is the circuit of its operations, by induction over the calls. What one call
hands to the next is the group of the stabilizers.
-/
theorem Prepared.performAll {s : ChpState} (prepared : Prepared n s) (d : Discipline)
    (calls : List (Call n)) (coins : Stream' Bool)
    : ∃ answers t left, Call.performAll d calls coins s = some (answers, t, left)
        ∧ Performs (s.tableau n) (calls.filterMap Call.operation) coins answers t left := by
  induction calls generalizing s coins with
  | nil => exact ⟨[], s, coins, rfl, prepared, rfl, rfl, rfl⟩
  | cons call rest ih =>
      obtain ⟨answer, t, middle, ran, first⟩ := prepared.perform d call coins
      obtain ⟨answers, u, left, ranRest, second⟩ := ih first.prepared middle
      refine ⟨answer :: answers, u, left, by simp [Call.performAll, ran, ranRest], ?_⟩
      have parts : (call :: rest).filterMap Call.operation
          = call.operation.toList ++ rest.filterMap Call.operation := by
        cases reads : call.operation <;> simp [reads]
      have valid := prepared.valid.run List.mem_finRange (List.nodup_finRange n)
        call.operation.toList coins
      obtain ⟨outcomes, remaining, group⟩ := Tableau.run_eq_of_group List.mem_finRange
        (List.nodup_finRange n) first.prepared.valid valid first.group
        (rest.filterMap Call.operation) middle
      constructor
      case prepared => exact second.prepared
      case outcomes =>
          rw [parts, Tableau.run_append, first.remaining, outcomes, first.outcomes,
            second.outcomes, ← List.filterMap_append]
          rfl
      case remaining =>
          rw [parts, Tableau.run_append, first.remaining, remaining, second.remaining]
      case group =>
          rw [parts, Tableau.run_append, first.remaining, group, second.group]

/-- Let two sequences of calls on indistinguishable states differ in `gaussian` calls only. They
return the same outcomes, draw the same coins and leave indistinguishable states.
-/
theorem gaussian_invisible (small : n < 2 ^ 31) {s s' : ChpState}
    (reachable : Reachable n s ∨ CallReachable n s)
    (reachable' : Reachable n s' ∨ CallReachable n s') (same : Indistinguishable n s s')
    (d : Discipline) {calls calls' : List (Call n)}
    (operations : calls'.filterMap Call.operation = calls.filterMap Call.operation)
    (coins : Stream' Bool)
    : ∃ answers t answers' t' left,
        Call.performAll d calls coins s = some (answers, t, left)
        ∧ Call.performAll d calls' coins s' = some (answers', t', left)
        ∧ answers'.filterMap Answer.measured = answers.filterMap Answer.measured
        ∧ Indistinguishable n t t' := by
  have prepared := prepared_of_reachable small reachable
  have prepared' := prepared_of_reachable small reachable'
  have groups := same.group_eq small prepared prepared'
  obtain ⟨answers, t, left, ran, performs⟩ := prepared.performAll d calls coins
  obtain ⟨answers', t', left', ran', performs'⟩ := prepared'.performAll d calls' coins
  rw [operations] at performs'
  obtain ⟨outcomes, remaining, group⟩ := Tableau.run_eq_of_group List.mem_finRange
    (List.nodup_finRange n) prepared.valid prepared'.valid groups.symm
    (calls.filterMap Call.operation) coins
  obtain rfl : left' = left :=
    performs'.remaining.symm.trans (remaining.trans performs.remaining)
  refine ⟨answers, t, answers', t', left', ran, ran', ?_, ?_⟩
  · exact performs'.outcomes.symm.trans (outcomes.trans performs.outcomes)
  · exact performs.prepared.indistinguishable performs'.prepared
      (performs'.group.symm.trans (group.trans performs.group))

/-- A fresh qubit, with elimination before and after a Hadamard gate or not at all. -/
theorem gaussian_invisible_one
    : ∃ s, Reachable 1 s ∧ ∃ answers t answers' t' left,
        Call.performAll .allocated [Call.hadamard (0 : Fin 1), .measure 0] (.const true) s
          = some (answers, t, left)
        ∧ Call.performAll .allocated [Call.gaussian, .hadamard (0 : Fin 1), .gaussian, .measure 0]
            (.const true) s
          = some (answers', t', left)
        ∧ answers'.filterMap Answer.measured = answers.filterMap Answer.measured
        ∧ Indistinguishable 1 t t' := by
  have small : 1 < 2 ^ 31 := by decide
  have granted : Granted (.const (some 0)) := fun _ _ => rfl
  obtain ⟨s, ran, _⟩ := initState_refines small .allocated (.stale 0) granted
  have reachable : Reachable 1 s := .initialised ran
  have prepared := reachable.prepared small
  refine ⟨s, reachable, ?_⟩
  refine gaussian_invisible small (Or.inl reachable) (Or.inl reachable)
    (prepared.indistinguishable prepared rfl) .allocated ?_ (.const true)
  rfl

end Sabot.State
