import Sabot.State.Simulation
import Sabot.Stabilizer.Signs

/-! Coins and Pauli instructions decide signs only: the x and z words of a run and the coins it draws
do not depend on them, and the outcomes are an affine function of the coins.
-/

namespace Sabot.Language

/-- The instruction is none of `i`, `x`, `y` and `z`. -/
def Instruction.movesBits : Instruction → Bool
  | ⟨.identity, _⟩ | ⟨.paulix, _⟩ | ⟨.pauliy, _⟩ | ⟨.pauliz, _⟩ => false
  | _ => true

theorem Instruction.operation_movesBits {n : Nat} {instruction : Instruction}
    (within : instruction.Within n)
    : ∃ op, instruction.operation n = some op ∧ op.movesBits = instruction.movesBits := by
  obtain ⟨bytecode, operands⟩ := instruction
  cases bytecode with
  | macroOp => exact within.elim
  | initializeOp => exact within.elim
  | cnot => exact ⟨_, operation_cnot within, rfl⟩
  | _ =>
      simp only [operation, qubit_of_lt (show operands.head.toNat < n from within),
        Option.map_some, Option.some.injEq, exists_eq_left']
      rfl

/-- Leaving instructions out of a program leaves their operations out of its circuit. -/
theorem circuit_filter {n : Nat} {instructions : List Instruction}
    (within : ∀ instruction ∈ instructions, instruction.Within n)
    : (circuit n instructions).filter Stabilizer.Operation.movesBits
      = circuit n (instructions.filter Instruction.movesBits) := by
  induction instructions with
  | nil => rfl
  | cons instruction rest ih =>
      obtain ⟨op, reads, moves⟩ :=
        Instruction.operation_movesBits (within instruction List.mem_cons_self)
      have rest := ih (fun i member => within i (List.mem_cons_of_mem _ member))
      simp only [circuit] at rest
      cases kind : instruction.movesBits with
      | false => simp [circuit, reads, kind, moves, rest]
      | true => simp [circuit, reads, kind, moves, rest]

end Sabot.Language

namespace Sabot.State

open Stabilizer
open Sabot.Language (Instruction circuit circuit_filter)

variable {n : Nat}

/-- A program that starts with `init n` is a run of the abstract machine from the initial tableau. -/
theorem runInstructions_initial (small : n < 2 ^ 31) (d : Discipline) {rest : List Instruction}
    (within : ∀ instruction ∈ rest, instruction.Within n) (state : ChpState)
    (coins : Stream' Bool) {grants : Stream' (Option Int)} (granted : Granted grants)
    : ∃ m, runInstructions d (Instruction.init n :: rest) ⟨state, .empty, ⟨coins, grants⟩⟩
          = some (true, m)
        ∧ Sound n m.state
        ∧ m.buffer.Holds
            ((Tableau.run (List.finRange n) (circuit n rest) .initial coins).1.map character)
        ∧ m.state.tableau n = (Tableau.run (List.finRange n) (circuit n rest) .initial coins).2.1
        ∧ m.world.coins
          = coins.drop (Tableau.drawn (List.finRange n) (circuit n rest) .initial coins) := by
  obtain ⟨start, ranInit, running, fresh, _, world⟩ :=
    runInstructions_init small d rest (m := ⟨state, .empty, ⟨coins, grants⟩⟩) granted
      (ManagedContainer.empty_holds (by decide))
  obtain ⟨outcomes, m, ran, runningM, _, runs⟩ := runInstructions_operates running d within
  have coinsS : start.world.coins = coins := by rw [world]
  rw [fresh, coinsS] at runs
  refine ⟨m, ranInit.trans ran, runningM.sound, ?_, ?_, ?_⟩
  · rw [runs]
    exact runningM.buffer
  · rw [runs]
  · rw [← Tableau.run_coins, runs]

/-- Tableaux that differ in signs only are stored in the same words. -/
theorem words_eq_of_sameBits {s t : ChpState} (soundS : Sound n s) (soundT : Sound n t)
    (same : (s.tableau n).SameBits (t.tableau n)) {j : Nat} (below : j < 2 * n)
    : (s.row j).x = (t.row j).x ∧ (s.row j).z = (t.row j).z := by
  have bits : ((s.row j).toPauli n).SameBits ((t.row j).toPauli n) := by
    rcases Nat.lt_or_ge j n with first | second
    · exact same.destabilizer ⟨j, first⟩
    · have row := same.stabilizer ⟨j - n, by omega⟩
      simp only [ChpState.tableau, Nat.sub_add_cancel second] at row
      exact row
  exact ⟨(soundS.rows j below).x_eq (soundT.rows j below) bits.x,
    (soundS.rows j below).z_eq (soundT.rows j below) bits.z⟩

/-- After every instruction of a program that starts with `init n`, the x and z words of all rows
and the number of coins drawn depend neither on the coins nor on any `i`, `x`, `y` and `z`
inserted or deleted before. The outcomes are affine in the coins.
-/
theorem coins_act_on_signs (small : n < 2 ^ 31) (d : Discipline) {program : List Instruction}
    (within : ∀ instruction ∈ program, instruction.Within n)
    : (∀ first, first <+: program → ∃ drawn, ∀ other : List Instruction,
        (∀ instruction ∈ other, instruction.Within n)
        → other.filter Instruction.movesBits = first.filter Instruction.movesBits
        → ∀ state state' coins coins' grants grants', Granted grants → Granted grants'
        → ∃ m m', runInstructions d (Instruction.init n :: first) ⟨state, .empty, ⟨coins, grants⟩⟩
            = some (true, m)
          ∧ runInstructions d (Instruction.init n :: other) ⟨state', .empty, ⟨coins', grants'⟩⟩
            = some (true, m')
          ∧ (∀ j < 2 * n, (m.state.row j).x = (m'.state.row j).x
            ∧ (m.state.row j).z = (m'.state.row j).z)
          ∧ m.world.coins = coins.drop drawn ∧ m'.world.coins = coins'.drop drawn)
      ∧ ∃ outcomes : Stream' Bool → List Bool,
        (∀ state coins grants, Granted grants → ∃ m,
          runInstructions d (Instruction.init n :: program) ⟨state, .empty, ⟨coins, grants⟩⟩
            = some (true, m)
          ∧ m.buffer.Holds ((outcomes coins).map character)
          ∧ (outcomes coins).length = program.countP isMeasure)
        ∧ ∀ a b c, outcomes (xorStreams a b c) = xors (outcomes a) (outcomes b) (outcomes c) := by
  have valid : (Tableau.initial : Tableau (Fin n)).Valid := Tableau.initial_valid
  have complete : ∀ i : Fin n, i ∈ List.finRange n := List.mem_finRange
  have once := List.nodup_finRange n
  constructor
  · intro first leading
    have withinF (i : Instruction) (member : i ∈ first) := within i (leading.subset member)
    have self : (Tableau.initial : Tableau (Fin n)).SameBits .initial :=
      ⟨fun _ => .refl _, fun _ => .refl _⟩
    refine ⟨Tableau.drawn (List.finRange n) (circuit n first) .initial (.const true), ?_⟩
    intro other withinO skeleton state state' coins coins' grants grants' granted granted'
    have skeletons : (circuit n other).filter Operation.movesBits
        = (circuit n first).filter Operation.movesBits := by
      rw [circuit_filter withinO, circuit_filter withinF, skeleton]
    obtain ⟨m, ran, sound, _, tableau, left⟩ :=
      runInstructions_initial small d withinF state coins granted
    obtain ⟨m', ran', sound', _, tableau', left'⟩ :=
      runInstructions_initial small d withinO state' coins' granted'
    refine ⟨m, m', ran, ran', ?_, ?_, ?_⟩
    · intro j below
      refine words_eq_of_sameBits sound sound' ?_ below
      rw [tableau, tableau']
      exact (self.run (List.finRange n) skeletons.symm coins coins').1
    · rw [left, (self.run (List.finRange n) rfl coins (.const true)).2]
    · rw [left', (self.run (List.finRange n) skeletons coins' (.const true)).2]
  · refine ⟨fun coins => (Tableau.run (List.finRange n) (circuit n program) .initial coins).1, ?_,
      ?_⟩
    · intro state coins grants granted
      obtain ⟨m, ran, _, holds, _⟩ := runInstructions_initial small d within state coins granted
      obtain ⟨φ, evolves, _⟩ := Tableau.run_simulates complete once valid
        Tableau.initial_stabilizes (circuit n program) coins
      exact ⟨m, ran, holds, by rw [evolves.length_outcomes, countP_circuit within]⟩
    · intro a b c
      exact (Tableau.balanced_self .initial).run complete once valid valid valid valid
        (circuit n program) a b c

/-- The outcome of a Hadamard gate and a measurement is affine in the coins. -/
theorem coins_act_on_signs_one
    : ∃ outcomes : Stream' Bool → List Bool,
        (∀ state coins grants, Granted grants → ∃ m,
          runInstructions .allocated
              (Instruction.init 1 :: [⟨.hadamard, .cons 0 .nil⟩, ⟨.measure, .cons 0 .nil⟩])
              ⟨state, .empty, ⟨coins, grants⟩⟩
            = some (true, m)
          ∧ m.buffer.Holds ((outcomes coins).map character)
          ∧ (outcomes coins).length = 1)
        ∧ ∀ a b c, outcomes (xorStreams a b c) = xors (outcomes a) (outcomes b) (outcomes c) :=
  (coins_act_on_signs (by decide) .allocated (by decide)).2

end Sabot.State
