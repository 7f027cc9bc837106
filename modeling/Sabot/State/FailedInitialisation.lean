import Sabot.State.Arrays
import Sabot.State.Extent
import Sabot.Universe

/-! What a program leaves behind when an initialisation in it fails: in the arrays of the state, and
in the system that the state belongs to.
-/

namespace Sabot.State

open Sabot.Language (Instruction Program)

-----------------------------------------------------------------------------------------
-- Runs
-----------------------------------------------------------------------------------------

section Runs

variable {Owner : Type} (owner : Owner)

/-- What an instruction does to the arrays of a state: an initialisation allocates and releases. -/
def stepArrays (a : Arrays Owner) (grants : Stream' (Option Int))
    : Instruction → Option (Bool × Arrays Owner × Stream' (Option Int))
  | ⟨.initializeOp, operands⟩ => initArrays owner operands.head.toNat a grants
  | _ => some (true, a, grants)

/-- What a program does to the arrays of a state. -/
def runArrays : List Instruction → Arrays Owner → Stream' (Option Int)
    → Option (Bool × Arrays Owner × Stream' (Option Int))
  | [], a, grants => some (true, a, grants)
  | instruction :: rest, a, grants => do
      let (ok, a, grants) ← stepArrays owner a grants instruction
      if ok then runArrays rest a grants else return (false, a, grants)

theorem stepArrays_other {instruction : Instruction} (other : instruction.bytecode ≠ .initializeOp)
    (a : Arrays Owner) (grants : Stream' (Option Int))
    : stepArrays owner a grants instruction = some (true, a, grants) := by
  obtain ⟨bytecode, operands⟩ := instruction
  cases bytecode <;> first | rfl | exact absurd rfl other

/-- The pointers that are left of those before. A failure leaves all three stale, unless there were
null pointers before.
-/
def Leaves (before after : Pointers) : Bool → Prop
  | true => after = before ∨ after = .live
  | false => after = .stale 3 ∨ before = .stale 0 ∧ ∃ count, after = .stale count

theorem Leaves.trans {before middle after : Pointers} {ok : Bool}
    (first : Leaves before middle true) (later : Leaves middle after ok)
    : Leaves before after ok := by
  rcases first with rfl | rfl
  · exact later
  · cases ok with
    | true => exact Or.inr (later.elim id id)
    | false => exact Or.inl (later.elim id fun ⟨impossible, _⟩ => by cases impossible)

variable {owner} {d : Discipline} {a : Arrays Owner}

theorem initArrays_follows {n : Nat} {pointers : Pointers} {grants rest : Stream' (Option Int)}
    {ok : Bool} {s : ChpState} (start : pointers = .stale 0 ∨ pointers = .live)
    (describes : Describes owner a pointers)
    (ran : initState d pointers n grants = some (ok, s, rest))
    : ∃ left, initArrays owner n a grants = some (ok, left, rest)
        ∧ Describes owner left s.pointers ∧ Leaves pointers s.pointers ok := by
  cases ok with
  | true =>
      obtain ⟨extent, leftover, granted⟩ := initState_granted ran
      have live : s.pointers = .live := congrArg Extent.pointers extent
      obtain ⟨left, initialised, described⟩ := @initArrays_granted _ owner a _ _ _ _ granted
      exact ⟨left, initialised, live.symm ▸ described, Or.inr live⟩
  | false =>
      obtain ⟨renewed, refused, released⟩ := initState_refused_pointers ran
      have leaves : Leaves pointers (pointers.release renewed) false := by
        rcases start with rfl | rfl
        · exact Or.inr ⟨rfl, renewed, rfl⟩
        · exact Or.inl rfl
      rw [released]
      rcases initArrays_release describes refused with ⟨twice, _⟩ | ⟨left, initialised, described⟩
      · rw [twice] at leaves
        rcases leaves with impossible | ⟨_, _, impossible⟩ <;> cases impossible
      · exact ⟨left, initialised, described, leaves⟩

/-- An instruction does to the arrays what it does to the pointers of the state. -/
theorem stepArrays_follows {instruction : Instruction} {m m' : Machine} {ok : Bool}
    (start : m.state.pointers = .stale 0 ∨ m.state.pointers = .live)
    (describes : Describes owner a m.state.pointers)
    (ran : step d m instruction = some (ok, m'))
    : ∃ left, stepArrays owner a m.world.grants instruction = some (ok, left, m'.world.grants)
        ∧ Describes owner left m'.state.pointers
        ∧ Leaves m.state.pointers m'.state.pointers ok := by
  by_cases initializes : instruction.bytecode = .initializeOp
  · obtain ⟨bytecode, operands⟩ := instruction
    obtain rfl : bytecode = .initializeOp := initializes
    obtain ⟨⟨went, s, rest⟩, init, same⟩ := Option.bind_eq_some_iff.mp ran
    cases same
    exact initArrays_follows start describes init
  · obtain ⟨rfl, same, grants⟩ := step_extent d m initializes _ ran
    have has : m'.state.pointers = m.state.pointers := congrArg Extent.pointers same
    refine ⟨a, ?_, has.symm ▸ describes, Or.inl has⟩
    rw [stepArrays_other owner initializes, grants]

/-- The arrays run along with the state. -/
theorem runArrays_follows {array : List Instruction} {m m' : Machine} {ok : Bool}
    (start : m.state.pointers = .stale 0 ∨ m.state.pointers = .live)
    (describes : Describes owner a m.state.pointers)
    (ran : runInstructions d array m = some (ok, m'))
    : ∃ left, runArrays owner array a m.world.grants = some (ok, left, m'.world.grants)
        ∧ Describes owner left m'.state.pointers
        ∧ Leaves m.state.pointers m'.state.pointers ok := by
  induction array generalizing m a with
  | nil =>
      cases ran
      exact ⟨a, rfl, describes, Or.inl rfl⟩
  | cons instruction rest ih =>
      obtain ⟨⟨went, middle⟩, first, later⟩ := Option.bind_eq_some_iff.mp ran
      obtain ⟨next, stepped, described, leaves⟩ := stepArrays_follows start describes first
      cases went with
      | true =>
          have goesOn : middle.state.pointers = .stale 0 ∨ middle.state.pointers = .live :=
            leaves.elim (fun same => same ▸ start) Or.inr
          obtain ⟨left, ranRest, describesLeft, leavesRest⟩ := ih goesOn described later
          refine ⟨left, ?_, describesLeft, leaves.trans leavesRest⟩
          rw [runArrays, stepped]
          exact ranRest
      | false =>
          cases later
          refine ⟨next, ?_, described, leaves⟩
          rw [runArrays, stepped]
          rfl

variable (owner)

/-- The pointers of a state of `n` qubits: null if it has none, or else each leads to a live block of
the state, with a cell for every row.
-/
def Arrays.Sound (a : Arrays Owner) (n : Nat) : Prop :=
  ∀ pointer ∈ [a.x, a.z, a.r], pointer = none ∧ n = 0
    ∨ ∃ b, pointer = some b ∧ a.heap.block b = some ⟨owner, wrap (2 * n + 1)⟩

/-- A program that fails on a state is dealt with: the arrays are sound, the destructor and another
initialisation release nothing twice, and all entry points report the failure, the one that creates
a state by storing none.
-/
structure FailureHandled (p : Program) (array : List Instruction) (before : ChpState)
    (a : Arrays Owner) (world : World) : Prop where
  sound
    : ∀ after, runProgram .allocated p ⟨before, .empty, world⟩ = some (false, after)
      → ∃ left grants, runArrays owner array a world.grants = some (false, left, grants)
          ∧ left.Sound owner after.state.n ∧ left.destroy ≠ none
          ∧ ∀ n grants, initArrays owner n left grants ≠ none
  modified
    : ∀ after, runProgram .allocated p ⟨before, .empty, world⟩ = some (false, after)
      → modifyState before p world = some (false, after.state, after.world)
  measured
    : ∀ buffer after, runProgram .allocated p ⟨before, buffer, world⟩ = some (false, after)
      → measureState before p buffer world = some (false, after)
  computed
    : ∀ buffer after, runProgram .allocated p ⟨.fresh, buffer, world⟩ = some (false, after)
      → computeResult p buffer world = some (false, after)
  created
    : ∀ after, runProgram .allocated p ⟨.fresh, .empty, world⟩ = some (false, after)
      → ∀ system, (∀ id, (QuantumSystem.programInsertState p (system, world)).1 ≠ .ok id)
          ∧ (QuantumSystem.programInsertState p (system, world)).2.1 = system

variable {owner}

theorem sound_stale_iff {count n : Nat} (describes : Describes owner a (.stale count))
    : a.Sound owner n ↔ count = 0 ∧ n = 0 := by
  obtain ⟨old, rfl, pointTo, _, dead⟩ := describes
  constructor
  · intro sound
    rcases sound a.x List.mem_cons_self with ⟨null, empty⟩ | ⟨b, pointer, block⟩
    · rw [pointTo.x, List.getElem?_eq_none_iff] at null
      exact ⟨by omega, empty⟩
    · rw [pointTo.x] at pointer
      rw [(dead b (List.mem_of_getElem? pointer)).2] at block
      cases block
  · rintro ⟨nothing, rfl⟩ pointer member
    rw [pointTo.x, pointTo.z, pointTo.r, List.eq_nil_of_length_eq_zero nothing] at member
    refine Or.inl ⟨?_, rfl⟩
    simpa using member

/-- A state whose program failed is stored like any other, and its id returned. -/
theorem programInsertState_failed {p : Program} {array : List Instruction}
    (stored : p.instructions.Holds array) {world : World} {after : Machine}
    (describes : Describes owner a (.stale 0))
    (failed : runProgram .allocated p ⟨.fresh, .empty, world⟩ = some (false, after))
    (system : QuantumSystem)
    : (QuantumSystem.programInsertState p (system, world)).1 = .ok system.states.keyGenerator := by
  have encodes : encodeState p world = some (after.state, after.world) := by
    rw [encodeState, failed]
    rfl
  have once : after.state.pointers ≠ .freedTwice := by
    rw [runProgram_eq .allocated stored] at failed
    obtain ⟨left, _, described, _⟩ := runArrays_follows (Or.inl rfl) describes failed
    intro twice
    exact (twice ▸ described : Describes owner left .freedTwice)
  rw [QuantumSystem.programInsertState, encodes, returned, if_neg once]
  rfl

/-- No failure is dealt with. On live arrays it leaves dangling pointers, and on a new state it is
not reported by the entry point that creates one.
-/
theorem failure_not_handled {p : Program} {array : List Instruction}
    (stored : p.instructions.Holds array) {before : ChpState}
    (prior : before = .fresh ∨ before.pointers = .live)
    (describes : Describes owner a before.pointers) {world : World} {after : Machine}
    (failed : runProgram .allocated p ⟨before, .empty, world⟩ = some (false, after))
    : ¬ FailureHandled owner p array before a world := by
  intro handled
  rcases prior with rfl | live
  · have answered := programInsertState_failed stored describes failed ⟨.new 0⟩
    exact (handled.created after failed ⟨.new 0⟩).1 _ answered
  · obtain ⟨left, grants, ran, sound, _⟩ := handled.sound after failed
    rw [runProgram_eq .allocated stored] at failed
    obtain ⟨left', follows, described, leaves⟩ := runArrays_follows (Or.inr live) describes failed
    cases ran.symm.trans follows
    rcases leaves with stale | ⟨null, _⟩
    · rw [stale] at described
      exact absurd ((sound_stale_iff described).mp sound).1 (by decide)
    · rw [live] at null
      cases null

/-- The program `init 3`. -/
def initThree : List Instruction := [⟨.initializeOp, .cons 3 .nil⟩]

/-- An allocator that refuses everything but the first array. -/
def refusing : World := ⟨.const false, .cons (some 0) (.const none)⟩

theorem initThree_fails {p : Program} (stored : p.instructions.Holds initThree) (before : ChpState)
    : ∃ after, runProgram .allocated p ⟨before, .empty, refusing⟩ = some (false, after) := by
  rw [runProgram_eq .allocated stored]
  exact ⟨_, rfl⟩

/-- A state of one qubit whose arrays are live, initialised anew, is left with dangling pointers. -/
theorem failure_not_handled_again
    : ∃ (p : Program) (left : Arrays Unit) (rest : Stream' (Option Int)),
        p.instructions.Holds initThree
        ∧ initArrays () 1 Arrays.null (.const (some 0)) = some (true, left, rest)
        ∧ ¬ FailureHandled () p initThree (clearedState 1 0) left refusing := by
  obtain ⟨p, _, stored⟩ := Program.ofArray_holds initThree
  have granted : allocateArrays 3 3 (.const (some 0)) = (.ok 0, .const (some 0)) := rfl
  obtain ⟨left, initialised, describes⟩ :=
    @initArrays_granted _ () Arrays.null 1 (.const (some 0)) _ _ granted
  obtain ⟨after, failed⟩ := initThree_fails stored (clearedState 1 0)
  exact ⟨p, left, _, stored, initialised,
    failure_not_handled stored (Or.inr rfl) describes failed⟩

/-- On a new state whose second allocation is refused, the destructor would release `x` again. -/
theorem initThree_not_handled
    : ∃ p : Program, p.instructions.Holds initThree
        ∧ (∃ after, runProgram .allocated p ⟨.fresh, .empty, refusing⟩ = some (false, after))
        ∧ ¬ FailureHandled () p initThree .fresh Arrays.null refusing := by
  obtain ⟨p, _, stored⟩ := Program.ofArray_holds initThree
  obtain ⟨after, failed⟩ := initThree_fails stored .fresh
  refine ⟨p, stored, ⟨after, failed⟩, fun handled => ?_⟩
  obtain ⟨left, grants, ran, _, destroyed, _⟩ := handled.sound after failed
  have twice : (runArrays () initThree Arrays.null refusing.grants).map
      (fun result => result.2.1.destroy) = some none :=
    rfl
  rw [ran] at twice
  exact destroyed (Option.some.inj twice)

end Runs

end Sabot.State
