import Sabot.ManagedContainer

/-! Several containers that are added to, trimmed and moved. Each is a list, although moves copy
bytes of the stack buffer whatever the size of an item, and sizes are words.
-/

namespace Sabot

namespace ManagedContainer

variable {α : Type} {itemSize stackCapacityT : Nat}

/-- `add` with its new size, capacity and count as they were computed. -/
def addSized (newSize newCapacity newCount : Nat)
    (c : ManagedContainer α itemSize stackCapacityT) (items : List α)
    : Option (ManagedContainer α itemSize stackCapacityT) := do
  if newSize < (← c.capacity) then
    match c.heap with
    | some slots => return { c with count := newCount, heap := some (blit slots c.count items) }
    | none =>
        return {
          c with
          count := newCount
          stack := blit c.stack c.count items
          heapCapacity := if items ≠ [] ∧ overlaid itemSize c.count then none else c.heapCapacity
        }
  else
    let copied : Nat → Option α := fun i => if i < c.count then c.data i else none
    return {
      count := newCount
      heap := some (blit copied c.count items)
      stack := fun i => if overlaid itemSize i then none else c.stack i
      heapCapacity := some newCapacity
    }

/-- `add` in the arithmetic of 64-bit words. -/
def addWords (c : ManagedContainer α itemSize stackCapacityT) (items : List α)
    : Option (ManagedContainer α itemSize stackCapacityT) :=
  let newSize := (c.count + items.length) * itemSize % 2 ^ 64
  c.addSized newSize ((newSize + 8 - 1) % 2 ^ 64 / 8 * 8) ((c.count + items.length) % 2 ^ 64) items

/-- Remove a given number of items at the end of the buffer; the count is a word and wraps below
zero.
-/
def trim (c : ManagedContainer α itemSize stackCapacityT) (count : Nat)
    : ManagedContainer α itemSize stackCapacityT :=
  { c with count := if count ≤ c.count then c.count - count else c.count + 2 ^ 64 - count }

/-- The slots of a stack buffer after `memcpy(_stack, old._stack, stackCapacity)`: the items that
lie within the copied bytes, no item where the copy ends inside of it, and what was there before.
-/
def copyStack (stackCapacityT itemSize : Nat) (source target : Nat → Option α)
    : Nat → Option α :=
  fun i =>
    if (i + 1) * itemSize ≤ stackCapacity stackCapacityT then source i
    else if i * itemSize < stackCapacity stackCapacityT then none
    else target i

/-- The capacity survives the copy when its eight bytes do. -/
def copyCapacity (stackCapacityT : Nat) (source : Option Nat) : Option Nat :=
  if 8 ≤ stackCapacity stackCapacityT then source else none

/-- Move assignment: the target takes the count, the heap and the first bytes of the stack. -/
def moveAssign (target old : ManagedContainer α itemSize stackCapacityT)
    : ManagedContainer α itemSize stackCapacityT where
  count := old.count
  heap := old.heap
  stack := copyStack stackCapacityT itemSize old.stack target.stack
  heapCapacity := copyCapacity stackCapacityT old.heapCapacity

/-- The move constructor, whose stack buffer holds nothing before the copy. -/
def moveConstruct (old : ManagedContainer α itemSize stackCapacityT)
    : ManagedContainer α itemSize stackCapacityT :=
  moveAssign { count := 0, heap := none, stack := fun _ => none, heapCapacity := none } old

/-- What a move leaves of its source: no items and no heap, but the bytes of its stack. -/
def movedFrom (old : ManagedContainer α itemSize stackCapacityT)
    : ManagedContainer α itemSize stackCapacityT :=
  { old with count := 0, heap := none }

-----------------------------------------------------------------------------------------
-- Each operation on one container
-----------------------------------------------------------------------------------------

theorem add_eq_addSized (c : ManagedContainer α itemSize stackCapacityT) (items : List α)
    : c.add items
      = c.addSized ((c.count + items.length) * itemSize)
          (roundToMultiple ((c.count + items.length) * itemSize) 8) (c.count + items.length)
          items :=
  rfl

/-- Below `2^63` bytes no size wraps. -/
theorem addWords_eq_add (positive : 0 < itemSize)
    (c : ManagedContainer α itemSize stackCapacityT) (items : List α)
    (bytes : (c.count + items.length) * itemSize < 2 ^ 63)
    : c.addWords items = c.add items := by
  have count : c.count + items.length ≤ (c.count + items.length) * itemSize :=
    Nat.le_mul_of_pos_right _ positive
  have size : (c.count + items.length) * itemSize % 2 ^ 64
      = (c.count + items.length) * itemSize := Nat.mod_eq_of_lt (by omega)
  rw [add_eq_addSized, addWords, size, Nat.mod_eq_of_lt (by omega : c.count + items.length < 2 ^ 64),
    Nat.mod_eq_of_lt (by omega), roundToMultiple]

theorem eight_le_stackCapacity (positive : 0 < stackCapacityT)
    : 8 ≤ stackCapacity stackCapacityT :=
  le_roundToMultiple 8 positive

variable {c : ManagedContainer α itemSize stackCapacityT} {items : List α}

/-- No more items are stored than the capacity has room for. -/
theorem Holds.count_le_capacity (positive : 0 < itemSize) (holds : c.Holds items)
    : ∃ capacity, c.capacity = some capacity ∧ c.count ≤ capacity := by
  obtain ⟨capacity, stored, fits⟩ := holds.capacity
  exact ⟨capacity, stored, (Nat.le_mul_of_pos_right _ positive).trans fits⟩

@[simp] theorem trim_heap (c : ManagedContainer α itemSize stackCapacityT) (count : Nat)
    : (c.trim count).heap = c.heap :=
  rfl

@[simp] theorem trim_heapCapacity (c : ManagedContainer α itemSize stackCapacityT) (count : Nat)
    : (c.trim count).heapCapacity = c.heapCapacity :=
  rfl

@[simp] theorem trim_data (c : ManagedContainer α itemSize stackCapacityT) (count : Nat)
    : (c.trim count).data = c.data :=
  rfl

@[simp] theorem trim_capacity (c : ManagedContainer α itemSize stackCapacityT) (count : Nat)
    : (c.trim count).capacity = c.capacity :=
  rfl

/-- Adding never lowers the capacity: a new heap buffer has room for what the old one had not. -/
theorem capacity_le_add {next : ManagedContainer α itemSize stackCapacityT}
    {more : List α} (added : c.add more = some next) {old : Nat} (stored : c.capacity = some old)
    : ∃ new, next.capacity = some new ∧ old ≤ new := by
  rw [add_eq_addSized, addSized, stored, Option.bind_eq_bind, Option.bind_some] at added
  split at added
  · rename_i fits
    cases mode : c.heap with
    | some slots =>
        simp only [mode, Option.pure_def, Option.some.injEq] at added
        rw [← added]
        exact ⟨old, by simpa [capacity, mode] using stored, le_rfl⟩
    | none =>
        simp only [mode, Option.pure_def, Option.some.injEq] at added
        rw [← added]
        exact ⟨old, by simpa [capacity, mode] using stored, le_rfl⟩
  · rename_i full
    simp only [Option.pure_def, Option.some.injEq] at added
    rw [← added]
    exact ⟨_, rfl, (not_lt.mp full).trans (le_roundToMultiple _ (by decide))⟩

theorem Holds.trim (holds : c.Holds items) {count : Nat} (enough : count ≤ items.length)
    : (c.trim count).Holds (items.take (items.length - count)) := by
  have kept : (c.trim count).count = items.length - count := by
    rw [← holds.count_eq] at enough ⊢
    exact if_pos enough
  have fewer : (c.trim count).count * itemSize ≤ c.count * itemSize := by
    rw [kept, holds.count_eq]
    exact Nat.mul_le_mul_right _ (Nat.sub_le _ _)
  have length : (items.take (items.length - count)).length = items.length - count := by
    rw [List.length_take, Nat.min_eq_left (Nat.sub_le _ _)]
  refine {
    count_eq := kept.trans length.symm
    slot_eq := ?_
    stackFit := ?_
    heapFit := ?_
  }
  · intro i below
    rw [length] at below
    rw [trim_data, List.getElem?_take_of_lt below]
    exact holds.slot_eq i (by omega)
  · intro stack
    rw [trim_heap] at stack
    exact lt_of_le_of_lt fewer (holds.stackFit stack)
  · intro heap
    rw [trim_heap] at heap
    obtain ⟨capacity, stored, fits⟩ := holds.heapFit heap
    exact ⟨capacity, (trim_heapCapacity c count).trans stored, fewer.trans fits⟩

/-- A move hands over every item: those in the stack buffer lie within the bytes it copies. -/
theorem Holds.moveAssign (positive : 0 < stackCapacityT) (holds : c.Holds items)
    (target : ManagedContainer α itemSize stackCapacityT)
    : (target.moveAssign c).Holds items := by
  have capacity : copyCapacity stackCapacityT c.heapCapacity = c.heapCapacity :=
    if_pos (eight_le_stackCapacity positive)
  refine {
    count_eq := holds.count_eq
    slot_eq := ?_
    stackFit := fun stack => holds.stackFit stack
    heapFit := ?_
  }
  · intro i below
    rw [← holds.slot_eq i below]
    cases mode : c.heap with
    | some slots => simp [data, ManagedContainer.moveAssign, mode]
    | none =>
        have fits := holds.stackFit mode
        have before : (i + 1) * itemSize ≤ c.count * itemSize := by
          rw [holds.count_eq]
          exact Nat.mul_le_mul_right _ below
        simp [data, ManagedContainer.moveAssign, mode, copyStack, (before.trans fits.le)]
  · intro heap
    obtain ⟨room, stored, fits⟩ := holds.heapFit heap
    exact ⟨room, capacity.trans stored, fits⟩

theorem movedFrom_holds (positive : 0 < stackCapacityT)
    (c : ManagedContainer α itemSize stackCapacityT)
    : c.movedFrom.Holds [] where
  count_eq := rfl
  slot_eq i below := absurd below (Nat.not_lt_zero i)
  stackFit _ := by
    simpa [movedFrom] using stackCapacity_pos positive
  heapFit heap := absurd rfl heap

-----------------------------------------------------------------------------------------
-- Sequences of operations on several containers
-----------------------------------------------------------------------------------------

/-- Containers by name. -/
abbrev Objects (α : Type) (itemSize stackCapacityT : Nat) :=
  Nat → ManagedContainer α itemSize stackCapacityT

/-- An operation on named containers; a move names the container it makes or assigns to first. -/
inductive Operation (α : Type) where
  | add (object : Nat) (items : List α)
  | trim (object count : Nat)
  | moveConstruct (object old : Nat)
  | moveAssign (object old : Nat)

def Operation.perform (objects : Objects α itemSize stackCapacityT)
    : Operation α → Option (Objects α itemSize stackCapacityT)
  | .add object items => do
      return Function.update objects object (← (objects object).addWords items)
  | .trim object count => some (Function.update objects object ((objects object).trim count))
  | .moveConstruct object old =>
      some (Function.update (Function.update objects object (objects old).moveConstruct) old
        (objects old).movedFrom)
  | .moveAssign object old =>
      let assigned := (objects object).moveAssign (objects old)
      some (Function.update (Function.update objects object assigned) old (objects old).movedFrom)

/-- What an operation does to lists. -/
def Operation.apply (lists : Nat → List α) : Operation α → Nat → List α
  | .add object items => Function.update lists object (lists object ++ items)
  | .trim object count =>
      Function.update lists object ((lists object).take ((lists object).length - count))
  | .moveConstruct object old | .moveAssign object old =>
      Function.update (Function.update lists object (lists old)) old []

/-- Fewer than `2^63` bytes are stored, no more is trimmed than there is, and moves are between
distinct containers.
-/
def Operation.Allowed (itemSize : Nat) (lists : Nat → List α) : Operation α → Prop
  | .add object items => (lists object ++ items).length * itemSize < 2 ^ 63
  | .trim object count => count ≤ (lists object).length
  | .moveConstruct object old | .moveAssign object old => object ≠ old

def performAll : List (Operation α) → Objects α itemSize stackCapacityT
    → Option (Objects α itemSize stackCapacityT)
  | [], objects => some objects
  | operation :: rest, objects => do performAll rest (← operation.perform objects)

def applyAll : List (Operation α) → (Nat → List α) → Nat → List α
  | [], lists => lists
  | operation :: rest, lists => applyAll rest (operation.apply lists)

/-- Each operation is allowed on the lists that those before it leave. -/
def AllAllowed (itemSize : Nat) : List (Operation α) → (Nat → List α) → Prop
  | [], _ => True
  | operation :: rest, lists =>
      operation.Allowed itemSize lists ∧ AllAllowed itemSize rest (operation.apply lists)

section Sequences

variable (positiveSize : 0 < itemSize) (positiveCapacity : 0 < stackCapacityT)
include positiveSize positiveCapacity

omit positiveSize positiveCapacity in
/-- Storing lists survives an update of one container and its list. -/
theorem holds_update {objects : Objects α itemSize stackCapacityT} {lists : Nat → List α}
    (holds : ∀ k, (objects k).Holds (lists k)) {object : Nat}
    {c : ManagedContainer α itemSize stackCapacityT} {items : List α} (here : c.Holds items)
    : ∀ k, (Function.update objects object c k).Holds (Function.update lists object items k) := by
  intro k
  by_cases same : k = object
  · subst same
    simpa using here
  · simpa [same] using holds k

theorem Operation.perform_holds {objects : Objects α itemSize stackCapacityT}
    {lists : Nat → List α} (holds : ∀ k, (objects k).Holds (lists k)) (operation : Operation α)
    (allowed : operation.Allowed itemSize lists)
    : ∃ next, operation.perform objects = some next
        ∧ ∀ k, (next k).Holds (operation.apply lists k) := by
  cases operation with
  | add object items =>
      have bytes : ((objects object).count + items.length) * itemSize < 2 ^ 63 := by
        rw [(holds object).count_eq, ← List.length_append]
        exact allowed
      obtain ⟨c, added, stored⟩ := (holds object).add items
      refine ⟨_, ?_, holds_update holds stored⟩
      rw [perform, addWords_eq_add positiveSize _ _ bytes, added]
      rfl
  | trim object count =>
      exact ⟨_, rfl, holds_update holds ((holds object).trim allowed)⟩
  | moveConstruct object old =>
      exact ⟨_, rfl, holds_update (holds_update holds ((holds old).moveAssign positiveCapacity _))
        (movedFrom_holds positiveCapacity _)⟩
  | moveAssign object old =>
      exact ⟨_, rfl, holds_update (holds_update holds ((holds old).moveAssign positiveCapacity _))
        (movedFrom_holds positiveCapacity _)⟩

theorem performAll_holds (operations : List (Operation α))
    {objects : Objects α itemSize stackCapacityT} {lists : Nat → List α}
    (holds : ∀ k, (objects k).Holds (lists k)) (allowed : AllAllowed itemSize operations lists)
    : ∃ next, performAll operations objects = some next
        ∧ ∀ k, (next k).Holds (applyAll operations lists k) := by
  induction operations generalizing objects lists with
  | nil => exact ⟨objects, rfl, holds⟩
  | cons operation rest ih =>
      obtain ⟨next, performed, stored⟩ :=
        operation.perform_holds positiveSize positiveCapacity holds allowed.1
      obtain ⟨last, ran, storedLast⟩ := ih stored allowed.2
      refine ⟨last, ?_, storedLast⟩
      rw [performAll, performed]
      exact ran

/-- After any allowed sequence of operations on empty containers, each of them is the list that
the sequence makes: its count and items are the list's, its capacity can be read and is no less
than the count, and in the stack buffer the items take fewer bytes than a move copies.
-/
theorem containers_are_lists (operations : List (Operation α))
    (allowed : AllAllowed itemSize operations (fun _ => []))
    : ∃ objects : Objects α itemSize stackCapacityT,
        performAll operations (fun _ => empty) = some objects
        ∧ ∀ k, (objects k).count = (applyAll operations (fun _ => []) k).length
          ∧ (∀ i, ∀ inside : i < (applyAll operations (fun _ => []) k).length,
              (objects k).data i = some (applyAll operations (fun _ => []) k)[i])
          ∧ (∃ capacity, (objects k).capacity = some capacity ∧ (objects k).count ≤ capacity)
          ∧ ((objects k).heap = none
            → (objects k).count * itemSize < stackCapacity stackCapacityT) := by
  obtain ⟨objects, ran, holds⟩ := performAll_holds positiveSize positiveCapacity operations
    (fun _ => empty_holds positiveCapacity) allowed
  refine ⟨objects, ran, fun k => ⟨(holds k).count_eq, ?_, ?_, (holds k).stackFit⟩⟩
  · intro i inside
    rw [(holds k).slot_eq i inside, List.getElem?_eq_getElem inside]
  · exact (holds k).count_le_capacity positiveSize

end Sequences

/-- Items of three bytes over a stack buffer of eight: two of them are moved, a third makes the
target use the heap, and that is moved back to the first container after it was trimmed.
-/
theorem containers_are_lists_moved
    : ∃ objects : Objects Char 3 1,
        performAll [.add 0 ['a', 'b'], .moveConstruct 1 0, .add 1 ['c'], .trim 1 1,
          .moveAssign 0 1, .add 1 ['d']] (fun _ => empty) = some objects
        ∧ (objects 0).count = 2 ∧ (objects 1).count = 1 := by
  obtain ⟨objects, ran, lists⟩ := @containers_are_lists Char 3 1
    (by decide) (by decide)
    [.add 0 ['a', 'b'], .moveConstruct 1 0, .add 1 ['c'], .trim 1 1, .moveAssign 0 1,
      .add 1 ['d']]
    (by simp [AllAllowed, Operation.Allowed, Operation.apply])
  exact ⟨objects, ran, (lists 0).1, (lists 1).1⟩

end ManagedContainer

end Sabot
