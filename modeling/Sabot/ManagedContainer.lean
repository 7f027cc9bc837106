import Mathlib

/-! The growing array behind programs and result buffers: items live in a stack buffer until
they no longer fit, then on the heap, whose capacity is kept in the first bytes of the stack.
-/

namespace Sabot

/-- Round a number up to the nearest multiple. -/
def roundToMultiple (number multiple : Nat) : Nat := (number + multiple - 1) / multiple * multiple

theorem le_roundToMultiple (number : Nat) {multiple : Nat} (positive : 0 < multiple)
    : number ≤ roundToMultiple number multiple := by
  have division := Nat.div_add_mod (number + multiple - 1) multiple
  have remainder := Nat.mod_lt (number + multiple - 1) positive
  rw [mul_comm] at division
  unfold roundToMultiple
  omega

/-- A `managed_container` of items of `itemSize` bytes. A slot holds `none` when its bytes are
not those of an item; `heapCapacity` is what the first eight bytes of the stack buffer spell,
while they spell a capacity.
-/
structure ManagedContainer (α : Type) (itemSize stackCapacityT : Nat) where
  count : Nat
  heap : Option (Nat → Option α)
  stack : Nat → Option α
  heapCapacity : Option Nat

namespace ManagedContainer

variable {α : Type} {itemSize stackCapacityT : Nat}

/-- The stack buffer's item count: a word rounded up to a multiple of the request. -/
def stackCapacity (stackCapacityT : Nat) : Nat := roundToMultiple 8 stackCapacityT

/-- The empty constructor. -/
def empty : ManagedContainer α itemSize stackCapacityT where
  count := 0
  heap := none
  stack _ := none
  heapCapacity := none

/-- The capacity, read from the stack bytes in heap mode; stuck when they hold no capacity. -/
def capacity (c : ManagedContainer α itemSize stackCapacityT) : Option Nat :=
  match c.heap with
  | some _ => c.heapCapacity
  | none => some (stackCapacity stackCapacityT)

/-- The buffer in use. -/
def data (c : ManagedContainer α itemSize stackCapacityT) : Nat → Option α :=
  match c.heap with
  | some slots => slots
  | none => c.stack

/-- Copy `items` into a buffer, the first of them to slot `start`. -/
def blit (slots : Nat → Option α) (start : Nat) (items : List α) : Nat → Option α :=
  fun i => if start ≤ i ∧ i < start + items.length then items[i - start]? else slots i

/-- The slots that share bytes with the stored capacity. -/
def overlaid (itemSize i : Nat) : Bool := i * itemSize < 8

/-- Copy a chunk of data to the buffer. The new size is in bytes, the capacity in items. -/
def add (c : ManagedContainer α itemSize stackCapacityT) (items : List α)
    : Option (ManagedContainer α itemSize stackCapacityT) := do
  let newSize := (c.count + items.length) * itemSize
  if newSize < (← c.capacity) then
    match c.heap with
    | some slots =>
        return {
          c with
          count := c.count + items.length
          heap := some (blit slots c.count items)
        }
    | none =>
        -- Items written over the first bytes destroy whatever capacity they held.
        return {
          c with
          count := c.count + items.length
          stack := blit c.stack c.count items
          heapCapacity := if items ≠ [] ∧ overlaid itemSize c.count then none else c.heapCapacity
        }
  else
    let newCapacity := roundToMultiple newSize 8
    let copied : Nat → Option α := fun i => if i < c.count then c.data i else none
    return {
      count := c.count + items.length
      heap := some (blit copied c.count items)
      stack := fun i => if overlaid itemSize i then none else c.stack i
      heapCapacity := some newCapacity
    }

/-- The container stores exactly `items`: every counted slot holds its item, the capacity can
be read, and the items fit, in bytes below the stack capacity or within the heap capacity.
-/
structure Holds (c : ManagedContainer α itemSize stackCapacityT) (items : List α) : Prop where
  count_eq : c.count = items.length
  slot_eq : ∀ i < items.length, c.data i = items[i]?
  stackFit : c.heap = none → c.count * itemSize < stackCapacity stackCapacityT
  heapFit
    : c.heap ≠ none
      → ∃ capacity, c.heapCapacity = some capacity ∧ c.count * itemSize ≤ capacity

-----------------------------------------------------------------------------------------
-- The container is a list
-----------------------------------------------------------------------------------------

theorem stackCapacity_pos (positive : 0 < stackCapacityT)
    : 0 < stackCapacity stackCapacityT :=
  lt_of_lt_of_le (by decide) (le_roundToMultiple 8 positive)

theorem empty_holds (positive : 0 < stackCapacityT)
    : (empty : ManagedContainer α itemSize stackCapacityT).Holds [] where
  count_eq := rfl
  slot_eq i below := absurd below (Nat.not_lt_zero i)
  stackFit _ := by
    simpa [empty] using stackCapacity_pos positive
  heapFit heap := absurd rfl heap

/-- In either mode the capacity can be read and is an upper bound on the stored bytes. -/
theorem Holds.capacity {c : ManagedContainer α itemSize stackCapacityT} {items : List α}
    (holds : c.Holds items)
    : ∃ capacity, c.capacity = some capacity ∧ c.count * itemSize ≤ capacity := by
  cases mode : c.heap with
  | none => exact ⟨_, by simp [ManagedContainer.capacity, mode], (holds.stackFit mode).le⟩
  | some slots =>
      obtain ⟨capacity, stored, fits⟩ := holds.heapFit (by simp [mode])
      exact ⟨capacity, by simp [ManagedContainer.capacity, mode, stored], fits⟩

/-- Copying new items behind the stored ones stores the append. -/
theorem blit_append {slots : Nat → Option α} {items : List α}
    (stored : ∀ i < items.length, slots i = items[i]?) (more : List α)
    : ∀ i < (items ++ more).length, blit slots items.length more i = (items ++ more)[i]? := by
  intro i below
  rw [List.length_append] at below
  unfold blit
  by_cases old : i < items.length
  · rw [if_neg (by omega), stored i old, List.getElem?_append_left old]
  · rw [if_pos ⟨by omega, below⟩, List.getElem?_append_right (by omega)]

/-- Adding appends, whether the items fit in place or move to a new heap buffer. -/
theorem Holds.add {c : ManagedContainer α itemSize stackCapacityT} {items : List α}
    (holds : c.Holds items) (more : List α)
    : ∃ next, c.add more = some next ∧ next.Holds (items ++ more) := by
  obtain ⟨capacity, capacityEq, _⟩ := holds.capacity
  have length : (items ++ more).length = c.count + more.length := by
    rw [List.length_append, holds.count_eq]
  by_cases fits : (c.count + more.length) * itemSize < capacity
  · cases mode : c.heap with
    | none =>
        have stackEq : stackCapacity stackCapacityT = capacity := by
          simpa [ManagedContainer.capacity, mode] using capacityEq
        refine ⟨_, by simp [ManagedContainer.add, capacityEq, fits, mode]; rfl, ?_⟩
        refine {
          count_eq := length.symm
          slot_eq := ?_
          stackFit := fun _ => by simpa [stackEq] using fits
          heapFit := fun heap => absurd rfl heap
        }
        have stored : ∀ i < items.length, c.stack i = items[i]? := by
          simpa [data, mode] using holds.slot_eq
        simpa [data, mode, holds.count_eq] using blit_append stored more
    | some slots =>
        refine ⟨_, by simp [ManagedContainer.add, capacityEq, fits, mode]; rfl, ?_⟩
        have stored : ∀ i < items.length, slots i = items[i]? := by
          simpa [data, mode] using holds.slot_eq
        refine {
          count_eq := length.symm
          slot_eq := by simpa [data, holds.count_eq] using blit_append stored more
          stackFit := fun stack => by simp at stack
          heapFit := fun _ => ⟨capacity, ?_, fits.le⟩
        }
        simpa [ManagedContainer.capacity, mode] using capacityEq
  · refine ⟨_, by simp [ManagedContainer.add, capacityEq, fits]; rfl, ?_⟩
    have stored : ∀ i < items.length,
        (if i < c.count then c.data i else none) = items[i]? := by
      intro i below
      rw [if_pos (holds.count_eq ▸ below), holds.slot_eq i below]
    refine {
      count_eq := length.symm
      slot_eq := by simpa [data, holds.count_eq] using blit_append stored more
      stackFit := fun stack => by simp at stack
      heapFit := fun _ => ⟨_, rfl, le_roundToMultiple _ (by decide)⟩
    }

end ManagedContainer

end Sabot
