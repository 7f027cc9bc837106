import Mathlib

/-! A heap of blocks that are allocated and released. An address is given out once, so that a
released block stays told apart from those that come after it.
-/

namespace Blocks

/-- A block that was allocated: by whom, and of how many cells. -/
structure Block (Owner : Type*) where
  owner : Owner
  size : Nat

/-- The blocks that are live, by address. Nothing lives from the next address on. -/
structure Heap (Owner : Type*) where
  block : Nat → Option (Block Owner)
  next : Nat
  unused : ∀ a, next ≤ a → block a = none

namespace Heap

variable {Owner : Type*}

/-- The heap without blocks. -/
def empty : Heap Owner where
  block _ := none
  next := 0
  unused _ _ := rfl

/-- Allocate a block at the next address. -/
def new (heap : Heap Owner) (b : Block Owner) : Heap Owner where
  block := Function.update heap.block heap.next (some b)
  next := heap.next + 1
  unused a past := by
    rw [Function.update_of_ne (by omega)]
    exact heap.unused a (by omega)

/-- Release a block, which must be live. -/
def delete (heap : Heap Owner) (a : Nat) : Option (Heap Owner) :=
  if (heap.block a).isSome then
    some {
      block := Function.update heap.block a none
      next := heap.next
      unused := fun b past => by
        rw [Function.update_apply]
        split
        · rfl
        · exact heap.unused b past
    }
  else none

/-- Allocate blocks one after the other. -/
def newAll : List (Block Owner) → Heap Owner → Heap Owner
  | [], heap => heap
  | b :: rest, heap => newAll rest (heap.new b)

/-- Release what pointers point to, one after the other; null pointers are passed over. -/
def releaseAll : List (Option Nat) → Heap Owner → Option (Heap Owner)
  | [], heap => some heap
  | none :: rest, heap => releaseAll rest heap
  | some a :: rest, heap => do releaseAll rest (← heap.delete a)

theorem lt_next {heap : Heap Owner} {a : Nat} (live : heap.block a ≠ none) : a < heap.next := by
  by_contra past
  exact live (heap.unused a (not_lt.mp past))

@[simp] theorem new_next (heap : Heap Owner) (b : Block Owner)
    : (heap.new b).next = heap.next + 1 :=
  rfl

theorem new_block (heap : Heap Owner) (b : Block Owner) (a : Nat)
    : (heap.new b).block a = if a = heap.next then some b else heap.block a :=
  Function.update_apply _ _ _ _

/-- What was there before stays. -/
theorem newAll_block_old (blocks : List (Block Owner)) {heap : Heap Owner} {a : Nat}
    (old : a < heap.next)
    : (heap.newAll blocks).block a = heap.block a := by
  induction blocks generalizing heap with
  | nil => rfl
  | cons b rest ih =>
      rw [newAll, ih (by rw [new_next]; omega), new_block, if_neg (by omega)]

/-- The new blocks stand at the addresses that follow. -/
theorem newAll_block_new (blocks : List (Block Owner)) (heap : Heap Owner) {k : Nat}
    (below : k < blocks.length)
    : (heap.newAll blocks).block (heap.next + k) = some blocks[k] := by
  induction blocks generalizing heap k with
  | nil => exact absurd below (Nat.not_lt_zero k)
  | cons b rest ih =>
      cases k with
      | zero =>
          rw [newAll, newAll_block_old rest (by rw [new_next]; omega), new_block]
          exact if_pos rfl
      | succ k =>
          have next := ih (heap.new b) (Nat.lt_of_succ_lt_succ below)
          rwa [new_next, Nat.add_assoc, Nat.add_comm 1] at next

/-- A live block can be released; nothing else changes. -/
theorem delete_live {heap : Heap Owner} {a : Nat} (live : heap.block a ≠ none)
    : ∃ left, heap.delete a = some left ∧ left.next = heap.next
        ∧ ∀ b, left.block b = if b = a then none else heap.block b := by
  rw [delete, if_pos (Option.isSome_iff_ne_none.mpr live)]
  exact ⟨_, rfl, rfl, fun b => Function.update_apply _ _ _ _⟩

theorem delete_released {heap : Heap Owner} {a : Nat} (released : heap.block a = none)
    : heap.delete a = none :=
  if_neg (by simp [released])

/-- Live blocks at different addresses can all be released. -/
theorem releaseAll_live {pointers : List (Option Nat)} {heap : Heap Owner}
    (distinct : pointers.reduceOption.Nodup)
    (live : ∀ a ∈ pointers.reduceOption, heap.block a ≠ none)
    : ∃ left, heap.releaseAll pointers = some left ∧ left.next = heap.next
        ∧ ∀ b, left.block b = if b ∈ pointers.reduceOption then none else heap.block b := by
  induction pointers generalizing heap with
  | nil => exact ⟨heap, rfl, rfl, fun b => by simp⟩
  | cons pointer rest ih =>
      cases pointer with
      | none => exact ih distinct live
      | some a =>
          rw [List.reduceOption_cons_of_some] at distinct live
          obtain ⟨fresh, others⟩ := List.nodup_cons.mp distinct
          obtain ⟨middle, released, next, blocks⟩ := delete_live (live a List.mem_cons_self)
          obtain ⟨left, ran, nextLeft, blocksLeft⟩ := ih others (by
            intro b member
            have differ : b ≠ a := fun same => fresh (same ▸ member)
            rw [blocks, if_neg differ]
            exact live b (List.mem_cons_of_mem _ member))
          refine ⟨left, by rw [releaseAll, released]; exact ran, nextLeft.trans next, ?_⟩
          intro b
          rw [blocksLeft, blocks, List.reduceOption_cons_of_some]
          by_cases here : b = a <;> simp [here]

/-- A pointer to a released block makes the releases go wrong. -/
theorem releaseAll_stale {pointers : List (Option Nat)} {heap : Heap Owner} {a : Nat}
    (member : some a ∈ pointers) (released : heap.block a = none)
    : heap.releaseAll pointers = none := by
  induction pointers generalizing heap with
  | nil => exact absurd member List.not_mem_nil
  | cons pointer rest ih =>
      cases pointer with
      | none =>
          rw [releaseAll]
          exact ih (by simpa using member) released
      | some b =>
          rw [releaseAll]
          by_cases live : heap.block b = none
          · rw [delete_released live]
            rfl
          · obtain ⟨left, ran, _, blocks⟩ := delete_live live
            rw [ran]
            have differ : a ≠ b := fun same => live (same ▸ released)
            refine ih (by simpa [differ] using member) ?_
            rw [blocks, if_neg differ, released]

end Heap

end Blocks
