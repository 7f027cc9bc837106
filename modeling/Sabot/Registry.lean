import Mathlib.Data.Nat.Basic
import Mathlib.Logic.Function.Basic

/-! Registries: items that are numbered in the order in which they are added. A number is never
given to a second item, also after the first one has been removed.
-/

/-- Items under the numbers that they were given, and the number that comes next. -/
@[ext]
structure Registry (α : Type*) where
  next : Nat
  item : Nat → Option α
  unused : ∀ id, next ≤ id → item id = none

namespace Registry

variable {α : Type*}

def empty : Registry α := ⟨0, fun _ => none, fun _ _ => rfl⟩

variable (r : Registry α) (id : Nat) (a : α)

/-- Add an item under the next number. -/
def add : Registry α where
  next := r.next + 1
  item := Function.update r.item r.next (some a)
  unused id later := by
    rw [Function.update_of_ne (by omega)]
    exact r.unused id (by omega)

/-- Replace an item, if it is there. -/
def set : Registry α where
  next := r.next
  item := Function.update r.item id ((r.item id).map fun _ => a)
  unused other later := by
    by_cases same : other = id
    · rw [same, Function.update_self, r.unused id (same ▸ later), Option.map_none]
    · rw [Function.update_of_ne same, r.unused other later]

def remove : Registry α where
  next := r.next
  item := Function.update r.item id none
  unused other later := by
    by_cases same : other = id
    · rw [same, Function.update_self]
    · rw [Function.update_of_ne same, r.unused other later]

variable {r id a} {other : Nat} {old : α}

@[simp] theorem next_empty : (empty : Registry α).next = 0 := rfl

@[simp] theorem next_add : (r.add a).next = r.next + 1 := rfl

@[simp] theorem next_set : (r.set id a).next = r.next := rfl

@[simp] theorem next_remove : (r.remove id).next = r.next := rfl

@[simp] theorem item_empty : (empty : Registry α).item id = none := rfl

@[simp] theorem item_add : (r.add a).item r.next = some a := Function.update_self _ _ _

theorem item_add_of_ne (ne : other ≠ r.next) : (r.add a).item other = r.item other :=
  Function.update_of_ne ne _ _

theorem item_set (present : r.item id = some old) : (r.set id a).item id = some a :=
  (Function.update_self _ _ _).trans (by rw [present, Option.map_some])

theorem item_set_of_ne (ne : other ≠ id) : (r.set id a).item other = r.item other :=
  Function.update_of_ne ne _ _

/-- Replacing an item by itself changes nothing. -/
theorem set_self (present : r.item id = some a) : r.set id a = r := by
  refine Registry.ext rfl (funext fun other => ?_)
  by_cases same : other = id
  · rw [same, item_set present, present]
  · exact item_set_of_ne same

@[simp] theorem item_remove : (r.remove id).item id = none := Function.update_self _ _ _

theorem item_remove_of_ne (ne : other ≠ id) : (r.remove id).item other = r.item other :=
  Function.update_of_ne ne _ _

/-- An item has a number that was given before. -/
theorem lt_next (present : r.item id = some a) : id < r.next := by
  by_contra later
  rw [r.unused id (not_lt.mp later)] at present
  cases present

/-- Adding keeps the items that are there. -/
theorem item_add_of_some (present : r.item id = some old) : (r.add a).item id = some old := by
  rw [item_add_of_ne (Nat.ne_of_lt (lt_next present)), present]

end Registry
