import Sabot.ManagedContainer.Objects

/-! `string_buffer`: a container of characters with concatenation of strings. -/

namespace Sabot.Strings

/-- A string in memory: its bytes before the terminating NUL, none of which is NUL. -/
structure CString where
  bytes : List UInt8
  noNul : (0 : UInt8) ∉ bytes

/-- The `strlen(str)+1` bytes of a string. -/
def CString.terminated (str : CString) : List UInt8 := str.bytes ++ [0]

/-- A `string_buffer<initialCapacity>`. -/
abbrev StringBuffer (initialCapacity : Nat) := ManagedContainer UInt8 1 initialCapacity

variable {initialCapacity : Nat}

/-- The constructors: empty, from a string that may be a null pointer, and from a data block. -/
inductive Constructor where
  | empty
  | string (str : Option CString)
  | data (bytes : List UInt8)

def construct (initialCapacity : Nat) : Constructor → Option (StringBuffer initialCapacity)
  | .empty | .string none => some .empty
  | .string (some str) => ManagedContainer.add .empty str.terminated
  | .data bytes => ManagedContainer.add .empty bytes

/-- `operator +=`: a NUL at the end is removed before the string is added with its own. -/
def concatenate (str : CString) (buffer : StringBuffer initialCapacity)
    : Option (StringBuffer initialCapacity) := do
  if buffer.count ≠ 0 then
    if (← buffer.data (buffer.count - 1)) = 0 then
      (buffer.trim 1).add str.terminated
    else buffer.add str.terminated
  else buffer.add str.terminated

/-- An operation that changes the buffer; `add` takes at least one byte. -/
inductive Change where
  | add (bytes : List UInt8) (nonempty : bytes ≠ [])
  | concatenate (str : CString)

def Change.perform (buffer : StringBuffer initialCapacity)
    : Change → Option (StringBuffer initialCapacity)
  | .add bytes _ => ManagedContainer.add buffer bytes
  | .concatenate str => Strings.concatenate str buffer

def performAll : List Change → StringBuffer initialCapacity → Option (StringBuffer initialCapacity)
  | [], buffer => some buffer
  | change :: rest, buffer => do performAll rest (← change.perform buffer)

-----------------------------------------------------------------------------------------
-- What the operations mean
-----------------------------------------------------------------------------------------

def Constructor.bytes : Constructor → List UInt8
  | .empty | .string none => []
  | .string (some str) => str.terminated
  | .data bytes => bytes

/-- The bytes without a NUL at their end. -/
def withoutNul (bytes : List UInt8) : List UInt8 :=
  if bytes.getLast? = some 0 then bytes.dropLast else bytes

def Change.apply (bytes : List UInt8) : Change → List UInt8
  | .add more _ => bytes ++ more
  | .concatenate str => withoutNul bytes ++ str.terminated

/-- The buffer has these bytes, and room for them and for what was asked at its construction. -/
structure Contains (buffer : StringBuffer initialCapacity) (bytes : List UInt8) : Prop where
  size_eq : buffer.count = bytes.length
  byte_eq : ∀ i, ∀ inside : i < bytes.length, buffer.data i = some bytes[i]
  capacity
    : ∃ capacity, buffer.capacity = some capacity ∧ buffer.count ≤ capacity
        ∧ initialCapacity ≤ capacity

-----------------------------------------------------------------------------------------
-- Every operation does what it means
-----------------------------------------------------------------------------------------

/-- The container stores the bytes, and its capacity never falls below what was asked for. -/
structure Keeps (buffer : StringBuffer initialCapacity) (bytes : List UInt8) : Prop where
  holds : buffer.Holds bytes
  room : ∃ capacity, buffer.capacity = some capacity ∧ initialCapacity ≤ capacity

variable {buffer : StringBuffer initialCapacity} {bytes : List UInt8}

theorem Keeps.contains (keeps : Keeps buffer bytes) : Contains buffer bytes where
  size_eq := keeps.holds.count_eq
  byte_eq i inside := by rw [keeps.holds.slot_eq i inside, List.getElem?_eq_getElem inside]
  capacity := by
    obtain ⟨capacity, stored, requested⟩ := keeps.room
    obtain ⟨same, storedSame, fits⟩ := keeps.holds.count_le_capacity (by decide)
    have equal : capacity = same := Option.some.inj (stored.symm.trans storedSame)
    exact ⟨capacity, stored, equal ▸ fits, requested⟩

theorem empty_keeps (positive : 0 < initialCapacity)
    : Keeps (.empty : StringBuffer initialCapacity) [] where
  holds := ManagedContainer.empty_holds positive
  room := ⟨_, rfl, Nat.le_mul_of_pos_left _ (Nat.div_pos (by omega) positive)⟩

/-- No size wraps in what is added: it lies in memory beside the buffer, below `2^63` bytes. -/
theorem add_eq_addWords (more : List UInt8) (memory : buffer.count + more.length < 2 ^ 63)
    : ManagedContainer.add buffer more = ManagedContainer.addWords buffer more :=
  (ManagedContainer.addWords_eq_add Nat.one_pos _ _ (by omega)).symm

theorem Keeps.add (keeps : Keeps buffer bytes) (more : List UInt8)
    : ∃ next, ManagedContainer.add buffer more = some next ∧ Keeps next (bytes ++ more) := by
  obtain ⟨next, added, holds⟩ := keeps.holds.add more
  obtain ⟨capacity, stored, requested⟩ := keeps.room
  obtain ⟨larger, storedNext, grown⟩ := ManagedContainer.capacity_le_add added stored
  exact ⟨next, added, holds, larger, storedNext, requested.trans grown⟩

theorem Keeps.trim (keeps : Keeps buffer bytes) (nonempty : bytes ≠ [])
    : Keeps (buffer.trim 1) bytes.dropLast where
  holds := by
    rw [List.dropLast_eq_take]
    exact keeps.holds.trim (List.length_pos_of_ne_nil nonempty)
  room := by
    rw [ManagedContainer.trim_capacity]
    exact keeps.room

theorem Keeps.concatenate (keeps : Keeps buffer bytes) (str : CString)
    : ∃ next, Strings.concatenate str buffer = some next
        ∧ Keeps next (withoutNul bytes ++ str.terminated) := by
  have count := keeps.holds.count_eq
  by_cases empty : bytes = []
  · have none : ¬buffer.count ≠ 0 := by simp [count, empty]
    rw [Strings.concatenate, if_neg none, empty]
    exact (empty ▸ keeps).add str.terminated
  · have positive := List.length_pos_of_ne_nil empty
    have some : buffer.count ≠ 0 := by omega
    have last : buffer.data (buffer.count - 1) = bytes.getLast? := by
      rw [List.getLast?_eq_getElem?, count]
      exact keeps.holds.slot_eq _ (by omega)
    rw [Strings.concatenate, if_pos some, last, List.getLast?_eq_some_getLast empty,
      Option.bind_eq_bind, Option.bind_some, withoutNul, List.getLast?_eq_some_getLast empty]
    by_cases nul : bytes.getLast empty = 0
    · rw [if_pos nul, if_pos (congrArg _ nul)]
      exact (keeps.trim empty).add str.terminated
    · rw [if_neg nul, if_neg (fun same => nul (Option.some.inj same))]
      exact keeps.add str.terminated

theorem Keeps.perform (keeps : Keeps buffer bytes) (change : Change)
    : ∃ next, change.perform buffer = some next ∧ Keeps next (change.apply bytes) := by
  cases change with
  | add more _ => exact keeps.add more
  | concatenate str => exact keeps.concatenate str

theorem Keeps.performAll (keeps : Keeps buffer bytes) (changes : List Change)
    : ∃ last, Strings.performAll changes buffer = some last
        ∧ Keeps last (changes.foldl Change.apply bytes) := by
  induction changes generalizing buffer bytes with
  | nil => exact ⟨buffer, rfl, keeps⟩
  | cons change rest ih =>
      obtain ⟨next, performed, keepsNext⟩ := keeps.perform change
      obtain ⟨last, ran, keepsLast⟩ := ih keepsNext
      refine ⟨last, ?_, keepsLast⟩
      rw [Strings.performAll, performed]
      exact ran

theorem construct_keeps (positive : 0 < initialCapacity) (constructor : Constructor)
    : ∃ buffer, construct initialCapacity constructor = some buffer
        ∧ Keeps buffer constructor.bytes := by
  have fresh := empty_keeps positive
  cases constructor with
  | empty => exact ⟨_, rfl, fresh⟩
  | string str =>
      cases str with
      | none => exact ⟨_, rfl, fresh⟩
      | some str => exact fresh.add str.terminated
  | data bytes => exact fresh.add bytes

-----------------------------------------------------------------------------------------
-- Concatenating strings only
-----------------------------------------------------------------------------------------

theorem withoutNul_terminated (bytes : List UInt8) : withoutNul (bytes ++ [0]) = bytes := by
  simp [withoutNul]

/-- Behind bytes that end with a NUL, strings are appended in front of that NUL. -/
theorem foldl_concatenate (strings : List CString) (bytes : List UInt8)
    : (strings.map Change.concatenate).foldl Change.apply (bytes ++ [0])
      = bytes ++ (strings.map CString.bytes).flatten ++ [0] := by
  induction strings generalizing bytes with
  | nil => simp
  | cons str rest ih =>
      simp only [List.map_cons, List.foldl_cons, Change.apply, withoutNul_terminated,
        CString.terminated, List.flatten_cons]
      rw [← List.append_assoc, ih, List.append_assoc bytes]

/-- The string that a constructor starts from, if it is not one from a data block. -/
def Constructor.initialString : Constructor → Option (List UInt8)
  | .empty | .string none => some []
  | .string (some str) => some str.bytes
  | .data _ => none

theorem foldl_concatenate_initial {constructor : Constructor} {first : List UInt8}
    (initial : constructor.initialString = some first) {strings : List CString}
    (nonempty : strings ≠ [])
    : (strings.map Change.concatenate).foldl Change.apply constructor.bytes
      = first ++ (strings.map CString.bytes).flatten ++ [0] := by
  have fromNothing : (strings.map Change.concatenate).foldl Change.apply []
      = [] ++ (strings.map CString.bytes).flatten ++ [0] := by
    obtain ⟨str, rest, rfl⟩ := List.exists_cons_of_ne_nil nonempty
    exact foldl_concatenate rest str.bytes
  cases constructor with
  | empty =>
      cases initial
      exact fromNothing
  | string str =>
      cases str with
      | none =>
          cases initial
          exact fromNothing
      | some str =>
          cases initial
          exact foldl_concatenate strings str.bytes
  | data bytes => cases initial

/-- After any constructor and any sequence of additions and concatenations the buffer contains the
fold of what they mean over the bytes of the constructor, whichever of them moved it to the heap.
Strings alone, one at least, leave their concatenation behind the initial string and one NUL.
-/
theorem stringBuffer_concatenates (positive : 0 < initialCapacity) (constructor : Constructor)
    : (∀ changes, ∃ buffer : StringBuffer initialCapacity,
          (construct initialCapacity constructor).bind (performAll changes) = some buffer
          ∧ Contains buffer (changes.foldl Change.apply constructor.bytes))
      ∧ ∀ first, constructor.initialString = some first → ∀ strings : List CString, strings ≠ []
          → ∃ buffer : StringBuffer initialCapacity,
              (construct initialCapacity constructor).bind
                  (performAll (strings.map Change.concatenate)) = some buffer
              ∧ Contains buffer (first ++ (strings.map CString.bytes).flatten ++ [0])
              ∧ buffer.count
                = first.length + (strings.map (fun str => str.bytes.length)).sum + 1 := by
  have fold (changes : List Change)
      : ∃ buffer : StringBuffer initialCapacity,
          (construct initialCapacity constructor).bind (performAll changes) = some buffer
          ∧ Contains buffer (changes.foldl Change.apply constructor.bytes) := by
    obtain ⟨start, constructed, keeps⟩ := construct_keeps positive constructor
    obtain ⟨buffer, ran, keepsLast⟩ := keeps.performAll changes
    exact ⟨buffer, by rw [constructed, Option.bind_some, ran], keepsLast.contains⟩
  refine ⟨fold, ?_⟩
  intro first initial strings nonempty
  obtain ⟨buffer, ran, contains⟩ := fold (strings.map Change.concatenate)
  rw [foldl_concatenate_initial initial nonempty] at contains
  refine ⟨buffer, ran, contains, ?_⟩
  rw [contains.size_eq]
  simp [List.length_flatten, Function.comp_def, Nat.add_assoc]

/-- A short string in five bytes of stack, to which an empty and a longer string are added. -/
theorem stringBuffer_concatenates_three
    : ∃ buffer : StringBuffer 5,
        (construct 5 (.string (some ⟨[97, 98], by decide⟩))).bind
          (performAll [.concatenate ⟨[], by decide⟩,
            .concatenate ⟨[99, 100, 101, 102, 103, 104, 105, 106, 107], by decide⟩]) = some buffer
        ∧ buffer.count = 12 := by
  obtain ⟨buffer, ran, _, size⟩ := (@stringBuffer_concatenates 5 (by decide)
    (.string (some ⟨[97, 98], by decide⟩))).2 [97, 98] rfl
    [⟨[], by decide⟩, ⟨[99, 100, 101, 102, 103, 104, 105, 106, 107], by decide⟩] (by simp)
  exact ⟨buffer, ran, size⟩

end Sabot.Strings
