import Sabot.Actions.Dispatch

/-! The packed search of `find_call` is a linear search over the registered slots. -/

namespace Sabot.Actions

open Sabot.Net (Request)

variable {F : Type} {table : RegisteredCalls F} {calls : List (Call F)}

/-- Either the search ends at the first match, or there is none. -/
theorem findCall_cases (stored : Stored table calls) (request : Request)
    : (∃ id, ∃ below : id < calls.length, Matches table request id
        ∧ (∀ k < id, ¬Matches table request k) ∧ findCall table request = .ok calls[id].function)
      ∨ ((∀ id < calls.length, ¬Matches table request id)
        ∧ findCall table request = .error (.thrown (.runtimeError "type not found by name"))) := by
  rw [findCall_eq_linearSearch stored request]
  cases search : linearSearch table request calls.length with
  | none =>
      rw [linearSearch, List.find?_range_eq_none] at search
      exact Or.inr ⟨by simpa using search, rfl⟩
  | some id =>
      rw [linearSearch, List.find?_range_eq_some] at search
      obtain ⟨here, below, first⟩ := search
      have inside := List.mem_range.mp below
      refine Or.inl ⟨id, inside, by simpa using here, by simpa using first, ?_⟩
      simp only [stored.functions id inside]

/-- After any registrations of named calls the packed search takes a request to the first slot with
the attributes and the name bytes of the request, and finds nothing exactly when no registered slot
has them. What it finds was registered, and the shifted word is zero exactly behind the last
registered slot.
-/
theorem packedSearch_eq_linear (named : ∀ item ∈ calls, item.Named)
    (built : registerCalls calls = .ok table) (request : Request)
    : (∀ id, ∀ below : id < calls.length, Matches table request id
          → (∀ k < id, ¬Matches table request k)
          → findCall table request = .ok calls[id].function)
      ∧ (findCall table request = .error (.thrown (.runtimeError "type not found by name"))
        ↔ ∀ id < calls.length, ¬Matches table request id)
      ∧ (∀ function, findCall table request = .ok function
          → ∃ id, ∃ below : id < calls.length, Matches table request id
            ∧ (∀ k < id, ¬Matches table request k) ∧ calls[id].function = function)
      ∧ (∀ id, ∀ below : id < calls.length, Matches table request id
          ↔ calls[id].attr = request.methodAttr
            ∧ calls[id].method = request.method.take (request.methodAttr.toNat % 32))
      ∧ ∀ i, ∀ j < 8, attrWord table i >>> (j * 8) = 0 ↔ calls.length ≤ i + j := by
  have stored := registerCalls_stored named built
  refine ⟨?_, ?_, ?_, fun id below => matches_iff_aliases stored request below,
    fun i j below => attrWord_shift_eq_zero_iff stored i below⟩
  · intro id below here first
    rcases findCall_cases stored request with ⟨other, _, hereOther, firstOther, found⟩ | missing
    · -- Two first matches are the same slot.
      obtain rfl : id = other := by
        by_contra differ
        rcases Nat.lt_or_gt_of_ne differ with before | behind
        · exact firstOther id before here
        · exact first other behind hereOther
      exact found
    · exact absurd here (missing.1 id below)
  · constructor
    · intro thrown id below here
      rcases findCall_cases stored request with ⟨_, _, _, _, found⟩ | missing
      · rw [thrown] at found
        cases found
      · exact missing.1 id below here
    · intro none
      rcases findCall_cases stored request with ⟨id, below, here, _, _⟩ | missing
      · exact absurd here (none id below)
      · exact missing.2
  · intro function returned
    rcases findCall_cases stored request with ⟨id, below, here, first, found⟩ | missing
    · rw [returned] at found
      exact ⟨id, below, here, first, (Except.ok.inj found).symm⟩
    · rw [missing.2] at returned
      cases returned

/-- A second action with the same attributes as the one before it in the table. -/
theorem packedSearch_eq_linear_deleteSystem
    : ∃ table, registerCalls Actions.calls = .ok table
        ∧ findCall table ⟨bytes "delete_system", [.unsigned 0]⟩ = .ok .deleteSystem := by
  obtain ⟨table, built⟩ := registerCalls_succeeds calls_named (by decide)
  obtain ⟨first, _, _, isMatch, _⟩ :=
    packedSearch_eq_linear calls_named built ⟨bytes "delete_system", [.unsigned 0]⟩
  refine ⟨table, built, first 7 (by decide) ((isMatch 7 (by decide)).mpr (by decide)) ?_⟩
  intro k before here
  have inside : k < Actions.calls.length := Nat.lt_trans before (by decide)
  have others : ∀ item ∈ Actions.calls.take 7, item.method ≠ bytes "delete_system" := by decide
  have earlier : Actions.calls[k] ∈ Actions.calls.take 7 :=
    List.mem_take_iff_getElem.mpr ⟨k, by omega, rfl⟩
  exact others _ earlier ((isMatch k inside).mp here).2

end Sabot.Actions
