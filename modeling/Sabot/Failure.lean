import Mathlib

/-! The ways in which a call of the program can end without returning, and computations whose
changes to the shared state outlive such an end.
-/

namespace Sabot

/-- The exceptions raised by the program, by the type a handler would name. -/
inductive Exn where
  | exception
  | invalidArgument (what : String)
  | logicError (what : String)
  | badAlloc
  | runtimeError (what : String)
deriving DecidableEq, Repr

/-- A call stops by throwing, by touching memory that it does not own, or by spinning on a
flag that nobody is left to clear.
-/
inductive Stop where
  | thrown (e : Exn)
  | undefined
  | blocked
deriving DecidableEq, Repr

/-- A computation on a shared state, which it leaves behind also when it stops. -/
def Run (σ α : Type) := σ → Except Stop α × σ

namespace Run

variable {σ τ α β : Type}

instance : Monad (Run σ) where
  pure a := fun s => (.ok a, s)
  bind x f := fun s =>
    match x s with
    | (.ok a, s) => f a s
    | (.error e, s) => (.error e, s)

/-- Stop, or go on with a value. -/
def ofExcept (result : Except Stop α) : Run σ α := fun s => (result, s)

/-- Run on a part of the state. -/
def within (get : σ → τ) (set : τ → σ → σ) (x : Run τ α) : Run σ α := fun s =>
  match x (get s) with
  | (result, t) => (result, set t s)

@[simp] theorem pure_apply (a : α) (s : σ) : (pure a : Run σ α) s = (.ok a, s) := rfl

@[simp] theorem ofExcept_apply (result : Except Stop α) (s : σ)
    : ofExcept result s = (result, s) :=
  rfl

theorem map_apply (g : α → β) (x : Run σ α) (s : σ)
    : (g <$> x) s = (g <$> (x s).1, (x s).2) := by
  simp only [Functor.map]
  cases x s with
  | mk result t => cases result <;> rfl

theorem bind_ok {x : Run σ α} {s t : σ} {a : α} (ran : x s = (.ok a, t)) (f : α → Run σ β)
    : (x >>= f) s = f a t := by
  simp only [bind, ran]

theorem bind_error {x : Run σ α} {s t : σ} {e : Stop} (ran : x s = (.error e, t))
    (f : α → Run σ β)
    : (x >>= f) s = (.error e, t) := by
  simp only [bind, ran]

-----------------------------------------------------------------------------------------
-- Returning
-----------------------------------------------------------------------------------------

/-- The computation returns a value. -/
def Returns (x : Run σ α) (s : σ) : Prop := ∃ a t, x s = (.ok a, t)

/-- The computation never throws a runtime error. -/
def Quiet (x : Run σ α) : Prop := ∀ s t what, x s ≠ (.error (.thrown (.runtimeError what)), t)

/-- The computation returns a value, or throws a runtime error. -/
def Answers (x : Run σ α) (s : σ) : Prop :=
  x.Returns s ∨ ∃ what t, x s = (.error (.thrown (.runtimeError what)), t)

theorem returns_pure (a : α) (s : σ) : (pure a : Run σ α).Returns s := ⟨a, s, rfl⟩

theorem returns_bind {x : Run σ α} {f : α → Run σ β} {s : σ}
    : (x >>= f).Returns s ↔ ∃ a t, x s = (.ok a, t) ∧ (f a).Returns t := by
  constructor
  · rintro ⟨b, t, ran⟩
    cases first : x s with
    | mk result middle =>
        cases result with
        | error e =>
            rw [bind_error first] at ran
            cases ran
        | ok a =>
            rw [bind_ok first] at ran
            exact ⟨a, middle, rfl, b, t, ran⟩
  · rintro ⟨a, t, first, b, u, second⟩
    exact ⟨b, u, (bind_ok first f).trans second⟩

theorem returns_ofExcept_bind {result : Except Stop α} {f : α → Run σ β} {s : σ}
    : (ofExcept result >>= f).Returns s ↔ ∃ a, result = .ok a ∧ (f a).Returns s := by
  rw [returns_bind]
  simp

theorem returns_within {get : σ → τ} {set : τ → σ → σ} {x : Run τ α} {s : σ}
    : (within get set x).Returns s ↔ x.Returns (get s) := by
  constructor
  · rintro ⟨a, t, ran⟩
    exact ⟨a, (x (get s)).2, Prod.ext (Prod.mk.inj ran).1 rfl⟩
  · rintro ⟨a, t, ran⟩
    exact ⟨a, set t s, by simp only [within, ran]⟩

/-- A chain of quiet calls answers if they all return and what follows answers. -/
theorem answers_bind {x : Run σ α} (quiet : x.Quiet) {f : α → Run σ β} {s : σ}
    : (x >>= f).Answers s ↔ ∃ a t, x s = (.ok a, t) ∧ (f a).Answers t := by
  cases first : x s with
  | mk result middle =>
      cases result with
      | error e =>
          have stops := bind_error first f
          constructor
          · rintro (⟨b, t, ran⟩ | ⟨what, t, ran⟩)
            · rw [stops] at ran
              cases ran
            · rw [stops] at ran
              cases ran
              exact absurd first (quiet _ _ _)
          · rintro ⟨a, t, ran, _⟩
            cases ran
      | ok a =>
          have continues := bind_ok first f
          rw [Answers, Returns, continues]
          constructor
          · intro answers
            exact ⟨a, middle, rfl, answers⟩
          · rintro ⟨a, t, ran, answers⟩
            cases ran
            exact answers

theorem answers_ofExcept_bind {result : Except Stop α}
    (quiet : ∀ what, result ≠ .error (.thrown (.runtimeError what))) {f : α → Run σ β} {s : σ}
    : (ofExcept result >>= f).Answers s ↔ ∃ a, result = .ok a ∧ (f a).Answers s := by
  cases result with
  | ok a =>
      constructor
      · intro answers
        exact ⟨a, rfl, answers⟩
      · rintro ⟨_, same, answers⟩
        cases same
        exact answers
  | error e =>
      refine iff_of_false ?_ (by simp)
      rintro (⟨b, t, ran⟩ | ⟨what, t, ran⟩)
      · cases ran
      · cases ran
        exact quiet what rfl

/-- A quiet call followed by what always answers. -/
theorem answers_bind_always {x : Run σ α} (quiet : x.Quiet) {f : α → Run σ β}
    (always : ∀ a t, (f a).Answers t) {s : σ}
    : (x >>= f).Answers s ↔ x.Returns s := by
  rw [answers_bind quiet]
  constructor
  · rintro ⟨a, t, ran, _⟩
    exact ⟨a, t, ran⟩
  · rintro ⟨a, t, ran⟩
    exact ⟨a, t, ran, always a t⟩

theorem quiet_pure (a : α) : (pure a : Run σ α).Quiet := by
  intro s t what ran
  cases ran

theorem quiet_ofExcept {result : Except Stop α}
    (quiet : ∀ what, result ≠ .error (.thrown (.runtimeError what)))
    : (ofExcept result : Run σ α).Quiet := by
  intro s t what ran
  exact quiet what (Prod.mk.inj ran).1

theorem Quiet.bind {x : Run σ α} (quiet : x.Quiet) {f : α → Run σ β} (later : ∀ a, (f a).Quiet)
    : (x >>= f).Quiet := by
  intro s t what ran
  cases first : x s with
  | mk result middle =>
      cases result with
      | error e =>
          rw [bind_error first] at ran
          cases ran
          exact quiet _ _ _ first
      | ok a =>
          rw [bind_ok first] at ran
          exact later a _ _ _ ran

theorem Quiet.within {get : σ → τ} {set : τ → σ → σ} {x : Run τ α} (quiet : x.Quiet)
    : (Run.within get set x).Quiet := by
  intro s t what ran
  exact quiet (get s) (x (get s)).2 what (Prod.ext (Prod.mk.inj ran).1 rfl)

/-- What the computation returns, if it returns, is as stated. -/
def Yields (P : α → Prop) (x : Run σ α) : Prop := ∀ s a t, x s = (.ok a, t) → P a

theorem yields_pure {P : α → Prop} {a : α} (holds : P a) : (pure a : Run σ α).Yields P := by
  intro s b t ran
  cases ran
  exact holds

theorem yields_ofExcept_error {P : α → Prop} (e : Stop) : (ofExcept (.error e) : Run σ α).Yields P := by
  intro s a t ran
  cases ran

theorem yields_bind {P : β → Prop} {x : Run σ α} {f : α → Run σ β} (later : ∀ a, (f a).Yields P)
    : (x >>= f).Yields P := by
  intro s b t ran
  cases first : x s with
  | mk result middle =>
      cases result with
      | error e =>
          rw [bind_error first] at ran
          cases ran
      | ok a =>
          rw [bind_ok first] at ran
          exact later a _ _ _ ran

-----------------------------------------------------------------------------------------
-- Invariants
-----------------------------------------------------------------------------------------

/-- The computation leaves the state as stated, whether or not it returns. -/
def Keeps (P : σ → Prop) (x : Run σ α) : Prop := ∀ s, P s → P (x s).2

variable {P : σ → Prop} {x : Run σ α}

theorem keeps_pure (a : α) : (pure a : Run σ α).Keeps P := fun _ holds => holds

theorem keeps_ofExcept (result : Except Stop α) : (ofExcept result).Keeps P := fun _ holds => holds

theorem Keeps.bind (keeps : x.Keeps P) {f : α → Run σ β} (later : ∀ a, (f a).Keeps P)
    : (x >>= f).Keeps P := by
  intro s holds
  have first := keeps s holds
  cases ran : x s with
  | mk result middle =>
      rw [ran] at first
      cases result with
      | error e =>
          rw [bind_error ran]
          exact first
      | ok a =>
          rw [bind_ok ran]
          exact later a middle first

theorem Keeps.map (keeps : x.Keeps P) (g : α → β) : (g <$> x).Keeps P := by
  intro s holds
  rw [map_apply]
  exact keeps s holds

/-- What is kept of a part is kept of the whole. -/
theorem Keeps.within {get : σ → τ} {set : τ → σ → σ} {Q : τ → Prop} {y : Run τ α}
    (keeps : y.Keeps Q) (part : ∀ s, P s → Q (get s)) (whole : ∀ s t, P s → Q t → P (set t s))
    : (within get set y).Keeps P :=
  fun s holds => whole s _ holds (keeps _ (part s holds))

end Run

end Sabot
