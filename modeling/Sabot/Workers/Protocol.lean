import Mathlib

/-! Code of atomic steps on a state that several workers share, and rules of pre- and
postconditions for it. A worker relies on what the steps of the others keep for it, and its own
steps keep what the others rely on.
-/

namespace Workers

variable {W σ ε α β : Type}

-----------------------------------------------------------------------------------------
-- Code
-----------------------------------------------------------------------------------------

/-- Code returns, fails, or waits until an atomic step is enabled. The step changes the shared
state, and the code goes on with what it read there.
-/
inductive Code (σ ε α : Type) where
  | ret (a : α)
  | fail (e : ε)
  | atomic (enabled : σ → Prop) (effect : σ → σ) (next : σ → Code σ ε α)

namespace Code

def bind : Code σ ε α → (α → Code σ ε β) → Code σ ε β
  | .ret a, f => f a
  | .fail e, _ => .fail e
  | .atomic enabled effect next, f => .atomic enabled effect (fun s => (next s).bind f)

instance : Monad (Code σ ε) where
  pure := .ret
  bind := bind

end Code

/-- The state after a step, which is left as it is when the body fails. -/
def effectOf (body : σ → Except ε (α × σ)) (s : σ) : σ :=
  match body s with
  | .ok (_, t) => t
  | .error _ => s

/-- One atomic step. -/
def atomically (enabled : σ → Prop) (body : σ → Except ε (α × σ)) : Code σ ε α :=
  .atomic enabled (effectOf body)
    (fun s => match body s with
      | .ok (a, _) => .ret a
      | .error e => .fail e)

-----------------------------------------------------------------------------------------
-- Protocols
-----------------------------------------------------------------------------------------

/-- What holds of every state, what the steps of the others keep for a worker, and what holds
between the states before and after every step.
-/
structure Protocol (W σ : Type) where
  invariant : σ → Prop
  keeps : W → σ → σ → Prop
  advances : σ → σ → Prop
  keeps_refl : ∀ w s, keeps w s s
  keeps_trans : ∀ w s t u, keeps w s t → keeps w t u → keeps w s u
  advances_refl : ∀ s, advances s s
  advances_trans : ∀ s t u, advances s t → advances t u → advances s u

variable (P : Protocol W σ) (w : W)

/-- The worker may take a step from `s` to `t`. -/
structure Allows (s t : σ) : Prop where
  invariant : P.invariant t
  others : ∀ v, v ≠ w → P.keeps v s t
  advances : P.advances s t

/-- The assertion is kept by the steps of the other workers. -/
def Stable (assertion : σ → Prop) : Prop :=
  ∀ s t, P.invariant t → P.keeps w s t → assertion s → assertion t

/-- Run by the worker from `s` on, whatever the others do in between, the code takes allowed steps
only, fails only where it is excused, and returns where the postcondition holds.
-/
def Safe (excused : ε → Prop) (post : α → σ → Prop) : Code σ ε α → σ → Prop
  | .ret a, s => ∀ t, P.invariant t → P.keeps w s t → post a t
  | .fail e, _ => excused e
  | .atomic enabled effect next, s =>
      ∀ t, P.invariant t → P.keeps w s t → enabled t
        → Allows P w t (effect t) ∧ Safe excused post (next t) (effect t)

/-- The code is safe wherever the precondition holds. -/
def Triple (excused : ε → Prop) (pre : σ → Prop) (code : Code σ ε α) (post : α → σ → Prop)
    : Prop :=
  ∀ s, P.invariant s → pre s → Safe P w excused post code s

variable {P w} {excused : ε → Prop} {pre : σ → Prop} {post : α → σ → Prop} {code : Code σ ε α}

/-- Safety is kept by the steps of the other workers. -/
theorem Safe.stable {s t : σ} (safe : Safe P w excused post code s) (keeps : P.keeps w s t)
    : Safe P w excused post code t := by
  cases code with
  | ret a => exact fun u invariant later => safe u invariant (P.keeps_trans w s t u keeps later)
  | fail e => exact safe
  | atomic enabled effect next =>
      exact fun u invariant later => safe u invariant (P.keeps_trans w s t u keeps later)

theorem Safe.bind {f : α → Code σ ε β} {final : β → σ → Prop} {s : σ}
    (safe : Safe P w excused post code s) (invariant : P.invariant s)
    (rest : ∀ a, Triple P w excused (post a) (f a) final)
    : Safe P w excused final (code >>= f) s := by
  induction code generalizing s with
  | ret a => exact rest a s invariant (safe s invariant (P.keeps_refl w s))
  | fail e => exact safe
  | atomic enabled effect next ih =>
      intro t invariantT keeps ready
      obtain ⟨allows, after⟩ := safe t invariantT keeps ready
      exact ⟨allows, ih t after allows.invariant⟩

theorem Safe.mono {final : α → σ → Prop} {s : σ} (safe : Safe P w excused post code s)
    (implies : ∀ a t, P.invariant t → post a t → final a t)
    : Safe P w excused final code s := by
  induction code generalizing s with
  | ret a => exact fun t invariant keeps => implies a t invariant (safe t invariant keeps)
  | fail e => exact safe
  | atomic enabled effect next ih =>
      intro t invariant keeps ready
      obtain ⟨allows, after⟩ := safe t invariant keeps ready
      exact ⟨allows, ih t after⟩

/-- What all steps keep holds at the end as well. -/
theorem Safe.frame {fact : σ → Prop} {s : σ} (safe : Safe P w excused post code s)
    (stable : Stable P w fact) (advances : ∀ s t, P.advances s t → fact s → fact t) (holds : fact s)
    : Safe P w excused (fun a t => post a t ∧ fact t) code s := by
  induction code generalizing s with
  | ret a =>
      exact fun t invariant keeps =>
        ⟨safe t invariant keeps, stable s t invariant keeps holds⟩
  | fail e => exact safe
  | atomic enabled effect next ih =>
      intro t invariant keeps ready
      obtain ⟨allows, after⟩ := safe t invariant keeps ready
      have now := stable s t invariant keeps holds
      exact ⟨allows, ih t after (advances t _ allows.advances now)⟩

-----------------------------------------------------------------------------------------
-- Rules
-----------------------------------------------------------------------------------------

namespace Triple

theorem ret {a : α} (stable : Stable P w pre)
    (implies : ∀ s, P.invariant s → pre s → post a s)
    : Triple P w excused pre (pure a) post :=
  fun s _ holds t invariant keeps => implies t invariant (stable s t invariant keeps holds)

theorem fail {e : ε} (excuse : excused e)
    : Triple P w excused pre (.fail e : Code σ ε α) post :=
  fun _ _ _ => excuse

theorem bind {f : α → Code σ ε β} {final : β → σ → Prop}
    (first : Triple P w excused pre code post)
    (rest : ∀ a, Triple P w excused (post a) (f a) final)
    : Triple P w excused pre (code >>= f) final :=
  fun s invariant holds => (first s invariant holds).bind invariant rest

theorem frame {fact : σ → Prop} (triple : Triple P w excused pre code post)
    (stable : Stable P w fact) (advances : ∀ s t, P.advances s t → fact s → fact t)
    : Triple P w excused (fun s => pre s ∧ fact s) code (fun a s => post a s ∧ fact s) :=
  fun s invariant holds => (triple s invariant holds.1).frame stable advances holds.2

/-- The precondition may be strengthened, also by what the invariant says. -/
theorem strengthen {weaker : σ → Prop} (triple : Triple P w excused weaker code post)
    (implies : ∀ s, P.invariant s → pre s → weaker s)
    : Triple P w excused pre code post :=
  fun s invariant holds => triple s invariant (implies s invariant holds)

/-- The postcondition may be weakened. -/
theorem mono {final : α → σ → Prop} (triple : Triple P w excused pre code post)
    (implies : ∀ a s, P.invariant s → post a s → final a s)
    : Triple P w excused pre code final :=
  fun s invariant holds => (triple s invariant holds).mono implies

/-- A pure fact of the precondition is a hypothesis. -/
theorem of_pure {fact : Prop} (triple : fact → Triple P w excused pre code post)
    : Triple P w excused (fun s => fact ∧ pre s) code post :=
  fun s invariant holds => triple holds.1 s invariant holds.2

/-- An atomic step from a stable assertion to one is judged by what its body does. -/
theorem atomically {enabled : σ → Prop} {body : σ → Except ε (α × σ)} (stable : Stable P w pre)
    (stablePost : ∀ a, Stable P w (post a))
    (fails : ∀ s e, P.invariant s → pre s → enabled s → body s = .error e → excused e)
    (returns : ∀ s a t, P.invariant s → pre s → enabled s → body s = .ok (a, t)
      → Allows P w s t ∧ post a t)
    : Triple P w excused pre (atomically enabled body) post := by
  intro s _ holds t invariant keeps ready
  have now := stable s t invariant keeps holds
  cases ran : body t with
  | error e =>
      simp only [effectOf, ran]
      refine ⟨⟨invariant, fun v _ => P.keeps_refl v t, P.advances_refl t⟩, ?_⟩
      exact fails t e invariant now ready ran
  | ok result =>
      obtain ⟨a, u⟩ := result
      simp only [effectOf, ran]
      obtain ⟨allows, after⟩ := returns t a u invariant now ready ran
      exact ⟨allows, fun v invariantV later => stablePost a u v invariantV later after⟩

end Triple

end Workers
