import Sabot.Service.Sessions
import Sabot.Universe.Linearization

/-! Workers that run at once implement the service together: the requests that have taken effect are
a history of the service, one command after the other, each with the coins that it has drawn.
-/

namespace Sabot

namespace Service

/-- What has been commanded, with the coins of each command and its reply, and the service then. -/
inductive History : List (Stream' Bool × Command × Reply) → Service → Prop where
  | start : History [] .empty
  | step {history s coins command reply t left} (before : History history s)
      (step : s.Step coins command reply t left)
      : History (history ++ [(coins, command, reply)]) t

/-- No more systems are created than commands are given. -/
theorem History.next_le {history : List (Stream' Bool × Command × Reply)} {s : Service}
    (happened : History history s)
    : s.next ≤ history.length := by
  induction happened with
  | start => exact le_rfl
  | step _ step ih =>
      rw [List.length_append, List.length_singleton]
      cases step with
      | createSystem => exact Nat.succ_le_succ ih
      | _ => exact Nat.le_succ_of_le ih

theorem History.of_append {history : List (Stream' Bool × Command × Reply)} {coins : Stream' Bool}
    {command : Command} {reply : Reply} {t : Service}
    (happened : History (history ++ [(coins, command, reply)]) t)
    : ∃ s left, History history s ∧ s.Step coins command reply t left := by
  generalize whole : history ++ [(coins, command, reply)] = list at happened
  cases happened with
  | start => simp at whole
  | step before step =>
      obtain ⟨rfl, last⟩ := List.append_inj' whole rfl
      cases last
      exact ⟨_, _, before, step⟩

end Service

namespace Universe

open Service (History)

variable {W : Type}

/-- The effect of a request is that of a command with the same coins. -/
def Matches (effect : W × Call × Answer) (event : Stream' Bool × Command × Reply) : Prop :=
  effect.2.1.2.coins = event.1 ∧ Gives effect.2.1.1 event.2.1 ∧ Says effect.2.2 event.2.2

/-- Every request gives a command that is allowed when it takes effect, and has all the memory that
it asks for.
-/
def Behaves (order : List (W × Call × Answer)) : Prop :=
  ∀ before effect, before ++ [effect] <+: order
    → (∀ k, (effect.2.1.2.grants.get k).isSome)
      ∧ ∀ history s, List.Forall₂ Matches before history → History history s
        → ∃ command, Gives effect.2.1.1 command ∧ s.Allows command

theorem behaves_nil : Behaves ([] : List (W × Call × Answer)) := by
  intro before effect early
  exact absurd (List.prefix_nil.mp early) (by simp)

theorem Behaves.concat {order : List (W × Call × Answer)} (behaves : Behaves order)
    {effect : W × Call × Answer} (memory : ∀ k, (effect.2.1.2.grants.get k).isSome)
    (gives : ∀ history s, List.Forall₂ Matches order history → History history s
      → ∃ command, Gives effect.2.1.1 command ∧ s.Allows command)
    : Behaves (order ++ [effect]) := by
  intro before last early
  rcases List.prefix_concat_iff.mp early with whole | early
  · obtain ⟨rfl, same⟩ := List.append_inj' whole rfl
    cases same
    exact ⟨memory, gives⟩
  · exact behaves before last early

/-- Requests that are performed one at a time are a history of the service. -/
theorem Replays.history {order : List (W × Call × Answer)} {u : Universe} (replays : Replays order u)
    (behaves : Behaves order)
    : ∃ history s, List.Forall₂ Matches order history ∧ History history s
        ∧ u.quantumSystems.Implements HoldsSystem s ∧ Speaks u.interpreters := by
  induction replays with
  | start =>
      refine ⟨[], .empty, .nil, .start, MsContainer.implements_new, fun entry found => ?_⟩
      simp [Universe.new] at found
  | @performs order u w request world answer next before performs ih =>
      obtain ⟨history, s, all, happened, systems, speaks⟩ :=
        ih (fun early effect prefixed => behaves early effect
          (prefixed.trans (List.prefix_append _ _)))
      obtain ⟨memory, gives⟩ := behaves order (w, (request, world), answer) List.prefix_rfl
      obtain ⟨command, gives, allows⟩ := gives history s all happened
      have serves : Serves { u with world := world } s := ⟨systems, speaks, memory⟩
      obtain ⟨answer', next', reply, t, performs', agrees, step, servesT⟩ :=
        perform_refines serves gives allows
      rw [performs] at performs'
      cases performs'
      exact ⟨history ++ [(world.coins, command, reply)], t,
        List.rel_append all (.cons ⟨rfl, gives, agrees⟩ .nil), .step happened step, servesT.systems,
        servesT.speaks⟩

/-- The workers implement the service. In every pool that is reached, whatever the interleaving of
the workers' steps, the requests that have taken effect are a history of the service, and the systems
have its registers; when all workers are idle, these are the completed requests.
-/
theorem workers_implement_service [DecidableEq W] {pool : WorkerPool W}
    (reaches : (WorkerPool.start W).Reaches pool) (behaves : Behaves pool.shared.order)
    : ∃ history s, List.Forall₂ Matches pool.shared.order history ∧ History history s
        ∧ pool.shared.systems.Implements HoldsSystem s
        ∧ (∀ w, Workers.ofWorker w pool.completed <+: Workers.ofWorker w pool.shared.order)
        ∧ ((∀ w, pool.worker w = none) → pool.shared.order.Perm pool.completed) := by
  obtain ⟨sound, _⟩ := sound_reaches sound_start reaches
  obtain ⟨u, replays, same, _⟩ := Coherent.replays sound.invariant
  obtain ⟨history, s, all, happened, systems, _⟩ := replays.history behaves
  refine ⟨history, s, all, happened, same ▸ systems, completed_reaches reaches, fun idle => ?_⟩
  refine Workers.perm_of_ofWorker fun w => ?_
  have waiting := sound.workers w
  rw [idle w] at waiting
  exact waiting.order

section FirstUsers

variable {history : List (Stream' Bool × Command × Reply)} {s : Service}

/-- The text is `init 1`. -/
theorem gives_encodeCall (systemId : UInt64)
    : Gives (encodeCall systemId).1 (.createState systemId.toNat 1 []) := by
  have digits : Language.decimalDigits 1 = [49] := by simp [Language.decimalDigits]
  have line : (Language.Instruction.init 1).text = [105, 110, 105, 116, 32, 49] := by
    change Language.mnemonic .initializeOp ++ 32 :: [44].intercalate [Language.decimalDigits 1] = _
    rw [digits]
    rfl
  have delimits : Language.Delimits 10 := ⟨by decide, by decide⟩
  have parses := Language.parseProgram_of_assembly delimits [] (by simp)
    [Language.Instruction.init 1] false (by simp) []
  have data : Language.cString ([] ++ Language.assembly 10 [Language.Instruction.init 1] false) []
      = [105, 110, 105, 116, 32, 49, 0] := by
    simp [Language.assembly, Language.cString, line]
  rw [data] at parses
  exact .createState ⟨rfl, parses⟩

variable {effect : W × Call × Answer} {event : Stream' Bool × Command × Reply}

theorem Matches.creates (same : Matches effect event) (call : effect.2.1 = createCall)
    (happened : History (history ++ [event]) s)
    : ∃ t, History history t ∧ s = t.add .empty := by
  obtain ⟨coins, command, reply⟩ := event
  obtain ⟨_, gives, _⟩ := same
  rw [call] at gives
  obtain ⟨t, left, before, step⟩ := happened.of_append
  cases gives
  cases step
  exact ⟨t, before, rfl⟩

theorem Matches.encodes (same : Matches effect event) {systemId : UInt64}
    (call : effect.2.1 = encodeCall systemId) (happened : History (history ++ [event]) s)
    : ∃ t system r, History history t ∧ t.item systemId.toNat = some system
        ∧ s = t.set systemId.toNat (system.add r) := by
  obtain ⟨coins, command, reply⟩ := event
  obtain ⟨_, gives, _⟩ := same
  rw [call] at gives
  obtain ⟨t, left, before, step⟩ := happened.of_append
  cases gives
  cases step with
  | createState present runs => exact ⟨t, _, _, before, present, rfl⟩

/-- The first two systems are empty when both have been created. -/
theorem Matches.two_systems {other : W × Call × Answer} {next : Stream' Bool × Command × Reply}
    (same : Matches effect event) (call : effect.2.1 = createCall) (sameNext : Matches other next)
    (callNext : other.2.1 = createCall) (happened : History [event, next] s)
    : s.item 0 = some .empty ∧ s.item 1 = some .empty := by
  have second : History ([event] ++ [next]) s := happened
  obtain ⟨t, before, rfl⟩ := sameNext.creates callNext second
  obtain ⟨u, first, rfl⟩ := same.creates call (show History ([] ++ [event]) t from before)
  have none : u.next = 0 := Nat.le_zero.mp first.next_le
  have zero : (u.add .empty).item 0 = some .empty := none ▸ Registry.item_add
  have one : ((u.add .empty).add .empty).item (u.next + 1) = some .empty := Registry.item_add
  rw [none] at one
  exact ⟨Registry.item_add_of_some zero, one⟩

/-- Two systems and a state in each give commands that are allowed. -/
theorem behaves_firstUsers {order : List (W × Call × Answer)}
    (calls : order.map (fun effect => effect.2.1)
      = [createCall, createCall, encodeCall 0, encodeCall 1])
    : Behaves order := by
  have four : order.length = 4 := by simpa using congrArg List.length calls
  obtain ⟨e₀, e₁, e₂, e₃, rfl⟩ := List.length_eq_four.mp four
  simp only [List.map_cons, List.map_nil, List.cons.injEq, and_true] at calls
  obtain ⟨call₀, call₁, call₂, call₃⟩ := calls
  have creates {s : Service} {effect : W × Call × Answer} (call : effect.2.1 = createCall)
      (few : s.next ≤ 1)
      : ∃ command, Gives effect.2.1.1 command ∧ s.Allows command :=
    ⟨.createSystem, call ▸ .createSystem rfl, lt_of_le_of_lt (Nat.succ_le_succ few) (by decide)⟩
  have encodes {s : Service} {effect : W × Call × Answer} {systemId : UInt64}
      (call : effect.2.1 = encodeCall systemId) (present : s.item systemId.toNat = some .empty)
      : ∃ command, Gives effect.2.1.1 command ∧ s.Allows command :=
    ⟨.createState systemId.toNat 1 [], call ▸ gives_encodeCall systemId,
      by decide, by simp, .empty, present, by decide⟩
  have granted {effect : W × Call × Answer} (call : effect.2.1 = createCall ∨
      ∃ systemId, effect.2.1 = encodeCall systemId)
      : ∀ k, (effect.2.1.2.grants.get k).isSome := by
    rcases call with call | ⟨_, call⟩ <;> exact call ▸ fun _ => rfl
  have first : Behaves [e₀] :=
    behaves_nil.concat (granted (Or.inl call₀)) fun history s all happened => by
      cases all
      exact creates call₀ (happened.next_le.trans (by decide))
  have second : Behaves [e₀, e₁] :=
    first.concat (granted (Or.inl call₁)) fun history s all happened => by
      rcases all with _ | ⟨_, _ | _⟩
      exact creates call₁ happened.next_le
  have third : Behaves [e₀, e₁, e₂] :=
    second.concat (granted (Or.inr ⟨0, call₂⟩)) fun history s all happened => by
      rcases all with _ | ⟨same₀, _ | ⟨same₁, _ | _⟩⟩
      exact encodes call₂ (same₀.two_systems call₀ same₁ call₁ happened).1
  refine third.concat (granted (Or.inr ⟨1, call₃⟩)) fun history s all happened => ?_
  rcases all with _ | ⟨same₀, _ | ⟨same₁, _ | ⟨same₂, _ | _⟩⟩⟩
  -- The first state is not in the second system.
  have last : History ([_, _] ++ [_]) s := happened
  obtain ⟨t, system, r, earlier, _, rfl⟩ := same₂.encodes call₂ last
  refine encodes call₃ ?_
  have apart : (1 : UInt64).toNat ≠ (0 : UInt64).toNat := by decide
  rw [Registry.item_set_of_ne apart]
  exact (same₀.two_systems call₀ same₁ call₁ earlier).2

end FirstUsers

/-- Two first users of a dialect, each with a state in a system of its own. -/
theorem workers_implement_service_two
    : ∃ pool : WorkerPool Bool, (∀ w, pool.worker w = none)
        ∧ pool.shared.order.map (fun effect => effect.2.1)
          = [createCall, createCall, encodeCall 0, encodeCall 1]
        ∧ ∃ history s, List.Forall₂ Matches pool.shared.order history ∧ History history s
          ∧ pool.shared.systems.Implements HoldsSystem s
          ∧ (∀ w, Workers.ofWorker w pool.completed <+: Workers.ofWorker w pool.shared.order)
          ∧ ((∀ w, pool.worker w = none) → pool.shared.order.Perm pool.completed) := by
  obtain ⟨pool, reaches, calls, _, _, _, idle⟩ := firstUsers_reached
  exact ⟨pool, idle, calls, workers_implement_service reaches (behaves_firstUsers calls)⟩

end Universe

end Sabot
