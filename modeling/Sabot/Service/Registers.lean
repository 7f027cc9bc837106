import Sabot.Service.Sessions

/-! Registers over sessions: commands that do not name a register leave it alone, so that a client
finds it as its own commands have left it.
-/

namespace Sabot

open Sabot.Language (Instruction)

-----------------------------------------------------------------------------------------
-- Commands that spare a register
-----------------------------------------------------------------------------------------

/-- The command leaves the state under the ids alone. -/
def Command.Spares (systemId stateId : Nat) : Command → Prop
  | .deleteSystem system => system ≠ systemId
  | .modifyState system state _ | .measureState system state _ | .deleteState system state =>
      system ≠ systemId ∨ state ≠ stateId
  | _ => True

namespace Service

/-- The register under the ids. -/
def register (s : Service) (systemId stateId : Nat) : Option Register :=
  (s.item systemId).bind fun system => system.item stateId

variable {s t : Service} {coins left : Stream' Bool} {systemId stateId : Nat} {r : Register}

theorem register_eq_some
    : s.register systemId stateId = some r
      ↔ ∃ system, s.item systemId = some system ∧ system.item stateId = some r :=
  Option.bind_eq_some_iff

/-- A change of a system that keeps its register. -/
theorem register_set {other : Nat} {system changed : Registry Register}
    (held : s.register systemId stateId = some r) (present : s.item other = some system)
    (kept : other = systemId → system.item stateId = some r → changed.item stateId = some r)
    : register (s.set other changed) systemId stateId = some r := by
  obtain ⟨own, found, stored⟩ := register_eq_some.mp held
  by_cases same : other = systemId
  · subst same
    obtain rfl : system = own := Option.some.inj (present.symm.trans found)
    exact register_eq_some.mpr ⟨changed, Registry.item_set present, kept rfl stored⟩
  · exact register_eq_some.mpr
      ⟨own, (Registry.item_set_of_ne (Ne.symm same)).trans found, stored⟩

/-- A command keeps the registers that it spares. -/
theorem Step.keeps_register {command : Command} {reply : Reply}
    (step : s.Step coins command reply t left) (spares : command.Spares systemId stateId)
    (held : s.register systemId stateId = some r)
    : t.register systemId stateId = some r := by
  have apart {other state : Nat} (spared : other ≠ systemId ∨ state ≠ stateId)
      (same : other = systemId) : stateId ≠ state :=
    (spared.resolve_left (fun ne => ne same)).symm
  obtain ⟨own, found, stored⟩ := register_eq_some.mp held
  cases step with
  | createSystem =>
      exact register_eq_some.mpr ⟨own, Registry.item_add_of_some found, stored⟩
  | deleteSystem present =>
      exact register_eq_some.mpr
        ⟨own, (Registry.item_remove_of_ne (Ne.symm spares)).trans found, stored⟩
  | createState present runs =>
      exact register_set held present (fun _ => Registry.item_add_of_some)
  | modifyState present stored runs =>
      exact register_set held present
        (fun same => (Registry.item_set_of_ne (apart spares same)).trans)
  | measureState present stored runs =>
      exact register_set held present
        (fun same => (Registry.item_set_of_ne (apart spares same)).trans)
  | deleteState present stored =>
      exact register_set held present
        (fun same => (Registry.item_remove_of_ne (apart spares same)).trans)
  | computeResult present runs => exact held
  | malformed => exact held

/-- A session keeps the registers that its commands spare. -/
theorem Session.keeps_register {commands : List Command} {replies : List Reply}
    (session : s.Session coins commands replies t left)
    (spares : ∀ command ∈ commands, command.Spares systemId stateId)
    (held : s.register systemId stateId = some r)
    : t.register systemId stateId = some r := by
  induction session with
  | done => exact held
  | step step _ ih =>
      exact ih (fun command member => spares command (List.mem_cons_of_mem _ member))
        (step.keeps_register (spares _ List.mem_cons_self) held)

/-- A session of two parts has a session of each of them. -/
theorem Session.split {first second : List Command} {replies : List Reply}
    (session : s.Session coins (first ++ second) replies t left)
    : ∃ before u middle after, replies = before ++ after
        ∧ s.Session coins first before u middle ∧ u.Session middle second after t left := by
  induction first generalizing s coins replies with
  | nil => exact ⟨[], s, coins, replies, rfl, .done, session⟩
  | cons command rest ih =>
      cases session with
      | step step session =>
          obtain ⟨before, u, middle, after, rfl, earlier, later⟩ := ih session
          exact ⟨_ :: before, u, middle, after, rfl, .step step earlier, later⟩

variable {instructions : List Instruction}

/-- A circuit on the qubits of a register may be given to it. -/
theorem allows_modify (held : s.register systemId stateId = some r)
    (within : ∀ instruction ∈ instructions, instruction.Within r.qubits)
    : s.Allows (.modifyState systemId stateId instructions) := by
  obtain ⟨system, present, stored⟩ := register_eq_some.mp held
  exact ⟨system, r, present, stored, within⟩

theorem allows_measure (held : s.register systemId stateId = some r)
    (within : ∀ instruction ∈ instructions, instruction.Within r.qubits)
    : s.Allows (.measureState systemId stateId instructions) :=
  allows_modify held within

/-- Modifying a state runs the instructions on its register. -/
theorem Step.modifies {reply : Reply}
    (step : s.Step coins (.modifyState systemId stateId instructions) reply t left)
    (held : s.register systemId stateId = some r)
    : ∃ outcomes r', r.Runs instructions coins outcomes r' left
        ∧ t.register systemId stateId = some r' := by
  obtain ⟨own, found, stored⟩ := register_eq_some.mp held
  cases step with
  | @modifyState _ _ system _ outcomes r₀ r' _ present modified runs =>
      obtain rfl : own = system := Option.some.inj (found.symm.trans present)
      obtain rfl : r = r₀ := Option.some.inj (stored.symm.trans modified)
      exact ⟨outcomes, r', runs,
        register_eq_some.mpr ⟨_, Registry.item_set present, Registry.item_set stored⟩⟩

/-- Measuring a state runs the instructions on its register, and replies the outcomes. -/
theorem Step.measures {reply : Reply}
    (step : s.Step coins (.measureState systemId stateId instructions) reply t left)
    (held : s.register systemId stateId = some r)
    : ∃ outcomes r', reply = .outcomes outcomes ∧ r.Runs instructions coins outcomes r' left
        ∧ t.register systemId stateId = some r' := by
  obtain ⟨own, found, stored⟩ := register_eq_some.mp held
  cases step with
  | @measureState _ _ system _ outcomes r₀ r' _ present measured runs =>
      obtain rfl : own = system := Option.some.inj (found.symm.trans present)
      obtain rfl : r = r₀ := Option.some.inj (stored.symm.trans measured)
      exact ⟨outcomes, r', rfl, runs,
        register_eq_some.mpr ⟨_, Registry.item_set present, Registry.item_set stored⟩⟩

/-- A state that nobody else touches is measured as it was, whatever is asked for before. -/
theorem Session.measures {commands : List Command} {replies : List Reply}
    (session : s.Session coins
      (commands ++ [.measureState systemId stateId instructions]) replies t left)
    (spares : ∀ command ∈ commands, command.Spares systemId stateId)
    (held : s.register systemId stateId = some r)
    : ∃ before outcomes middle r', replies = before ++ [.outcomes outcomes]
        ∧ r.Runs instructions middle outcomes r' left
        ∧ t.register systemId stateId = some r' := by
  obtain ⟨before, u, middle, after, rfl, earlier, later⟩ := session.split
  cases later with
  | step final session =>
      cases session
      obtain ⟨outcomes, r', rfl, runs, kept⟩ :=
        final.measures (earlier.keeps_register spares held)
      exact ⟨before, outcomes, middle, r', rfl, runs, kept⟩

end Service

namespace Net

open Sabot.State (character)
open Sabot.Universe (Serves)

variable {libraries : Libraries} {u : Universe} {s : Service} {systemId stateId : Nat} {r : Register}

/-- The last response carries the outcomes that are replied last. -/
theorem responds_last {responses : List Response} {before : List Reply} {outcomes : List Bool}
    (responds : List.Forall₂ Responds responses (before ++ [.outcomes outcomes]))
    : ∃ earlier buffer, responses = earlier ++ [⟨.buffer buffer, false⟩]
        ∧ buffer.Holds (outcomes.map character) := by
  have final := List.forall₂_drop_append _ _ _ responds
  rw [← List.take_append_drop before.length responses]
  generalize List.drop before.length responses = ends at final
  cases final with
  | cons responds rest =>
      cases rest
      cases responds with
      | outcomes holds => exact ⟨_, _, rfl, holds⟩

/-- The last of several messages measures a state that the others spare. -/
theorem workAll_measures (serves : Serves u s) (held : s.register systemId stateId = some r)
    {commands : List Command} (spares : ∀ command ∈ commands, command.Spares systemId stateId)
    {instructions : List Instruction} {messages : List (List UInt8)}
    (sends : List.Forall₂ (Sends libraries) messages
      (commands ++ [.measureState systemId stateId instructions]))
    (admits : s.Admits u.world.coins
      (commands ++ [.measureState systemId stateId instructions]))
    : ∃ responses buffer outcomes u' t r' middle,
        workAll libraries messages u = (.ok (responses ++ [⟨.buffer buffer, false⟩]), u')
        ∧ buffer.Holds (outcomes.map character)
        ∧ r.Runs instructions middle outcomes r' u'.world.coins
        ∧ Serves u' t ∧ t.register systemId stateId = some r' := by
  obtain ⟨responses, u', replies, t, ran, responds, session, servesT⟩ :=
    workAll_refines serves sends admits
  obtain ⟨before, outcomes, middle, r', rfl, runs, kept⟩ := session.measures spares held
  obtain ⟨earlier, buffer, rfl, holds⟩ := responds_last responds
  exact ⟨earlier, buffer, outcomes, u', t, r', middle, ran, holds, runs, servesT, kept⟩

end Net

end Sabot
