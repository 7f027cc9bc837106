import Sabot.Service.Registers

/-! Messages of clients that write their circuits in assembly, with semicolons between the lines,
and what the server makes of them.
-/

namespace Sabot

open Sabot.Language (Instruction)

namespace Net

open Sabot.Actions (bytes)
open Sabot.Universe (Serves)

/-- The text of a request up to its circuit. -/
def circuitHead (method ids : String) : List UInt8 :=
  bytes ("\x7b\"method\":\"" ++ method ++ "\",\"parameters\":[" ++ ids ++ ",\"chpext\",\"")

/-- The text of a request behind its circuit, whose lines end in semicolons. -/
def circuitTail : List UInt8 := bytes "\",59]\x7d" ++ [0]

def circuitMessage (method ids : String) (data : List UInt8) : List UInt8 :=
  circuitHead method ids ++ (data ++ circuitTail)

/-- The request with its strings left in the message. -/
def circuitRequest (method : String) (ids : List UInt64) (data : List UInt8) : Request :=
  ⟨bytes method, ids.map .unsigned ++ [
    .string chpextName (bytes ",\"" ++ data ++ 0 :: circuitTail.tail),
    .string data circuitTail.tail, .unsigned 59]⟩

/-- The requests with circuits that the clients send: the method and the ids. -/
def circuitMethods : List (String × String × List UInt64) :=
  [("create_state", "0", [0]), ("modify_state", "0,0", [0, 0]), ("measure_state", "0,0", [0, 0]),
    ("compute_result", "0", [0])]

/-- A parser of the messages of the clients. -/
def parseCircuits (message : List UInt8) : Request :=
  match circuitMethods.find? (fun item => (circuitHead item.1 item.2.1).isPrefixOf message) with
  | some (method, ids, values) =>
      circuitRequest method values ((message.drop (circuitHead method ids).length).take
        (message.length - (circuitHead method ids).length - circuitTail.length))
  | none => ⟨bytes "create_system", [.string chpStateName (bytes "]\x7d" ++ [0])]⟩

def clientLibraries : Libraries where
  parse := parseCircuits
  numbers := .nearest
  doubles := ⟨max, fun a _ => a, fun _ _ => true, fun _ _ => true⟩

theorem take_circuit (head data : List UInt8)
    : ((head ++ (data ++ circuitTail)).drop head.length).take
        ((head ++ (data ++ circuitTail)).length - head.length - circuitTail.length) = data := by
  rw [List.drop_left, List.length_append, List.length_append, Nat.add_sub_cancel_left,
    Nat.add_sub_cancel, List.take_left]

/-- No method and ids start like others. -/
theorem parse_circuit {method ids : String} {values : List UInt64}
    (listed : (method, ids, values) ∈ circuitMethods) (data : List UInt8)
    : parseCircuits (circuitMessage method ids data) = circuitRequest method values data := by
  have found : circuitMethods.find?
      (fun item => (circuitHead item.1 item.2.1).isPrefixOf (circuitMessage method ids data))
      = some (method, ids, values) := by
    simp only [circuitMethods, List.mem_cons, Prod.mk.injEq, List.not_mem_nil, or_false] at listed
    rcases listed with ⟨rfl, rfl, rfl⟩ | ⟨rfl, rfl, rfl⟩ | ⟨rfl, rfl, rfl⟩ | ⟨rfl, rfl, rfl⟩ <;> rfl
  rw [parseCircuits, found]
  exact congrArg (circuitRequest method values) (take_circuit _ data)

/-- The source that a message carries. -/
def circuitSource (data : List UInt8) : Universe.Source :=
  ⟨Language.cString chpextName (bytes ",\"" ++ data ++ 0 :: circuitTail.tail),
    Language.cString data circuitTail.tail, 59⟩

theorem asks_create (data : List UInt8)
    : Asks (parseCircuits (circuitMessage "create_state" "0" data))
        (.createState 0 (circuitSource data)) := by
  have listed : ("create_state", "0", [0]) ∈ circuitMethods := by simp [circuitMethods]
  rw [parse_circuit listed]
  exact .createState

theorem asks_modify (data : List UInt8)
    : Asks (parseCircuits (circuitMessage "modify_state" "0,0" data))
        (.modifyState 0 0 (circuitSource data)) := by
  have listed : ("modify_state", "0,0", [0, 0]) ∈ circuitMethods := by simp [circuitMethods]
  rw [parse_circuit listed]
  exact .modifyState

theorem asks_measure (data : List UInt8)
    : Asks (parseCircuits (circuitMessage "measure_state" "0,0" data))
        (.measureState 0 0 (circuitSource data)) := by
  have listed : ("measure_state", "0,0", [0, 0]) ∈ circuitMethods := by simp [circuitMethods]
  rw [parse_circuit listed]
  exact .measureState

/-- A circuit in assembly is spelled by its request. -/
theorem spells_assembly {instructions : List Instruction} {trailing : Bool}
    (last : trailing = true → instructions ≠ [])
    : (circuitSource (Language.assembly 59 instructions trailing)).Spells instructions where
  named := rfl
  parses := Language.parseProgram_of_assembly ⟨by decide, by decide⟩ [] (by simp) instructions
    trailing last _

theorem last_circuitMessage (method ids : String) (data : List UInt8)
    : (circuitMessage method ids data).getLast? = some 0 := by
  rw [circuitMessage, circuitTail, ← List.append_assoc, ← List.append_assoc]
  exact List.getLast?_concat

section Commands

variable {n : Nat} {instructions : List Instruction} {trailing : Bool}

theorem sends_create
    : Sends clientLibraries
        (circuitMessage "create_state" "0"
          (Language.assembly 59 (Instruction.init n :: instructions) trailing))
        (.createState 0 n instructions) :=
  .gives (last_circuitMessage _ _ _) (asks_create _) (.createState (spells_assembly (by simp)))

theorem sends_modify (last : trailing = true → instructions ≠ [])
    : Sends clientLibraries
        (circuitMessage "modify_state" "0,0" (Language.assembly 59 instructions trailing))
        (.modifyState 0 0 instructions) :=
  .gives (last_circuitMessage _ _ _) (asks_modify _) (.modifyState (spells_assembly last))

theorem sends_measure (last : trailing = true → instructions ≠ [])
    : Sends clientLibraries
        (circuitMessage "measure_state" "0,0" (Language.assembly 59 instructions trailing))
        (.measureState 0 0 instructions) :=
  .gives (last_circuitMessage _ _ _) (asks_measure _) (.measureState (spells_assembly last))

theorem sends_createSystem : Sends clientLibraries createSystemMessage .createSystem :=
  .gives (by decide) .createSystem (.createSystem (by decide))

/-- A message that has lost its terminator. -/
theorem sends_unterminated
    : Sends clientLibraries createSystemMessage.dropLast .malformed := by
  have ends : createSystemMessage.dropLast.getLast? = some 125 := by decide
  exact .unterminated ends (by decide)

/-- A first system and a first state in it have the ids zero. -/
theorem session_create {coins left : Stream' Bool} {replies : List Reply} {t : Service}
    (session : Service.Session .empty coins [.createSystem, .createState 0 n instructions] replies t
      left)
    : ∃ outcomes r, t.register 0 0 = some r
        ∧ (Register.fresh n).Runs instructions coins outcomes r left := by
  cases session with
  | step first session =>
      cases first
      cases session with
      | step second session =>
          cases session
          cases second with
          | @createState _ system _ _ outcomes r _ present runs =>
              have created : Registry.empty = system :=
                Option.some.inj (Registry.item_add.symm.trans present)
              subst created
              exact ⟨outcomes, r,
                Service.register_eq_some.mpr ⟨_, Registry.item_set present, Registry.item_add⟩, runs⟩

end Commands

/-- The circuit that prepares a Bell pair of two qubits. -/
def pairCircuit : List Instruction :=
  [⟨.hadamard, .cons 0 .nil⟩, ⟨.cnot, .cons 0 (.cons 1 .nil)⟩]

/-- The server implements the service. A new one serves a service that has nothing yet. And
whatever messages it receives, as long as the commands that they give are allowed, it answers each
of them by one response, and the responses are the replies of a session of the service, whose
registers and coins the universe has at the end.
-/
theorem server_implements_service (libraries : Libraries)
    : (∀ world draws, (∀ k, (world.grants.get k).isSome) → Serves (Universe.new world draws) .empty)
      ∧ ∀ u s messages commands, Serves u s → List.Forall₂ (Sends libraries) messages commands
        → s.Admits u.world.coins commands
        → ∃ responses u' replies t, workAll libraries messages u = (.ok responses, u')
            ∧ List.Forall₂ Responds responses replies
            ∧ s.Session u.world.coins commands replies t u'.world.coins ∧ Serves u' t :=
  ⟨fun _ draws memory => serves_new memory draws,
    fun _ _ _ _ serves sends admits => workAll_refines serves sends admits⟩

/-- From a new server on: a system, a Bell pair in it, a message that has lost its terminator, a
flip of one half of the pair, and the measurement of both.
-/
theorem server_implements_service_two
    : ∃ responses u replies t,
        workAll clientLibraries
          [createSystemMessage,
            circuitMessage "create_state" "0"
              (Language.assembly 59 (Instruction.init 2 :: pairCircuit) true),
            createSystemMessage.dropLast,
            circuitMessage "modify_state" "0,0"
              (Language.assembly 59 [⟨.paulix, .cons 0 .nil⟩] false),
            circuitMessage "measure_state" "0,0"
              (Language.assembly 59 [⟨.measure, .cons 0 .nil⟩, ⟨.measure, .cons 1 .nil⟩] true)]
          (Universe.new Universe.oneSystem.world Universe.oneSystem.draws) = (.ok responses, u)
        ∧ List.Forall₂ Responds responses replies
        ∧ Service.Session .empty Universe.oneSystem.world.coins
            [.createSystem, .createState 0 2 pairCircuit, .malformed,
              .modifyState 0 0 [⟨.paulix, .cons 0 .nil⟩],
              .measureState 0 0 [⟨.measure, .cons 0 .nil⟩, ⟨.measure, .cons 1 .nil⟩]]
            replies t u.world.coins
        ∧ Serves u t := by
  have prepares : ∀ instruction ∈ pairCircuit, instruction.Within 2 := by decide
  have flips : ∀ instruction ∈ [(⟨.paulix, .cons 0 .nil⟩ : Instruction)], instruction.Within 2 := by
    decide
  have measures : ∀ instruction ∈ [(⟨.measure, .cons 0 .nil⟩ : Instruction),
      ⟨.measure, .cons 1 .nil⟩], instruction.Within 2 := by
    decide
  have admits : Service.Admits .empty Universe.oneSystem.world.coins
      [.createSystem, .createState 0 2 pairCircuit, .malformed,
        .modifyState 0 0 [⟨.paulix, .cons 0 .nil⟩],
        .measureState 0 0 [⟨.measure, .cons 0 .nil⟩, ⟨.measure, .cons 1 .nil⟩]] := by
    refine ⟨(by decide : 0 + 1 < 2 ^ 64), fun _ _ _ first => ?_⟩
    refine ⟨?_, fun _ s _ second => ⟨trivial, fun _ _ _ idle => ?_⟩⟩
    · cases first
      exact ⟨by decide, prepares, .empty, Registry.item_add, by decide⟩
    · cases idle
      obtain ⟨_, r, held, ⟨_⟩⟩ := session_create (.step first (.step second .done))
      refine ⟨Service.allows_modify held flips, fun _ _ _ third => ?_⟩
      obtain ⟨_, r', ⟨_⟩, kept⟩ := third.modifies held
      exact ⟨Service.allows_measure kept measures, fun _ _ _ _ => trivial⟩
  obtain ⟨new, serves⟩ := server_implements_service clientLibraries
  exact serves _ _ _ _ (new _ Universe.oneSystem.draws fun _ => rfl)
    (.cons sends_createSystem (.cons sends_create (.cons sends_unterminated
      (.cons (sends_modify (by simp)) (.cons (sends_measure (by simp)) .nil))))) admits

/-- A client creates a first system and a first state on a new server. -/
theorem workAll_create {n : Nat} (small : n < 2 ^ 31) {instructions : List Instruction}
    (within : ∀ instruction ∈ instructions, instruction.Within n) (trailing : Bool)
    : ∃ responses u s r outcomes left,
        workAll clientLibraries
          [createSystemMessage, circuitMessage "create_state" "0"
            (Language.assembly 59 (Instruction.init n :: instructions) trailing)]
          (Universe.new Universe.oneSystem.world Universe.oneSystem.draws) = (.ok responses, u)
        ∧ Serves u s ∧ s.register 0 0 = some r
        ∧ (Register.fresh n).Runs instructions Universe.oneSystem.world.coins outcomes r left := by
  have serves : Serves (Universe.new Universe.oneSystem.world Universe.oneSystem.draws) .empty :=
    serves_new (fun _ => rfl) _
  have admits : Service.Admits .empty Universe.oneSystem.world.coins
      [.createSystem, .createState 0 n instructions] := by
    refine ⟨(by decide : 0 + 1 < 2 ^ 64), fun reply t left step => ?_⟩
    cases step
    exact ⟨⟨small, within, .empty, Registry.item_add, by decide⟩, fun _ _ _ _ => trivial⟩
  obtain ⟨responses, u, replies, s, ran, _, session, serves⟩ :=
    workAll_refines serves (.cons sends_createSystem (.cons sends_create .nil)) admits
  obtain ⟨outcomes, r, held, runs⟩ := session_create session
  exact ⟨responses, u, s, r, outcomes, _, ran, serves, held, runs⟩

end Net

end Sabot
