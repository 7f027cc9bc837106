import Sabot.Universe.Effects

/-! Requests linearize: whatever the interleaving of the workers' steps, the systems are those of
performing the requests one at a time, in the order in which they took effect.
-/

namespace Sabot.Universe

open Sabot.Language (Byte Program parseProgram)
open Sabot.State (ChpState World)
open Workers (Allows Code Protocol Stable Triple atomically ofWorker ofWorker_append ofWorker_other
  ofWorker_self)

variable {W : Type} [DecidableEq W] {w : W} {held : Holding} {done : List (Call × Answer)}
  {s : Shared W} {list : ListId} {item : Item}

-----------------------------------------------------------------------------------------
-- Requests
-----------------------------------------------------------------------------------------

section Requests

variable {systemId stateId : UInt64} {source : Source} {call : Call}

/-- A worker that holds nothing. -/
def Holding.none : Holding := ⟨[], [], []⟩

/-- A worker whose function runs on a system. -/
def Holding.system (systemId : UInt64) : Holding := Holding.none.open (.system systemId)

theorem opens_system (systemId : UInt64) : Opens Holding.none (.system systemId) where
  unread := List.not_mem_nil
  outside _ member := absurd member List.not_mem_nil
  within _ same := by cases same
  outer _ _ := ⟨List.not_mem_nil, List.not_mem_nil⟩

theorem opens_interpreter (systemId : UInt64) (name : List Byte)
    : Opens (Holding.system systemId) (.interpreter name) where
  unread := by simp [Holding.system, Holding.open, Holding.none, Item.list]
  outside := by simp [Holding.system, Holding.open, Holding.none, Item.list]
  within _ same := by cases same
  outer _ same := by cases same

theorem opens_state (systemId stateId : UInt64)
    : Opens (Holding.system systemId) (.state systemId stateId) where
  unread := by simp [Holding.system, Holding.open, Holding.none, Item.list]
  outside := by simp [Holding.system, Holding.open, Holding.none, Item.list]
  within _ same := by
    cases same
    exact List.mem_cons_self
  outer _ same := by cases same

theorem within_system (systemId : UInt64)
    : Within (Holding.system systemId).items (.states systemId) := by
  intro other same
  cases same
  exact List.mem_cons_self

/-- Systems and states are not expected to be there. -/
theorem editItem_effect (opens : Opens held item) (other : ∀ name, item ≠ .interpreter name)
    {function : Task W Answer}
    (body : Triple (protocol W) w Excused (Holds w (held.open item) done) function
      (fun a => Holds w (held.open item) (done ++ [(call, a)])))
    : Triple (protocol W) w Excused (Holds w held done) (editItem w item function)
        (fun a => Holds w held (done ++ [(call, a)])) := by
  have runs : Triple (protocol W) w Excused (Holds w (held.open item) done) function
      (fun a s => True ∧ Holds w (held.open item) (done ++ [(call, a)]) s) :=
    body.mono (fun _ _ _ now => ⟨trivial, now⟩)
  refine ((editItem_triple opens runs).strengthen (fun s _ now => ⟨now, ?_⟩)).mono
    (fun _ _ _ now => now.2)
  rintro ⟨name, same⟩
  exact absurd same (other name)

/-- The function on a system compiles a text first. -/
theorem compiled_effect {rest : Program → Task W Answer}
    (body : ∀ program, source.Means program
      → Triple (protocol W) w Excused (Holds w (Holding.system systemId) done) (rest program)
        (fun a => Holds w (Holding.system systemId) (done ++ [(call, a)])))
    : Triple (protocol W) w Excused (Holds w Holding.none done)
        (editItem w (.system systemId) (compileProgramTask w source >>= rest))
        (fun a => Holds w Holding.none (done ++ [(call, a)])) := by
  refine editItem_effect (opens_system systemId) (fun _ same => by cases same) ?_
  refine Triple.bind (compileProgramTask_triple (opens_interpreter systemId) List.not_mem_nil) ?_
  exact fun program => Triple.of_pure (body program)

theorem erase_ok {κ ι : Type} [DecidableEq κ] {destroy : ι → Except Stop Unit} {key : κ}
    {c next : MsContainer κ ι} {ok : Bool} (ran : MsContainer.erase destroy key c = (.ok ok, next))
    : next = c.remove key := by
  cases found : c.find key with
  | none =>
      simp only [MsContainer.erase, found] at ran
      cases ran
  | some entry =>
      cases destroyed : destroy entry.item with
      | error e =>
          simp only [MsContainer.erase, found, destroyed] at ran
          cases ran
      | ok _ =>
          simp only [MsContainer.erase, found, destroyed] at ran
          cases ran
          rfl

theorem createSystem_triple {stateType : List Byte} {world : World}
    : Triple (protocol W) w Excused (Holds w Holding.none done)
        (task w (.createSystem stateType, world) (.createSystem stateType))
        (fun a => Holds w Holding.none (done ++ [((.createSystem stateType, world), a)])) := by
  refine exclusively_triple List.not_mem_nil (fun _ same => by cases same) ?_
  refine onSystems_triple List.mem_cons_self (fun s id coherent => coherent.flags_clearNew _) ?_ ?_
  · intro systems id next ran key entry found
    unfold QuantumSystem.new at ran
    by_cases known : text stateType = chpStateName
    · simp only [known, ↓reduceIte, MsContainer.insertWith] at ran
      cases ran
      rcases MsContainer.find_emplace_cases _ _ found with old | ⟨_, new⟩
      · exact Or.inl old
      · exact Or.inr new
    · simp [known, MsContainer.insertWith] at ran
  · intro u
    exact Run.map_apply _ _ _

theorem deleteSystem_triple {world : World}
    : Triple (protocol W) w Excused (Holds w Holding.none done)
        (task w (.deleteSystem systemId, world) (.deleteSystem systemId))
        (fun a => Holds w Holding.none (done ++ [((.deleteSystem systemId, world), a)])) := by
  refine exclusively_triple List.not_mem_nil (fun _ same => by cases same) ?_
  refine onSystems_triple List.mem_cons_self (fun s id coherent => coherent.flags) ?_ ?_
  · intro systems ok next ran key entry found
    rw [erase_ok ran] at found
    by_cases same : key = systemId
    · rw [same, MsContainer.find_remove] at found
      cases found
    · rw [MsContainer.find_remove_of_ne _ same] at found
      exact Or.inl found
  · intro u
    exact Run.map_apply _ _ _

theorem createState_triple {world : World}
    : Triple (protocol W) w Excused (Holds w Holding.none done)
        (task w (.createState systemId source, world) (.createState systemId source))
        (fun a => Holds w Holding.none
          (done ++ [((.createState systemId source, world), a)])) := by
  refine compiled_effect (fun program means => ?_)
  refine Triple.bind (proceed_triple Holds.stable) (fun encoded => Triple.of_pure (fun encodes => ?_))
  obtain ⟨state, left⟩ := encoded
  refine exclusively_triple List.not_mem_nil (within_system systemId) ?_
  refine onItem_triple List.mem_cons_self (fun s id coherent => coherent.flags_clearNew _) ?_ ?_ ?_
  · rintro system id next left free ⟨⟩ key entry found
    rcases MsContainer.find_emplace_cases _ _ found with old | ⟨_, rfl⟩
    · exact free key entry old
    · rfl
  · rintro s system id next left _ _ ⟨⟩ v _ key present
    obtain ⟨entry, found⟩ := Option.isSome_iff_exists.mp present
    exact Option.isSome_of_eq_some (MsContainer.find_emplace_of_some _ _ found)
  · rintro system id next _ ⟨⟩ u free fluent
    have inserts : QuantumSystem.programInsertState program (system, world)
        = (.ok system.states.keyGenerator, ⟨(MsContainer.insert state system.states).2⟩, left) := by
      simp only [QuantumSystem.programInsertState, encodes]
      rfl
    exact fluent.performs means free inserts

theorem modifyState_triple {world : World}
    : Triple (protocol W) w Excused (Holds w Holding.none done)
        (task w (.modifyState systemId stateId source, world)
          (.modifyState systemId stateId source))
        (fun a => Holds w Holding.none
          (done ++ [((.modifyState systemId stateId source, world), a)])) := by
  refine compiled_effect (fun program means => ?_)
  refine editItem_effect (opens_state systemId stateId) (fun _ same => by cases same) ?_
  refine onStored_triple (List.mem_cons_of_mem _ List.mem_cons_self) List.mem_cons_self ?_
  intro system a next left ran u free fluent
  exact fluent.performs means free ran

theorem measureState_triple {world : World}
    : Triple (protocol W) w Excused (Holds w Holding.none done)
        (task w (.measureState systemId stateId source, world)
          (.measureState systemId stateId source))
        (fun a => Holds w Holding.none
          (done ++ [((.measureState systemId stateId source, world), a)])) := by
  refine compiled_effect (fun program means => ?_)
  refine editItem_effect (opens_state systemId stateId) (fun _ same => by cases same) ?_
  refine onStored_triple (List.mem_cons_of_mem _ List.mem_cons_self) List.mem_cons_self ?_
  intro system a next left ran u free fluent
  exact fluent.performs means free ran

theorem deleteState_triple {world : World}
    : Triple (protocol W) w Excused (Holds w Holding.none done)
        (task w (.deleteState systemId stateId, world) (.deleteState systemId stateId))
        (fun a => Holds w Holding.none
          (done ++ [((.deleteState systemId stateId, world), a)])) := by
  refine editItem_effect (opens_system systemId) (fun _ same => by cases same) ?_
  refine exclusively_triple List.not_mem_nil (within_system systemId) ?_
  have erases {system next : QuantumSystem} {ok : Bool} {left : World}
      (ran : QuantumSystem.deleteStateElement stateId (system, world) = (.ok ok, next, left))
      : next.states = system.states.remove stateId := by
    cases erased : MsContainer.erase ChpState.destroy stateId system.states with
    | mk result states =>
        simp only [QuantumSystem.deleteStateElement, erased] at ran
        cases ran
        exact erase_ok erased
  refine onItem_triple List.mem_cons_self (fun s ok coherent => coherent.flags) ?_ ?_ ?_
  · intro system ok next left free ran key entry found
    rw [erases ran] at found
    by_cases same : key = stateId
    · rw [same, MsContainer.find_remove] at found
      cases found
    · rw [MsContainer.find_remove_of_ne _ same] at found
      exact free key entry found
  · intro s system ok next left coherent holds _ v reads
    -- The list is locked exclusively, so that nobody reads it.
    have writes : (s.mutex (.states systemId)).writer = some w :=
      (holds.writer _).mpr List.mem_cons_self
    rw [coherent.exclusive _ (by simp [writes])] at reads
    cases reads
  · intro system ok next left ran u free fluent
    let after : Universe := {
      u with
      quantumSystems := u.quantumSystems.store systemId ⟨false, next⟩
      world := left }
    have edits : deleteState systemId stateId { u with world := world } = (.ok ok, after) :=
      editSystem_ok free (by simp only [Run.within, ran])
    refine ⟨after, ?_, rfl, fluent⟩
    rw [SystemRequest.perform, Run.map_apply, edits]
    rfl

theorem computeResult_triple {world : World}
    : Triple (protocol W) w Excused (Holds w Holding.none done)
        (task w (.computeResult systemId source, world) (.computeResult systemId source))
        (fun a => Holds w Holding.none
          (done ++ [((.computeResult systemId source, world), a)])) := by
  refine compiled_effect (fun program means => ?_)
  have keeps {system next : QuantumSystem} {a : Bool × State.StringBuffer} {left : World}
      (ran : QuantumSystem.programComputeResult program .empty (system, world)
        = (.ok a, next, left))
      : next = system := by
    rcases QuantumSystem.programComputeResult_cases program .empty system world with
      ⟨ok, m, _, _, computes⟩ | ⟨undefined, _⟩
    · rw [computes] at ran
      exact (Prod.mk.inj (Prod.mk.inj ran).2).1.symm
    · rw [undefined] at ran
      cases ran
  refine onItem_triple List.mem_cons_self (fun s ok coherent => coherent.flags) ?_ ?_ ?_
  · intro system a next left free ran
    rw [keeps ran]
    exact free
  · intro s system a next left _ _ ran v _ key present
    rw [keeps ran]
    exact present
  · intro system a next left ran u free fluent
    exact fluent.performs means free ran

/-- Every request keeps to the protocol and takes effect once, with its answer. -/
theorem task_triple (w : W) (done : List (Call × Answer)) (call : Call)
    : Triple (protocol W) w Excused (Holds w Holding.none done) (task w call call.1)
        (fun a => Holds w Holding.none (done ++ [(call, a)])) := by
  obtain ⟨request, world⟩ := call
  cases request with
  | createSystem stateType => exact createSystem_triple
  | deleteSystem systemId => exact deleteSystem_triple
  | createState systemId source => exact createState_triple
  | modifyState systemId stateId source => exact modifyState_triple
  | measureState systemId stateId source => exact measureState_triple
  | deleteState systemId stateId => exact deleteState_triple
  | computeResult systemId source => exact computeResult_triple

end Requests

-----------------------------------------------------------------------------------------
-- Runs
-----------------------------------------------------------------------------------------

/-- At most one function runs on an item at a time, and the item is there while it does. The
systems are those of performing the requests that took effect one at a time, in the order in which
they did; every completed request is among these, with its answer, and when all workers are idle
the order is one of the completed requests, and all flags are clear. Every text was parsed by an
interpreter of its dialect, no interpreter is ever replaced, and none is ever missing; nothing is
used after it was erased.
-/
structure Linearized (pool : WorkerPool W) : Prop where
  alone : ∀ item w v, w ∈ pool.shared.inside item → v ∈ pool.shared.inside item → w = v
  held : ∀ item w, w ∈ pool.shared.inside item → pool.shared.present item
  replays : ∃ u, Replays pool.shared.order u ∧ u.quantumSystems = pool.shared.systems
  completed : ∀ w, ofWorker w pool.completed <+: ofWorker w pool.shared.order
  final
    : (∀ w, pool.worker w = none)
      → ∃ order u, order.Perm pool.completed ∧ Replays order u
        ∧ u.quantumSystems = pool.shared.systems ∧ ∀ item, pool.shared.flag item = false
  parses
    : ∀ parse ∈ pool.shared.parsed, instantiateDialect parse.1 = .ok parse.2.interpreter.dialect
  persists : ∀ later, pool.Reaches later → Persist pool.shared later.shared
  fails : ∀ w call e, pool.worker w = some (call, .fail e) → Excused e

section Runs

open Workers (Sound Pool)

theorem sound_start
    : Sound (protocol W) Excused (fun w done => Holds w Holding.none done) (WorkerPool.start W) where
  invariant := coherent_new
  workers w := by
    refine ⟨fun _ => ?_, fun _ => ?_, fun _ => ?_, rfl⟩
    · exact iff_of_false (Finset.notMem_empty _) List.not_mem_nil
    · exact iff_of_false (fun writes => by cases writes) List.not_mem_nil
    · exact iff_of_false (Finset.notMem_empty _) List.not_mem_nil

theorem sound_reaches {pool next : WorkerPool W}
    (sound : Sound (protocol W) Excused (fun w done => Holds w Holding.none done) pool)
    (reaches : pool.Reaches next)
    : Sound (protocol W) Excused (fun w done => Holds w Holding.none done) next
      ∧ Advances pool.shared next.shared :=
  sound.reaches (fun _ _ => Holds.stable) task_triple reaches

/-- What has taken effect stays so, and a request is completed after it has. -/
theorem completed_reaches {pool : WorkerPool W} (reaches : (WorkerPool.start W).Reaches pool)
    : ∀ w, ofWorker w pool.completed <+: ofWorker w pool.shared.order := by
  induction reaches with
  | refl => exact fun _ => List.prefix_rfl
  | @tail pool next before step ih =>
      intro w
      have sound := (sound_reaches sound_start before).1
      have soundNext := sound.step (fun _ _ => Holds.stable) task_triple step
      have grows : ofWorker w pool.shared.order <+: ofWorker w next.shared.order :=
        List.IsPrefix.filterMap _ soundNext.2.order
      cases step with
      | begin idle request => exact ih w
      | step runs ready => exact (ih w).trans grows
      | @finish v request a runs =>
          by_cases mine : v = w
          · subst mine
            have idle := soundNext.1.workers v
            simp only [Function.update_self] at idle
            exact idle.order ▸ List.prefix_rfl
          · rw [ofWorker_append, ofWorker_other mine, List.append_nil]
            exact ih w

/-- Requests linearize, for any number of workers and in every interleaving of their steps. -/
theorem requests_linearize {pool : WorkerPool W} (reaches : (WorkerPool.start W).Reaches pool)
    : Linearized pool := by
  obtain ⟨sound, _⟩ := sound_reaches sound_start reaches
  have coherent : Coherent pool.shared := sound.invariant
  obtain ⟨u, replays, same, _⟩ := coherent.replays
  refine {
    alone := fun item w v runs other => ?_
    held := coherent.held
    replays := ⟨u, replays, same⟩
    completed := completed_reaches reaches
    final := fun idle => ⟨_, u, ?_, replays, same, fun item => ?_⟩
    parses := coherent.parsed
    persists := fun later further => (sound_reaches sound further).2.interpreters
    fails := fun w call e failed => ?_
  }
  · rcases coherent.flags item with ⟨empty, _⟩ | ⟨single, holder, _⟩
    · rw [empty] at runs
      cases runs
    · rw [holder, Finset.mem_singleton] at runs other
      rw [runs, other]
  · refine Workers.perm_of_ofWorker (fun w => ?_)
    have waiting := sound.workers w
    rw [idle w] at waiting
    exact waiting.order
  · rcases coherent.flags item with ⟨_, clear⟩ | ⟨w, single, _⟩
    · exact clear
    · have waiting := sound.workers w
      rw [idle w] at waiting
      have runs : w ∈ pool.shared.inside item := by simp [single]
      exact absurd ((waiting.inside item).mp runs) List.not_mem_nil
  · have failing := sound.workers w
    rw [failed] at failing
    exact failing

/-- A request to create a system. -/
def createCall : Call := (.createSystem chpStateName, oneSystem.world)

/-- A request to create a state with `init 1` in a system. -/
def encodeCall (systemId : UInt64) : Call :=
  (.createState systemId ⟨chpextName ++ [0], [105, 110, 105, 116, 32, 49, 0], 10⟩, oneSystem.world)

/-- Two workers create a state each, in different systems, and are both the first to need the
dialect.
-/
theorem firstUsers_reached
    : ∃ pool : WorkerPool Bool, (WorkerPool.start Bool).Reaches pool
        ∧ pool.shared.order.map (fun effect => effect.2.1)
          = [createCall, createCall, encodeCall 0, encodeCall 1]
        ∧ pool.completed.map (fun request => request.1) = [true, true, true, false]
        ∧ pool.shared.allocated = 2 ∧ pool.shared.parsed.map (fun parse => parse.2.address) = [0, 0]
        ∧ ∀ w, pool.worker w = none := by
  refine ⟨_,
    -- One worker creates both systems.
    .head (.begin (w := true) rfl createCall) <| .head (.returns (w := true) rfl ⟨rfl, rfl⟩ rfl) <|
    .head (.returns (w := true) rfl trivial rfl) <| .head (.returns (w := true) rfl trivial rfl) <|
    .head (.finish (w := true) rfl) <| .head (.begin (w := true) rfl createCall) <|
    .head (.returns (w := true) rfl ⟨rfl, rfl⟩ rfl) <|
    .head (.returns (w := true) rfl trivial rfl) <| .head (.returns (w := true) rfl trivial rfl) <|
    .head (.finish (w := true) rfl) <|
    -- Each of them gets the flag of a system and counts no interpreter.
    .head (.begin (w := true) rfl (encodeCall 0)) <|
    .head (.begin (w := false) rfl (encodeCall 1)) <| .head (.returns (w := true) rfl rfl rfl) <|
    .head (.returns (w := true) rfl trivial rfl) <| .head (.returns (w := true) rfl rfl rfl) <|
    .head (.returns (w := true) rfl rfl rfl) <| .head (.returns (w := true) rfl trivial rfl) <|
    .head (.returns (w := true) rfl trivial rfl) <| .head (.returns (w := false) rfl rfl rfl) <|
    .head (.returns (w := false) rfl trivial rfl) <| .head (.returns (w := false) rfl rfl rfl) <|
    .head (.returns (w := false) rfl rfl rfl) <| .head (.returns (w := false) rfl trivial rfl) <|
    .head (.returns (w := false) rfl trivial rfl) <|
    -- Both insert one, and the second is dropped.
    .head (.returns (w := true) rfl trivial rfl) <|
    .head (.returns (w := true) rfl ⟨rfl, rfl⟩ rfl) <|
    .head (.returns (w := true) rfl trivial rfl) <| .head (.returns (w := true) rfl trivial rfl) <|
    .head (.returns (w := false) rfl trivial rfl) <|
    .head (.returns (w := false) rfl ⟨rfl, rfl⟩ rfl) <|
    .head (.returns (w := false) rfl trivial rfl) <|
    .head (.returns (w := false) rfl trivial rfl) <|
    -- One has to wait for the flag of the interpreter.
    .head (.returns (w := true) rfl rfl rfl) <| .head (.returns (w := true) rfl trivial rfl) <|
    .head (.returns (w := true) rfl rfl rfl) <| .head (.returns (w := false) rfl rfl rfl) <|
    .head (.returns (w := false) rfl trivial rfl) <| .head (.returns (w := true) rfl trivial rfl) <|
    .head (.returns (w := true) rfl trivial rfl) <| .head (.returns (w := true) rfl trivial rfl) <|
    .head (.returns (w := false) rfl rfl rfl) <| .head (.returns (w := false) rfl trivial rfl) <|
    .head (.returns (w := false) rfl trivial rfl) <|
    .head (.returns (w := false) rfl trivial rfl) <|
    -- Each inserts its state into its system.
    .head (.returns (w := true) rfl ⟨rfl, rfl⟩ rfl) <|
    .head (.returns (w := true) rfl trivial rfl) <| .head (.returns (w := true) rfl trivial rfl) <|
    .head (.returns (w := true) rfl trivial rfl) <| .head (.returns (w := true) rfl trivial rfl) <|
    .head (.finish (w := true) rfl) <| .head (.returns (w := false) rfl ⟨rfl, rfl⟩ rfl) <|
    .head (.returns (w := false) rfl trivial rfl) <|
    .head (.returns (w := false) rfl trivial rfl) <|
    .head (.returns (w := false) rfl trivial rfl) <|
    .head (.returns (w := false) rfl trivial rfl) <| .head (.finish (w := false) rfl) <|
    .refl, rfl, rfl, rfl, rfl, fun w => ?_⟩
  cases w <;> rfl

/-- Two first users of a dialect. -/
theorem requests_linearize_two
    : ∃ pool : WorkerPool Bool, pool.completed.map (fun request => request.1)
            = [true, true, true, false]
        ∧ pool.shared.allocated = 2 ∧ pool.shared.parsed.map (fun parse => parse.2.address) = [0, 0]
        ∧ (∀ w, pool.worker w = none) ∧ Linearized pool := by
  obtain ⟨pool, reaches, _, completed, allocated, parsed, idle⟩ := firstUsers_reached
  exact ⟨pool, completed, allocated, parsed, idle, requests_linearize reaches⟩

end Runs

end Sabot.Universe
