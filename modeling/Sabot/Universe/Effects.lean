import Sabot.Universe.Protocol

/-! Compiling a text and taking effect keep to the protocol: an interpreter that was counted or
inserted is there to stay, and a step on the systems is what performing its request next comes to.
-/

namespace Sabot.Universe

open Sabot.Language (Byte Program parseProgram)
open Sabot.State (ChpState World)
open Workers (Allows Code Protocol Stable Triple atomically ofWorker ofWorker_append ofWorker_other
  ofWorker_self)

variable {W : Type} [DecidableEq W] {w : W} {held : Holding} {done : List (Call × Answer)}
  {s : Shared W} {list : ListId} {item : Item}

-----------------------------------------------------------------------------------------
-- Compilation
-----------------------------------------------------------------------------------------

section Compilation

variable {name : List Byte} {source : Source}

theorem text_text (pointer : List Byte) : text (text pointer) = text pointer :=
  List.takeWhile_idem

theorem instantiateDialect_text (name : List Byte)
    : instantiateDialect (text name) = instantiateDialect name := by
  simp [instantiateDialect, text_text]

/-- An interpreter that was counted is there to stay. -/
theorem countInterpreters_triple (opens : Opens held (.interpreter name))
    : Triple (protocol W) w Excused (Holds w held done) (countInterpreters w name)
        (fun count s => Holds w held done s ∧ (count ≠ 0 → Expects (.interpreter name) s)) := by
  let locked : Holding := { held with shared := .interpreters :: held.shared }
  have counts : Triple (protocol W) w Excused (Holds w locked done)
      (atomically (fun _ => True) (fun s => .ok (s.interpreters.count name, s)))
      (fun count s => Holds w locked done s ∧ (count ≠ 0 → Expects (.interpreter name) s)) := by
    refine Triple.atomically Holds.stable (fun count => (lasting_counted count).holds) ?_ ?_
    · rintro s e _ _ _ ⟨⟩
    · rintro s _ _ coherent holds _ ⟨⟩
      refine ⟨⟨coherent, fun v _ => (protocol W).keeps_refl v _, (protocol W).advances_refl _⟩,
        holds, fun nonzero => expects_interpreter.mpr ?_⟩
      unfold MsContainer.count at nonzero
      split at nonzero
      · assumption
      · exact absurd rfl nonzero
  have unlocks : Triple (protocol W) w Excused (Holds w locked done) (unlockShared w .interpreters)
      (fun _ => Holds w held done) :=
    unlockShared_triple opens.unread opens.outside opens.within
  refine Triple.bind (lockShared_triple opens.within) (fun _ => Triple.bind counts (fun count => ?_))
  refine Triple.bind ((lasting_counted count).carry unlocks) (fun _ => ?_)
  exact Triple.ret (lasting_counted count).holds (fun _ _ => id)

theorem allocate_triple (interpreter : Interpreter)
    : Triple (protocol W) w Excused (Holds w held done) (allocate interpreter)
        (fun object s => object.interpreter = interpreter ∧ Holds w held done s) := by
  refine Triple.atomically Holds.stable
    (fun object s t coherent keeps now => ⟨now.1, Holds.stable s t coherent keeps now.2⟩) ?_ ?_
  · rintro s e _ _ _ ⟨⟩
  · rintro s _ _ coherent holds _ ⟨⟩
    refine ⟨⟨{ coherent with }, fun v _ => ?_, ⟨fun _ _ => id, List.prefix_rfl⟩⟩, rfl, ?_⟩
    · exact ⟨fun _ => .rfl, fun _ => .rfl, fun _ => .rfl, rfl, fun _ _ => id, fun _ _ => id⟩
    · exact ⟨holds.readers, holds.writer, holds.inside, holds.order⟩

/-- Inserting keeps the interpreters that are there, and afterwards there is one. -/
theorem insertInterpreter_triple {object : Object}
    (speaks : instantiateDialect name = .ok object.interpreter.dialect)
    (unwritten : .interpreters ∉ held.exclusive)
    : Triple (protocol W) w Excused (Holds w held done) (insertInterpreter w name object)
        (fun _ => Expected w held done (.interpreter name)) := by
  let locked : Holding := { held with exclusive := .interpreters :: held.exclusive }
  have within : Within held.items .interpreters := fun _ same => by cases same
  have inserts : Triple (protocol W) w Excused (Holds w locked done)
      (atomically (fun _ => True) (fun s => .ok ((), {
        s with
        interpreters := s.interpreters.emplace name ⟨false, object⟩
        flag := s.clearNew (.interpreter name) })))
      (fun _ => Expected w locked done (.interpreter name)) := by
    refine Triple.atomically Holds.stable (fun _ => Expected.stable) ?_ ?_
    · rintro s e _ _ _ ⟨⟩
    · rintro s _ _ coherent holds _ ⟨⟩
      have stays (other : Item) (present : s.present other) : Shared.present {
          s with
          interpreters := s.interpreters.emplace name ⟨false, object⟩
          flag := s.clearNew (.interpreter name) } other := by
        cases other with
        | system systemId => exact present
        | state systemId stateId => exact present
        | interpreter other =>
            obtain ⟨entry, found⟩ := Option.isSome_iff_exists.mp present
            exact Option.isSome_of_eq_some (MsContainer.find_emplace_of_some _ _ found)
      have persist : Persist s {
          s with
          interpreters := s.interpreters.emplace name ⟨false, object⟩
          flag := s.clearNew (.interpreter name) } :=
        fun _ _ found => MsContainer.find_emplace_of_some _ _ found
      refine ⟨⟨?_, fun v _ => ?_, ⟨persist, List.prefix_rfl⟩⟩, ?_, ?_⟩
      · refine {
          coherent with
          flags := coherent.flags_clearNew _
          held := fun item v runs => stays item (coherent.held item v runs)
          dialects := fun other entry found => ?_
        }
        rcases MsContainer.find_emplace_cases _ _ found with old | ⟨rfl, rfl⟩
        · exact coherent.dialects other entry old
        · exact speaks
      · exact ⟨fun _ => .rfl, fun _ => .rfl, fun _ => .rfl, rfl, fun other _ => stays other, persist⟩
      · exact ⟨holds.readers, holds.writer, holds.inside, holds.order⟩
      · exact expects_interpreter.mpr (MsContainer.find_emplace_isSome _ _)
  have unlocks : Triple (protocol W) w Excused (Holds w locked done) (unlock .interpreters)
      (fun _ => Holds w held done) := unlock_triple unwritten within
  refine Triple.bind (lock_triple within) (fun _ => Triple.bind inserts (fun _ => ?_))
  refine Triple.bind (lasting_expects.carry unlocks) (fun _ => ?_)
  exact Triple.ret Expected.stable (fun _ _ => id)

theorem proceed_triple {α : Type} {result : Except Stop α} {pre : Shared W → Prop}
    (stable : Stable (protocol W) w pre)
    : Triple (protocol W) w Excused pre (proceed result) (fun a s => result = .ok a ∧ pre s) := by
  cases result with
  | error e => exact Triple.fail trivial
  | ok a => exact Triple.ret stable (fun _ _ now => ⟨rfl, now⟩)

theorem new_speaks {dialect : List Byte} {interpreter : Interpreter}
    (made : Interpreter.new dialect = .ok interpreter)
    : instantiateDialect dialect = .ok interpreter.dialect := by
  unfold Interpreter.new at made
  cases known : instantiateDialect dialect with
  | error e =>
      rw [known] at made
      cases made
  | ok language =>
      rw [known] at made
      cases made
      rfl

theorem initializeInterpreterTask_triple {dialect : List Byte}
    (opens : Opens held (.interpreter (text dialect))) (unwritten : .interpreters ∉ held.exclusive)
    : Triple (protocol W) w Excused (Holds w held done) (initializeInterpreterTask w dialect)
        (fun _ => Expected w held done (.interpreter (text dialect))) := by
  refine Triple.bind (countInterpreters_triple opens) (fun count => ?_)
  by_cases zero : count = 0
  · simp only [zero, ↓reduceIte]
    refine Triple.strengthen ?_ (fun s _ now => now.1)
    refine Triple.bind (proceed_triple Holds.stable) (fun interpreter => Triple.of_pure ?_)
    intro made
    have speaks : instantiateDialect (text dialect) = .ok interpreter.dialect := by
      rw [instantiateDialect_text]
      exact new_speaks made
    refine Triple.bind (allocate_triple interpreter) (fun object => Triple.of_pure ?_)
    rintro rfl
    exact insertInterpreter_triple speaks unwritten
  · simp only [zero, ↓reduceIte]
    exact Triple.ret (lasting_counted count).holds (fun _ _ now => ⟨now.1, now.2 zero⟩)

/-- The function on an interpreter of the dialect gives the program that the text means. -/
theorem parse_triple
    : Triple (protocol W) w Excused
        (Holds w (held.open (.interpreter (text source.dialect))) done) (parse source)
        (fun program s => source.Means program
          ∧ Holds w (held.open (.interpreter (text source.dialect))) done s) := by
  have running {s : Shared W} (coherent : Coherent s)
      (holds : Holds w (held.open (.interpreter (text source.dialect))) done s)
      : s.present (.interpreter (text source.dialect)) :=
    coherent.held _ w ((holds.inside _).mpr List.mem_cons_self)
  refine Triple.atomically Holds.stable
    (fun program s t coherent keeps now => ⟨now.1, Holds.stable s t coherent keeps now.2⟩) ?_ ?_
  · intro s e coherent holds _ fails
    obtain ⟨entry, found⟩ := Option.isSome_iff_exists.mp (running coherent holds)
    simp only [found] at fails
    split at fails
    · cases fails
    · cases fails
      trivial
  · intro s program t coherent holds _ parses
    obtain ⟨entry, found⟩ := Option.isSome_iff_exists.mp (running coherent holds)
    have speaks := coherent.dialects _ entry found
    rw [instantiateDialect_text] at speaks
    simp only [found] at parses
    split at parses
    · rename_i meant
      cases parses
      refine ⟨⟨?_, fun v _ => ?_, ⟨fun _ _ => id, List.prefix_rfl⟩⟩, ⟨_, speaks, meant⟩, ?_⟩
      · refine { coherent with parsed := fun parse member => ?_ }
        rcases List.mem_append.mp member with old | new
        · exact coherent.parsed parse old
        · rw [List.mem_singleton.mp new]
          exact speaks
      · exact ⟨fun _ => .rfl, fun _ => .rfl, fun _ => .rfl, rfl, fun _ _ => id, fun _ _ => id⟩
      · exact ⟨holds.readers, holds.writer, holds.inside, holds.order⟩
    · cases parses

theorem compileProgramTask_triple (opens : ∀ name, Opens held (.interpreter name))
    (unwritten : .interpreters ∉ held.exclusive)
    : Triple (protocol W) w Excused (Holds w held done) (compileProgramTask w source)
        (fun program s => source.Means program ∧ Holds w held done s) :=
  Triple.bind (initializeInterpreterTask_triple (opens _) unwritten)
    (fun _ => editItem_triple (opens _) parse_triple)

end Compilation

-----------------------------------------------------------------------------------------
-- Taking effect
-----------------------------------------------------------------------------------------

section Effects

variable {α : Type} {call : Call} {answer : Answer} {systems : MsContainer UInt64 QuantumSystem}
  {flag : Item → Bool} {systemId stateId : UInt64} {source : Source} {program : Program}

/-- A request takes effect: the items of locked lists stay, flags are cleared of new items only,
and performing the request next has the same effect.
-/
theorem commit_allows (coherent : Coherent s) (holds : Holds w held done s)
    (stays : ∀ item v, v ∈ (s.mutex item.list).readers → s.present item
      → (s.commit w call answer systems).present item)
    (flags : ∀ item, s.inside item = ∅ ∧ flag item = false
      ∨ ∃ v, s.inside item = {v} ∧ flag item = true)
    (freeSystems : systems.Free)
    (freeStates : ∀ systemId entry, systems.find systemId = some entry → entry.item.states.Free)
    (replays : ∀ u : Universe, u.quantumSystems = s.systems → Fluent u.interpreters
      → ∃ next, call.1.perform { u with world := call.2 } = (.ok answer, next)
        ∧ next.quantumSystems = systems ∧ Fluent next.interpreters)
    : Allows (protocol W) w s { s.commit w call answer systems with flag := flag }
      ∧ Holds w held (done ++ [(call, answer)])
          { s.commit w call answer systems with flag := flag } := by
  refine ⟨⟨?_, fun v ne => ?_, ⟨fun _ _ => id, List.prefix_append _ _⟩⟩, ?_⟩
  · obtain ⟨u, before, same, fluent⟩ := coherent.replays
    obtain ⟨next, performs, after, fluentNext⟩ := replays u same fluent
    exact {
      coherent with
      flags := flags
      held := fun item v runs =>
        stays item v (coherent.listed item v runs) (coherent.held item v runs)
      freeSystems := freeSystems
      freeStates := freeStates
      replays := ⟨next, .performs before performs, after, fluentNext⟩
    }
  · refine ⟨fun _ => .rfl, fun _ => .rfl, fun _ => .rfl, ?_, fun item => stays item v, fun _ _ => id⟩
    change ofWorker v (s.order ++ [(w, call, answer)]) = _
    rw [ofWorker_append, ofWorker_other ne.symm, List.append_nil]
  · refine ⟨holds.readers, holds.writer, holds.inside, ?_⟩
    change ofWorker w (s.order ++ [(w, call, answer)]) = _
    rw [ofWorker_append, ofWorker_self, holds.order]

/-- The text of a request compiles to what it means, and the interpreters stay fluent. -/
theorem Fluent.compiles {interpreters : Interpreters} (fluent : Fluent interpreters)
    (means : source.Means program)
    : ∃ left, compileProgram source.dialect source.data source.lineDelimiter interpreters
          = (.ok program, left) ∧ Fluent left := by
  obtain ⟨dialect, knows, parsed⟩ := means
  have known : interpreters.find (text source.dialect) = some ⟨false, ⟨dialect⟩⟩
      ∨ interpreters.find (text source.dialect) = none
        ∧ instantiateDialect source.dialect = .ok dialect := by
    cases found : interpreters.find (text source.dialect) with
    | none => exact Or.inr ⟨rfl, knows⟩
    | some entry =>
        obtain ⟨flag, ⟨language⟩⟩ := entry
        obtain ⟨rfl, speaks⟩ := fluent _ _ found
        rw [instantiateDialect_text, knows] at speaks
        cases speaks
        exact Or.inl rfl
  obtain ⟨left, compiles, found⟩ := compileProgram_ok _ _ known parsed
  refine ⟨left, compiles, fun name entry present => ?_⟩
  rcases found name entry present with old | ⟨rfl, rfl⟩
  · exact fluent name entry old
  · exact ⟨rfl, by rw [instantiateDialect_text]; exact knows⟩

/-- What performing a request that compiles a text comes to. -/
theorem Fluent.performs {u : Universe} (fluent : Fluent u.interpreters)
    (means : source.Means program) {f : Program → Run (QuantumSystem × World) α}
    {answer : α → Answer} {world left : World} {system next : QuantumSystem} {a : α}
    (free : u.quantumSystems.find systemId = some ⟨false, system⟩)
    (ran : f program (system, world) = (.ok a, next, left))
    : ∃ after, (answer <$> editSystem systemId
          (withProgram source.dialect source.data source.lineDelimiter f)) { u with world := world }
        = (.ok (answer a), after)
        ∧ after.quantumSystems = u.quantumSystems.store systemId ⟨false, next⟩
        ∧ Fluent after.interpreters := by
  obtain ⟨interpreters, compiles, fluentNext⟩ := fluent.compiles means
  have edits : editSystem systemId (withProgram source.dialect source.data source.lineDelimiter f)
      { u with world := world }
      = (.ok a, {
          u with
          quantumSystems := u.quantumSystems.store systemId ⟨false, next⟩
          interpreters := interpreters
          world := left }) :=
    editSystem_compiled free compiles ran
  exact ⟨_, by rw [Run.map_apply, edits]; rfl, rfl, fluentNext⟩

/-- A worker takes effect on the system that its function runs on. Items that leave the list of
states are there for nobody who has locked it.
-/
theorem store_allows (coherent : Coherent s) (holds : Holds w held done s)
    {entry : Entry QuantumSystem} {system : QuantumSystem}
    (found : s.systems.find systemId = some entry)
    (stays : ∀ v ∈ (s.mutex (.states systemId)).readers, ∀ stateId,
      (entry.item.states.find stateId).isSome → (system.states.find stateId).isSome)
    (flags : ∀ item, s.inside item = ∅ ∧ flag item = false
      ∨ ∃ v, s.inside item = {v} ∧ flag item = true)
    (free : system.states.Free)
    (replays : ∀ u : Universe, u.quantumSystems.find systemId = some ⟨false, entry.item⟩
      → Fluent u.interpreters
      → ∃ next, call.1.perform { u with world := call.2 } = (.ok answer, next)
        ∧ next.quantumSystems = u.quantumSystems.store systemId ⟨false, system⟩
        ∧ Fluent next.interpreters)
    : let after := s.systems.store systemId ⟨entry.flag, system⟩
      Allows (protocol W) w s { s.commit w call answer after with flag := flag }
      ∧ Holds w held (done ++ [(call, answer)])
          { s.commit w call answer after with flag := flag } := by
  obtain ⟨flagged, item⟩ := entry
  obtain rfl : flagged = false := coherent.freeSystems systemId _ found
  refine commit_allows coherent holds ?_ flags ?_ ?_ ?_
  · intro other v reads present
    cases other with
    | system other =>
        change ((MsContainer.store _ _ _).find other).isSome
        rw [MsContainer.find_store_eq]
        split
        · rfl
        · exact present
    | state other stateId =>
        change ((MsContainer.store _ _ _).find other).any _
        rw [MsContainer.find_store_eq]
        split
        · rename_i same
          subst same
          refine stays v reads stateId ?_
          simpa [Shared.present, found] using present
        · exact present
    | interpreter name => exact present
  · intro key entry present
    rw [MsContainer.find_store_eq] at present
    split at present
    · cases present
      rfl
    · exact coherent.freeSystems key entry present
  · intro key entry present
    rw [MsContainer.find_store_eq] at present
    split at present
    · cases present
      exact free
    · exact coherent.freeStates key entry present
  · intro u same fluent
    rw [← same] at found ⊢
    exact replays u found fluent

/-- A step on the list of systems that has the effect of its request. -/
theorem onSystems_triple {f : Run (MsContainer UInt64 QuantumSystem) α} {answer : α → Answer}
    {flag : α → Shared W → Item → Bool} (locked : .systems ∈ held.exclusive)
    (flags : ∀ s a, Coherent s → ∀ item, s.inside item = ∅ ∧ flag a s item = false
      ∨ ∃ v, s.inside item = {v} ∧ flag a s item = true)
    (known : ∀ systems a next, f systems = (.ok a, next)
      → ∀ systemId entry, next.find systemId = some entry
      → systems.find systemId = some entry ∨ entry = ⟨false, ⟨.new 0⟩⟩)
    (performs : ∀ u : Universe, call.1.perform u
      = (answer <$> (f u.quantumSystems).1, { u with quantumSystems := (f u.quantumSystems).2 }))
    : Triple (protocol W) w Excused (Holds w held done) (onSystems w call f answer flag)
        (fun a => Holds w held (done ++ [(call, a)])) := by
  refine Triple.atomically Holds.stable (fun _ => Holds.stable) ?_ ?_
  · intro s e _ _ _ fails
    split at fails
    · cases fails
    · cases fails
      trivial
  · intro s a t coherent holds _ takes
    split at takes
    · rename_i result systems ran
      cases takes
      have writes : (s.mutex .systems).writer = some w := (holds.writer _).mpr locked
      refine commit_allows coherent holds ?_ (flags s result coherent) ?_ ?_ ?_
      · intro item v reads present
        cases item with
        | system systemId => exact absurd reads (coherent.unread writes 0 v).1
        | state systemId stateId => exact absurd reads (coherent.unread writes systemId v).2
        | interpreter name => exact present
      · intro systemId entry found
        rcases known _ _ _ ran systemId entry found with old | rfl
        · exact coherent.freeSystems systemId entry old
        · rfl
      · intro systemId entry found
        rcases known _ _ _ ran systemId entry found with old | rfl
        · exact coherent.freeStates systemId entry old
        · intro key entry stored
          rw [MsContainer.find_new] at stored
          cases stored
      · intro u same fluent
        have ranU : f u.quantumSystems = (.ok result, systems) := by rw [same, ran]
        refine ⟨{ u with world := call.2, quantumSystems := systems }, ?_, rfl, fluent⟩
        rw [performs]
        simp only [ranU]
        rfl
    · cases takes

/-- A step on a system that has the effect of its request. -/
theorem onItem_triple {f : Run (QuantumSystem × World) α} {answer : α → Answer}
    {flag : α → Shared W → Item → Bool} (inside : .system systemId ∈ held.items)
    (flags : ∀ s a, Coherent s → ∀ item, s.inside item = ∅ ∧ flag a s item = false
      ∨ ∃ v, s.inside item = {v} ∧ flag a s item = true)
    (free : ∀ system a next left, system.states.Free → f (system, call.2) = (.ok a, next, left)
      → next.states.Free)
    (stays : ∀ s system a next left, Coherent s → Holds w held done s
      → f (system, call.2) = (.ok a, next, left)
      → ∀ v ∈ (s.mutex (.states systemId)).readers, ∀ stateId,
        (system.states.find stateId).isSome → (next.states.find stateId).isSome)
    (replays : ∀ system a next left, f (system, call.2) = (.ok a, next, left)
      → ∀ u : Universe, u.quantumSystems.find systemId = some ⟨false, system⟩
      → Fluent u.interpreters
      → ∃ after, call.1.perform { u with world := call.2 } = (.ok (answer a), after)
        ∧ after.quantumSystems = u.quantumSystems.store systemId ⟨false, next⟩
        ∧ Fluent after.interpreters)
    : Triple (protocol W) w Excused (Holds w held done) (onItem w call systemId f answer flag)
        (fun a => Holds w held (done ++ [(call, a)])) := by
  have running {s : Shared W} (coherent : Coherent s) (holds : Holds w held done s)
      : ∃ entry, s.systems.find systemId = some entry :=
    Option.isSome_iff_exists.mp (coherent.held _ w ((holds.inside _).mpr inside))
  refine Triple.atomically Holds.stable (fun _ => Holds.stable) ?_ ?_
  · intro s e coherent holds _ fails
    obtain ⟨entry, found⟩ := running coherent holds
    simp only [found] at fails
    split at fails
    · cases fails
    · cases fails
      trivial
  · intro s a t coherent holds _ takes
    obtain ⟨entry, found⟩ := running coherent holds
    simp only [found] at takes
    split at takes
    · rename_i result next left ran
      cases takes
      exact store_allows coherent holds found (stays s _ _ _ _ coherent holds ran)
        (flags s result coherent) (free _ _ _ _ (coherent.freeStates _ _ found) ran)
        (replays _ _ _ _ ran)
    · cases takes

/-- A step on a stored state that has the effect of its request. -/
theorem onStored_triple {f : Run (ChpState × World) α} {answer : α → Answer}
    (inside : .system systemId ∈ held.items) (insideState : .state systemId stateId ∈ held.items)
    (replays : ∀ system a next left,
      QuantumSystem.editState stateId f (system, call.2) = (.ok a, next, left)
      → ∀ u : Universe, u.quantumSystems.find systemId = some ⟨false, system⟩
      → Fluent u.interpreters
      → ∃ after, call.1.perform { u with world := call.2 } = (.ok (answer a), after)
        ∧ after.quantumSystems = u.quantumSystems.store systemId ⟨false, next⟩
        ∧ Fluent after.interpreters)
    : Triple (protocol W) w Excused (Holds w held done)
        (onStored w call systemId stateId f answer)
        (fun a => Holds w held (done ++ [(call, a)])) := by
  have running {s : Shared W} (coherent : Coherent s) (holds : Holds w held done s)
      : ∃ entry stored, s.systems.find systemId = some entry
          ∧ entry.item.states.find stateId = some stored := by
    have present := coherent.held _ w ((holds.inside _).mpr insideState)
    obtain ⟨entry, found⟩ : ∃ entry, s.systems.find systemId = some entry :=
      Option.isSome_iff_exists.mp (coherent.held _ w ((holds.inside _).mpr inside))
    have inner : (entry.item.states.find stateId).isSome := by
      simpa [Shared.present, found] using present
    obtain ⟨stored, stores⟩ := Option.isSome_iff_exists.mp inner
    exact ⟨entry, stored, found, stores⟩
  refine Triple.atomically Holds.stable (fun _ => Holds.stable) ?_ ?_
  · intro s e coherent holds _ fails
    obtain ⟨entry, stored, found, inner⟩ := running coherent holds
    simp only [found, inner] at fails
    split at fails
    · cases fails
    · cases fails
      trivial
  · intro s a t coherent holds _ takes
    obtain ⟨entry, stored, found, inner⟩ := running coherent holds
    simp only [found, inner] at takes
    split at takes
    · rename_i result state left ran
      cases takes
      have free := coherent.freeStates _ _ found
      obtain ⟨flag, old⟩ := stored
      obtain rfl : flag = false := free _ _ inner
      refine store_allows coherent holds found ?_ coherent.flags ?_ (replays _ _ _ left ?_)
      · intro v _ key present
        rw [MsContainer.find_store_eq]
        split
        · rfl
        · exact present
      · intro key entry present
        rw [MsContainer.find_store_eq] at present
        split at present
        · cases present
          rfl
        · exact free key entry present
      · simp only [QuantumSystem.editState, MsContainer.editItem_ok inner ran]
    · cases takes

end Effects

end Sabot.Universe
