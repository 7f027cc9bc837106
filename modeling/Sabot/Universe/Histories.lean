import Sabot.Universe.Requests

/-! Runs of requests and the ids that they return: the containers hand out each id once, and what is
stored under one stays there until it is deleted.
-/

namespace Sabot

open Sabot.Language (Byte Program)
open Sabot.State (ChpState StringBuffer World)

-----------------------------------------------------------------------------------------
-- Handing out keys
-----------------------------------------------------------------------------------------

namespace MsContainer

variable {ι : Type} {c : MsContainer UInt64 ι} {taken : Nat} {issued : List UInt64}

/-- A container that has taken `taken` keys so far, and returned those in `issued`. -/
structure Tracks (c : MsContainer UInt64 ι) (taken : Nat) (issued : List UInt64) : Prop where
  generator : c.keyGenerator.toNat = taken
  earlier : ∀ key ∈ issued, key.toNat < taken
  distinct : issued.Nodup
  numbered : c.Numbered

theorem tracks_new : (new 0 : MsContainer UInt64 ι).Tracks 0 [] where
  generator := rfl
  earlier key member := by cases member
  distinct := List.nodup_nil
  numbered key present := absurd (find_new key 0) present

namespace Tracks

variable (tracks : c.Tracks taken issued)
include tracks

/-- Taking a key that is then lost. -/
theorem lose (room : taken + 1 < 2 ^ 64)
    : ({ c with keyGenerator := c.keyGenerator + 1 } : MsContainer UInt64 ι).Tracks (taken + 1)
        issued := by
  have next : (c.keyGenerator + 1).toNat = taken + 1 := by
    rw [UInt64.toNat_add, tracks.generator]
    exact Nat.mod_eq_of_lt room
  refine {
    generator := next
    earlier := fun key member => Nat.lt_succ_of_lt (tracks.earlier key member)
    distinct := tracks.distinct
    numbered := fun key present => ?_
  }
  have below := tracks.numbered key present
  rw [tracks.generator] at below
  exact lt_of_lt_of_eq (Nat.lt_succ_of_lt below) next.symm

theorem unused : c.find c.keyGenerator = none := tracks.numbered.next_unused

/-- A new item is stored under its key, beside all the others. -/
theorem find_insert (entry : Entry ι) (key : UInt64)
    : ({ c with keyGenerator := c.keyGenerator + 1 }.emplace c.keyGenerator entry).find key
      = if key = c.keyGenerator then some entry else c.find key := by
  have unused : ({ c with keyGenerator := c.keyGenerator + 1 } : MsContainer UInt64 ι).find
      c.keyGenerator = none := tracks.unused
  rw [emplace_of_none _ _ unused, find_store_eq]
  rfl

/-- Taking a key for a new item. The key is new. -/
theorem insert (room : taken + 1 < 2 ^ 64) (entry : Entry ι)
    : ({ c with keyGenerator := c.keyGenerator + 1 }.emplace c.keyGenerator entry).Tracks
        (taken + 1) (issued ++ [c.keyGenerator]) := by
  have lost := tracks.lose room
  have next : ({ c with keyGenerator := c.keyGenerator + 1 }.emplace c.keyGenerator
      entry).keyGenerator.toNat = taken + 1 := by
    rw [emplace_keyGenerator]
    exact lost.generator
  refine {
    generator := next
    earlier := fun key member => ?_
    distinct := ?_
    numbered := fun key present => ?_
  }
  · rcases List.mem_append.mp member with member | member
    · exact lost.earlier key member
    · rw [List.mem_singleton.mp member, tracks.generator]
      exact Nat.lt_succ_self taken
  · rw [List.nodup_append]
    refine ⟨tracks.distinct, List.nodup_singleton _, fun key member other last => ?_⟩
    rw [List.mem_singleton.mp last]
    rintro rfl
    exact absurd (tracks.earlier _ member) (by rw [tracks.generator]; exact lt_irrefl taken)
  · rw [tracks.find_insert] at present
    rw [next]
    split at present
    · rename_i same
      rw [same, tracks.generator]
      exact Nat.lt_succ_self taken
    · have below := tracks.numbered key present
      rw [tracks.generator] at below
      exact Nat.lt_succ_of_lt below

/-- Replacing an item that is there. -/
theorem store {key : UInt64} {old : Entry ι} (present : c.find key = some old) (entry : Entry ι)
    : (c.store key entry).Tracks taken issued where
  generator := tracks.generator
  earlier := tracks.earlier
  distinct := tracks.distinct
  numbered other found := by
    rw [find_store_eq] at found
    split at found
    · rename_i same
      rw [same]
      exact tracks.numbered key (by simp [present])
    · exact tracks.numbered other found

theorem remove (key : UInt64) : (c.remove key).Tracks taken issued where
  generator := tracks.generator
  earlier := tracks.earlier
  distinct := tracks.distinct
  numbered other found := by
    by_cases same : other = key
    · rw [same] at found
      exact absurd (find_remove c) found
    · rw [find_remove_of_ne c same] at found
      exact tracks.numbered other found

end Tracks

end MsContainer

namespace Universe

-----------------------------------------------------------------------------------------
-- Runs of requests
-----------------------------------------------------------------------------------------

/-- One request of a run: where it is performed, what it comes to and what it leaves behind. -/
structure Step where
  before : Universe
  request : SystemRequest
  result : Except Stop Answer
  after : Universe

def SystemRequest.step (request : SystemRequest) (u : Universe) : Step :=
  ⟨u, request, (request.perform u).1, (request.perform u).2⟩

/-- Requests performed one after the other. -/
def history (u : Universe) : List SystemRequest → List Step
  | [] => []
  | request :: rest => request.step u :: history (request.perform u).2 rest

namespace Step

variable (step : Step)

/-- The step takes a system id, which is lost when the state type is unknown. -/
def takesSystemId : Bool :=
  match step.request with
  | .createSystem _ => true
  | _ => false

/-- The system id that the step returns. -/
def systemId : Option UInt64 :=
  match step.request, step.result with
  | .createSystem _, .ok (.id id) => some id
  | _, _ => none

/-- The id of a state of the system that the step returns. -/
def stateId (systemId : UInt64) : Option UInt64 :=
  match step.request, step.result with
  | .createState owner _, .ok (.id id) => if owner = systemId then some id else none
  | _, _ => none

def DeletesSystem (systemId : UInt64) : Prop :=
  step.request = .deleteSystem systemId ∧ step.result.isOk

/-- The step deletes the state or its system. -/
def Deletes (systemId stateId : UInt64) : Prop :=
  step.DeletesSystem systemId ∨ step.request = .deleteState systemId stateId ∧ step.result.isOk

/-- What the step makes of the state under a system and a state id. -/
def edit (systemId stateId : UInt64) (state : ChpState) : ChpState :=
  if step.request.edited = some systemId ∧ step.request.editedState = some stateId
      ∧ step.result.isOk then
    step.request.edit step.before state
  else state

/-- The universe after further steps. -/
def last (later : List Step) : Universe := later.foldl (fun _ next => next.after) step.after

end Step

/-- The request names the state, or the system to delete it with. -/
def SystemRequest.Names (systemId stateId : UInt64) (request : SystemRequest) : Prop :=
  request = .deleteSystem systemId ∨ request = .deleteState systemId stateId
    ∨ request.edited = some systemId ∧ request.editedState = some stateId

-----------------------------------------------------------------------------------------
-- One step
-----------------------------------------------------------------------------------------

section OneStep

variable {u : Universe} {request : SystemRequest} {systemId stateId : UInt64}

theorem tableau_eq_some {state : ChpState}
    : u.tableau systemId stateId = some state
      ↔ ∃ entry flag, u.quantumSystems.find systemId = some entry
        ∧ entry.item.states.find stateId = some ⟨flag, state⟩ := by
  constructor
  · intro stored
    simp only [tableau, Option.bind_eq_bind, Option.bind_eq_some_iff] at stored
    obtain ⟨entry, found, ⟨flag, item⟩, inside, same⟩ := stored
    cases same
    exact ⟨entry, flag, found, inside⟩
  · rintro ⟨entry, flag, found, inside⟩
    simp [tableau, found, inside]

/-- A stored state survives what is done to the states of its system, edited if it is named. -/
theorem Changes.keeps {result : Except Stop Answer} {states next : MsContainer UInt64 ChpState}
    (changes : Changes u request result states next) {flag : Bool} {state : ChpState}
    (stored : states.find stateId = some ⟨flag, state⟩)
    (kept : ∀ owner, request = .deleteState owner stateId → ¬result.isOk)
    : ∃ flag, next.find stateId
        = some ⟨flag, if request.editedState = some stateId ∧ result.isOk then request.edit u state
            else state⟩ := by
  cases changes with
  | fails => exact ⟨flag, by simpa [Except.isOk, Except.toBool] using stored⟩
  | computes => exact ⟨flag, by simpa [SystemRequest.editedState] using stored⟩
  | inserts compiles encodes =>
      refine ⟨flag, ?_⟩
      simp only [SystemRequest.editedState, reduceCtorEq, false_and, ite_false]
      exact MsContainer.find_emplace_of_some _ _ stored
  | @edits _ other ok results old _ names free =>
      rw [MsContainer.find_store_eq]
      by_cases same : stateId = other
      · subst same
        rw [free] at stored
        cases stored
        exact ⟨false, by simp [names, Except.isOk, Except.toBool]⟩
      · refine ⟨flag, ?_⟩
        have unnamed : request.editedState ≠ some stateId := by
          rw [names]
          exact fun h => same (Option.some.inj h).symm
        simp [same, unnamed, stored]
  | @keepsFlag _ other e old _ names free =>
      rw [MsContainer.find_store_eq]
      by_cases same : stateId = other
      · subst same
        rw [free] at stored
        cases stored
        exact ⟨true, by simp [Except.isOk, Except.toBool]⟩
      · exact ⟨flag, by simp [same, stored, Except.isOk, Except.toBool]⟩
  | @deletes owner other _ entry present =>
      have ne : stateId ≠ other := by
        rintro rfl
        exact kept owner rfl rfl
      refine ⟨flag, ?_⟩
      rw [MsContainer.find_remove_of_ne _ ne, stored]
      simp [SystemRequest.editedState]

theorem Effect.keeps {result : Except Stop Answer} {systems : MsContainer UInt64 QuantumSystem}
    (effect : Effect u request result systems) {entry : Entry QuantumSystem} {flag : Bool}
    {state : ChpState} (found : u.quantumSystems.find systemId = some entry)
    (stored : entry.item.states.find stateId = some ⟨flag, state⟩)
    (kept : result.isOk
      → request ≠ .deleteSystem systemId ∧ request ≠ .deleteState systemId stateId)
    : ∃ entry flag, systems.find systemId = some entry
        ∧ entry.item.states.find stateId
          = some ⟨flag, if request.edited = some systemId ∧ request.editedState = some stateId
              ∧ result.isOk then request.edit u state else state⟩ := by
  cases effect with
  | fails _ => exact ⟨_, flag, found, by simpa [Except.isOk, Except.toBool] using stored⟩
  | createSystem =>
      refine ⟨_, flag, MsContainer.find_emplace_of_some _ _ found, ?_⟩
      simpa [SystemRequest.edited] using stored
  | losesId => exact ⟨_, flag, found, by simpa [SystemRequest.edited] using stored⟩
  | @deleteSystem other _ present =>
      have ne : systemId ≠ other := by
        rintro rfl
        exact (kept rfl).1 rfl
      refine ⟨_, flag, (MsContainer.find_remove_of_ne _ ne).trans found, ?_⟩
      simpa [SystemRequest.edited] using stored
  | @edits _ _ other item states held names free changes =>
      by_cases same : systemId = other
      · subst same
        rw [free] at found
        cases found
        obtain ⟨flag', inside⟩ := changes.keeps stored (fun owner deletes ok => by
          subst deletes
          cases names
          exact (kept ok).2 rfl)
        exact ⟨_, flag', MsContainer.find_store _ _, by simpa [names] using inside⟩
      · refine ⟨_, flag, (MsContainer.find_store_of_ne _ _ same).trans found, ?_⟩
        have unnamed : request.edited ≠ some systemId := by
          rw [names]
          exact fun h => same (Option.some.inj h).symm
        simpa [unnamed] using stored

/-- A stored state stays where it is until it or its system is deleted, and is edited by the
requests that name it only.
-/
theorem step_keeps_tableau {state : ChpState} (stored : u.tableau systemId stateId = some state)
    (kept : ¬(request.step u).Deletes systemId stateId)
    : (request.step u).after.tableau systemId stateId
      = some ((request.step u).edit systemId stateId state) := by
  obtain ⟨entry, flag, found, inside⟩ := tableau_eq_some.mp stored
  refine tableau_eq_some.mpr ((perform_effect u request).keeps found inside (fun ok => ⟨?_, ?_⟩))
  · exact fun deletes => kept (Or.inl ⟨deletes, ok⟩)
  · exact fun deletes => kept (Or.inr ⟨deletes, ok⟩)

/-- A system stays until it is deleted. -/
theorem step_keeps_system (live : (u.quantumSystems.find systemId).isSome)
    (kept : ¬(request.step u).DeletesSystem systemId)
    : ((request.step u).after.quantumSystems.find systemId).isSome := by
  obtain ⟨entry, found⟩ := Option.isSome_iff_exists.mp live
  have effect := perform_effect u request
  simp only [Step.DeletesSystem, SystemRequest.step] at kept ⊢
  generalize (request.perform u).2.quantumSystems = systems at effect ⊢
  generalize (request.perform u).1 = result at effect kept
  cases effect with
  | fails _ => exact live
  | createSystem => exact Option.isSome_of_eq_some (MsContainer.find_emplace_of_some _ _ found)
  | losesId => exact live
  | @deleteSystem other _ present =>
      have ne : systemId ≠ other := by
        rintro rfl
        exact kept ⟨rfl, rfl⟩
      rw [MsContainer.find_remove_of_ne _ ne]
      exact live
  | edits names free changes =>
      rw [MsContainer.find_store_eq]
      split
      · rfl
      · exact live

end OneStep

-----------------------------------------------------------------------------------------
-- Ids over runs
-----------------------------------------------------------------------------------------

/-- The ids of states of a system that the steps return. -/
def stateIds (systemId : UInt64) (steps : List Step) : List UInt64 :=
  steps.filterMap (Step.stateId · systemId)

/-- The ids of systems that the steps return. -/
def systemIds (steps : List Step) : List UInt64 := steps.filterMap Step.systemId

/-- Fewer ids are taken from each container than there are. -/
structure FewCreations (steps : List Step) : Prop where
  systems : steps.countP Step.takesSystemId < 2 ^ 64
  states : ∀ systemId, (stateIds systemId steps).length < 2 ^ 64

/-- The containers after the steps have handed out exactly the ids that the steps returned. -/
structure Issued (steps : List Step) (systems : MsContainer UInt64 QuantumSystem) : Prop where
  ids : systems.Tracks (steps.countP Step.takesSystemId) (systemIds steps)
  states
    : ∀ systemId entry, systems.find systemId = some entry
      → entry.item.states.Tracks (stateIds systemId steps).length (stateIds systemId steps)
  owners
    : ∀ systemId, stateIds systemId steps ≠ []
      → systemId.toNat < steps.countP Step.takesSystemId
  distinct : ∀ systemId, (stateIds systemId steps).Nodup

section Issuing

variable {steps : List Step} {u after : Universe} {request : SystemRequest}
  {result : Except Stop Answer} {systemId : UInt64}

theorem FewCreations.of_append {more : List Step} (few : FewCreations (steps ++ more))
    : FewCreations steps where
  systems := by
    have all := few.systems
    rw [List.countP_append] at all
    omega
  states id := by
    have all := few.states id
    rw [stateIds, List.filterMap_append, List.length_append] at all
    exact lt_of_le_of_lt (Nat.le_add_right _ _) all

theorem stateIds_concat (step : Step)
    : stateIds systemId (steps ++ [step])
      = stateIds systemId steps ++ (step.stateId systemId).toList := by
  rw [stateIds, List.filterMap_append, List.filterMap_cons]
  cases step.stateId systemId <;> rfl

theorem systemIds_concat (step : Step)
    : systemIds (steps ++ [step]) = systemIds steps ++ step.systemId.toList := by
  rw [systemIds, List.filterMap_append, List.filterMap_cons]
  cases step.systemId <;> rfl

/-- A step that returns no state id of any system leaves the state ids as they are. -/
theorem stateIds_concat_none {step : Step} (silent : step.stateId systemId = none)
    : stateIds systemId (steps ++ [step]) = stateIds systemId steps := by
  rw [stateIds_concat, silent]
  exact List.append_nil _

/-- Only creating a state in the system returns one of its state ids. -/
theorem stateId_of_ne {owner : UInt64} (names : request.edited = some owner) (ne : systemId ≠ owner)
    : (⟨u, request, result, after⟩ : Step).stateId systemId = none := by
  cases request with
  | createState other source =>
      cases names
      unfold Step.stateId
      split
      · rename_i creates _
        cases creates
        exact if_neg ne.symm
      · rfl
  | _ => rfl

theorem Changes.tracks {states next : MsContainer UInt64 ChpState}
    (changes : Changes u request result states next) (names : request.edited = some systemId)
    (tracks : states.Tracks (stateIds systemId steps).length (stateIds systemId steps))
    (room : (stateIds systemId (steps ++ [⟨u, request, result, after⟩])).length < 2 ^ 64)
    : next.Tracks (stateIds systemId (steps ++ [⟨u, request, result, after⟩])).length
        (stateIds systemId (steps ++ [⟨u, request, result, after⟩])) := by
  cases changes with
  | fails =>
      rw [stateIds_concat_none (by simp [Step.stateId])]
      exact tracks
  | computes =>
      rw [stateIds_concat_none (by simp [Step.stateId])]
      exact tracks
  | inserts compiles encodes =>
      cases names
      rw [stateIds_concat] at room ⊢
      simp only [Step.stateId, ite_true, Option.toList_some, List.length_append,
        List.length_singleton] at room ⊢
      exact tracks.insert room _
  | @edits _ stateId ok results old _ named free =>
      rw [stateIds_concat_none (by simp [Step.stateId])]
      exact tracks.store free _
  | @keepsFlag _ stateId e old _ named free =>
      rw [stateIds_concat_none (by simp [Step.stateId])]
      exact tracks.store free _
  | deletes present =>
      rw [stateIds_concat_none (by simp [Step.stateId])]
      exact tracks.remove _

theorem countP_le_concat (step : Step)
    : steps.countP Step.takesSystemId ≤ (steps ++ [step]).countP Step.takesSystemId := by
  rw [List.countP_append]
  exact Nat.le_add_right _ _

/-- A step that returns no state id keeps track of the ids if every system that is there
afterwards was there before, or is a new one without states.
-/
theorem Issued.concat {step : Step} {before systems : MsContainer UInt64 QuantumSystem}
    (issued : Issued steps before) (silent : ∀ id, step.stateId id = none)
    (ids : systems.Tracks ((steps ++ [step]).countP Step.takesSystemId)
      (systemIds (steps ++ [step])))
    (kept : ∀ id entry, systems.find id = some entry
      → before.find id = some entry ∨ id = before.keyGenerator ∧ entry.item.states = .new 0)
    : Issued (steps ++ [step]) systems := by
  have same (id : UInt64) : stateIds id (steps ++ [step]) = stateIds id steps :=
    stateIds_concat_none (silent id)
  refine {
    ids := ids
    states := fun id entry present => ?_
    owners := fun id returned => ?_
    distinct := fun id => by rw [same]; exact issued.distinct id
  }
  · rw [same]
    rcases kept id entry present with old | ⟨rfl, new⟩
    · exact issued.states id entry old
    · have none : stateIds before.keyGenerator steps = [] := by
        by_contra returned
        have below := issued.owners _ returned
        rw [issued.ids.generator] at below
        exact lt_irrefl _ below
      rw [none, new]
      exact MsContainer.tracks_new
  · rw [same] at returned
    exact lt_of_lt_of_le (issued.owners id returned) (countP_le_concat step)

/-- A step keeps track of the ids: it returns what the containers hand out. -/
theorem Issued.step {systems : MsContainer UInt64 QuantumSystem}
    (issued : Issued steps u.quantumSystems) (effect : Effect u request result systems)
    (few : FewCreations (steps ++ [⟨u, request, result, after⟩]))
    : Issued (steps ++ [⟨u, request, result, after⟩]) systems := by
  have room := few.systems
  cases effect with
  | @fails _ e takesNoId =>
      have takesNone : (⟨u, request, .error e, after⟩ : Step).takesSystemId = false := by
        cases request with
        | createSystem stateType => exact absurd rfl (takesNoId stateType)
        | _ => rfl
      refine issued.concat (fun id => by simp [Step.stateId]) ?_ (fun id entry => Or.inl)
      rw [List.countP_append, systemIds_concat]
      simpa [takesNone, Step.systemId] using issued.ids
  | createSystem =>
      refine issued.concat (fun id => by simp [Step.stateId]) ?_ (fun id entry present => ?_)
      · rw [List.countP_append] at room ⊢
        rw [systemIds_concat]
        exact issued.ids.insert room _
      · rw [issued.ids.find_insert] at present
        split at present
        · rename_i new
          cases present
          exact Or.inr ⟨new, rfl⟩
        · exact Or.inl present
  | losesId =>
      refine issued.concat (fun id => by simp [Step.stateId]) ?_ (fun id entry => Or.inl)
      rw [List.countP_append] at room ⊢
      rw [systemIds_concat]
      simpa [Step.takesSystemId, Step.systemId] using issued.ids.lose room
  | @deleteSystem systemId _ present =>
      refine issued.concat (fun id => by simp [Step.stateId]) ?_ (fun id entry found => ?_)
      · rw [List.countP_append, systemIds_concat]
        simpa [Step.takesSystemId, Step.systemId] using issued.ids.remove systemId
      · by_cases same : id = systemId
        · rw [same, MsContainer.find_remove] at found
          cases found
        · rw [MsContainer.find_remove_of_ne _ same] at found
          exact Or.inl found
  | @edits _ _ systemId system states flag names free changes =>
      have others (id : UInt64) (ne : id ≠ systemId)
          : stateIds id (steps ++ [⟨u, request, result, after⟩]) = stateIds id steps :=
        stateIds_concat_none (stateId_of_ne names ne)
      have tracks := changes.tracks names (issued.states systemId _ free) (few.states systemId)
      have systemsSame : (⟨u, request, result, after⟩ : Step).takesSystemId = false
          ∧ (⟨u, request, result, after⟩ : Step).systemId = none := by
        cases request with
        | createSystem stateType => cases names
        | _ => exact ⟨rfl, rfl⟩
      refine {
        ids := ?_
        states := fun id entry found => ?_
        owners := fun id returned => ?_
        distinct := fun id => ?_
      }
      · rw [List.countP_append, systemIds_concat]
        simpa [systemsSame] using issued.ids.store free _
      · by_cases same : id = systemId
        · subst same
          rw [MsContainer.find_store] at found
          cases found
          exact tracks
        · rw [MsContainer.find_store_of_ne _ _ same] at found
          rw [others id same]
          exact issued.states id entry found
      · refine lt_of_lt_of_le ?_ (countP_le_concat _)
        by_cases same : id = systemId
        · rw [same, ← issued.ids.generator]
          exact issued.ids.numbered systemId (by simp [free])
        · rw [others id same] at returned
          exact issued.owners id returned
      · by_cases same : id = systemId
        · rw [same]
          exact tracks.distinct
        · rw [others id same]
          exact issued.distinct id

end Issuing

/-- The universe after the requests. -/
def reached (u : Universe) (requests : List SystemRequest) : Universe :=
  requests.foldl (fun u request => (request.perform u).2) u

section Histories

variable {u : Universe} {requests : List SystemRequest} {systemId stateId : UInt64}

theorem history_append (u : Universe) (requests more : List SystemRequest)
    : history u (requests ++ more) = history u requests ++ history (reached u requests) more := by
  induction requests generalizing u with
  | nil => rfl
  | cons request rest ih => exact congrArg (request.step u :: ·) (ih _)

theorem reached_append (u : Universe) (requests more : List SystemRequest)
    : reached u (requests ++ more) = reached (reached u requests) more :=
  List.foldl_append

/-- A part of a history is the history of a part of the requests. -/
theorem history_split {earlier rest : List Step} (split : history u requests = earlier ++ rest)
    : ∃ first second, requests = first ++ second ∧ earlier = history u first
        ∧ rest = history (reached u first) second := by
  induction earlier generalizing u requests with
  | nil => exact ⟨[], requests, rfl, rfl, split.symm⟩
  | cons step earlier ih =>
      cases requests with
      | nil => cases split
      | cons request tail =>
          obtain ⟨head, tailSplit⟩ := List.cons.inj split
          obtain ⟨first, second, rfl, rfl, rfl⟩ := ih tailSplit
          exact ⟨request :: first, second, rfl, by rw [← head]; rfl, rfl⟩

theorem last_history (step : Step) (later : List SystemRequest)
    : step.last (history step.after later) = reached step.after later := by
  suffices lasts : ∀ u, (history u later).foldl (fun _ next => next.after) u = reached u later from
    lasts step.after
  induction later with
  | nil => exact fun _ => rfl
  | cons request rest ih => exact fun u => ih _

/-- A universe without systems has handed out no ids. -/
theorem issued_new (world : World) (draws : Randnum.Draws)
    : Issued [] (Universe.new world draws).quantumSystems where
  ids := MsContainer.tracks_new
  states id entry present := by
    rw [show (Universe.new world draws).quantumSystems = MsContainer.new 0 from rfl,
      MsContainer.find_new] at present
    cases present
  owners id returned := absurd rfl returned
  distinct id := List.nodup_nil

/-- Over a whole run the containers hand out exactly the ids that the requests return. -/
theorem issued_history (issued : Issued [] u.quantumSystems)
    (few : FewCreations (history u requests))
    : Issued (history u requests) (reached u requests).quantumSystems := by
  induction requests using List.reverseRecOn with
  | nil => exact issued
  | append_singleton requests request ih =>
      rw [history_append] at few ⊢
      rw [reached_append]
      exact (ih few.of_append).step (perform_effect _ request) few

/-- A stored state is edited by the requests that name it, one after the other. -/
theorem history_keeps_tableau {state : ChpState} (stored : u.tableau systemId stateId = some state)
    (kept : ∀ next ∈ history u requests, ¬next.Deletes systemId stateId)
    : (reached u requests).tableau systemId stateId
      = some ((history u requests).foldl (fun state next => next.edit systemId stateId state)
          state) := by
  induction requests generalizing u state with
  | nil => exact stored
  | cons request rest ih =>
      have now := step_keeps_tableau stored (kept _ List.mem_cons_self)
      exact ih now (fun next member => kept next (List.mem_cons_of_mem _ member))

theorem history_keeps_system (live : (u.quantumSystems.find systemId).isSome)
    (kept : ∀ next ∈ history u requests, ¬next.DeletesSystem systemId)
    : ((reached u requests).quantumSystems.find systemId).isSome := by
  induction requests generalizing u with
  | nil => exact live
  | cons request rest ih =>
      have now := step_keeps_system live (kept _ List.mem_cons_self)
      exact ih now (fun next member => kept next (List.mem_cons_of_mem _ member))

/-- A state is stored under the id that is returned for it. -/
theorem created_stored {steps : List Step} (issued : Issued steps u.quantumSystems)
    {request : SystemRequest} (returns : (request.step u).stateId systemId = some stateId)
    : ∃ source program created left, request = .createState systemId source
        ∧ source.program u = .ok program
        ∧ State.encodeState program u.world = some (created, left)
        ∧ (request.step u).after.tableau systemId stateId = some created := by
  have effect := perform_effect u request
  simp only [Step.stateId, SystemRequest.step] at returns ⊢
  simp only [tableau_eq_some]
  generalize (request.perform u).2.quantumSystems = systems at effect ⊢
  generalize (request.perform u).1 = result at effect returns
  cases effect with
  | fails _ => simp at returns
  | createSystem => simp at returns
  | losesId => simp at returns
  | deleteSystem _ => simp at returns
  | @edits _ _ owner system states flag names free changes =>
      cases changes with
      | fails => simp at returns
      | computes => simp at returns
      | edits _ _ => simp at returns
      | keepsFlag _ _ => simp at returns
      | deletes _ => simp at returns
      | @inserts _ source program created left _ compiles encodes =>
          cases names
          obtain ⟨rfl, rfl⟩ : owner = systemId ∧ system.states.keyGenerator = stateId := by
            simpa using returns
          refine ⟨source, program, created, left, rfl, compiles, encodes, _, false,
            MsContainer.find_store _ _, ?_⟩
          rw [(issued.states _ _ free).find_insert, if_pos rfl]

theorem created_live {steps : List Step} (issued : Issued steps u.quantumSystems)
    {request : SystemRequest} (returns : (request.step u).systemId = some systemId)
    : ((request.step u).after.quantumSystems.find systemId).isSome := by
  have effect := perform_effect u request
  simp only [Step.systemId, SystemRequest.step] at returns ⊢
  generalize (request.perform u).2.quantumSystems = systems at effect ⊢
  generalize (request.perform u).1 = result at effect returns
  cases effect with
  | fails _ => simp at returns
  | losesId => simp at returns
  | deleteSystem _ => simp at returns
  | edits names free changes =>
      cases request with
      | createSystem stateType => cases names
      | _ => simp at returns
  | createSystem =>
      cases returns
      rw [issued.ids.find_insert, if_pos rfl]
      rfl

end Histories

end Universe

end Sabot
