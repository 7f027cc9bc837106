import Sabot.Universe.Tasks

/-! The protocol that the workers keep to: what holds whatever they are at, what each of them can
rely on, and that taking and releasing locks and flags keeps to it.
-/

namespace Sabot.Universe

open Sabot.Language (Byte Program parseProgram)
open Sabot.State (ChpState World)
open Workers (Allows Code Protocol Stable Triple atomically ofWorker ofWorker_append ofWorker_other
  ofWorker_self)

variable {W : Type}

-----------------------------------------------------------------------------------------
-- One request at a time
-----------------------------------------------------------------------------------------

/-- Performing the requests one at a time from an empty universe, each with its own draws, gives
the answers and the universe.
-/
inductive Replays : List (W × Call × Answer) → Universe → Prop where
  | start {world draws} : Replays [] (Universe.new world draws)
  | performs {order u w request world answer next} (before : Replays order u)
      (performs : request.perform { u with world := world } = (.ok answer, next))
      : Replays (order ++ [(w, (request, world), answer)]) next

/-- No interpreter is in use, and each is of the dialect of its name. -/
def Fluent (interpreters : Interpreters) : Prop :=
  ∀ name entry, interpreters.find name = some entry
    → entry.flag = false ∧ instantiateDialect name = .ok entry.item.dialect

/-- The program of a text in the dialect that it names. -/
def Source.Means (source : Source) (program : Program) : Prop :=
  ∃ dialect, instantiateDialect source.dialect = .ok dialect
    ∧ parseProgram dialect source.data source.lineDelimiter = .ok program

-----------------------------------------------------------------------------------------
-- The protocol
-----------------------------------------------------------------------------------------

/-- What holds whatever the workers are at. A function runs on an item only while it has the flag,
alone, and keeps the list locked that the item is in; the list of states of a system is locked
only from within the system. The systems are what performing the requests in their order gives.
-/
structure Coherent (s : Shared W) : Prop where
  exclusive : ∀ list, (s.mutex list).writer ≠ none → (s.mutex list).readers = ∅
  flags
    : ∀ item, s.inside item = ∅ ∧ s.flag item = false
      ∨ ∃ w, s.inside item = {w} ∧ s.flag item = true
  listed : ∀ item w, w ∈ s.inside item → w ∈ (s.mutex item.list).readers
  held : ∀ item w, w ∈ s.inside item → s.present item
  nested
    : ∀ systemId w, w ∈ (s.mutex (.states systemId)).readers
        ∨ (s.mutex (.states systemId)).writer = some w
      → w ∈ s.inside (.system systemId)
  dialects
    : ∀ name entry, s.interpreters.find name = some entry
      → instantiateDialect name = .ok entry.item.interpreter.dialect
  parsed : ∀ parse ∈ s.parsed, instantiateDialect parse.1 = .ok parse.2.interpreter.dialect
  freeSystems : s.systems.Free
  freeStates : ∀ systemId entry, s.systems.find systemId = some entry → entry.item.states.Free
  replays
    : ∃ u : Universe, Replays s.order u ∧ u.quantumSystems = s.systems ∧ Fluent u.interpreters

section Coherence

variable {s : Shared W} {item : Item} {name : List Byte}

theorem clearNew_apply (item other : Item)
    : s.clearNew item other = s.flag other ∨ s.present item = false ∧ other = item
        ∧ s.clearNew item other = false := by
  unfold Shared.clearNew
  split
  · exact Or.inl rfl
  · rename_i absent
    by_cases same : other = item
    · exact Or.inr ⟨by simpa using absent, same, by simp [same]⟩
    · exact Or.inl (Function.update_of_ne same _ _)

/-- No function runs on an item that is not there. -/
theorem Coherent.inside_absent (coherent : Coherent s) (absent : s.present item = false)
    : s.inside item = ∅ := by
  refine Finset.eq_empty_of_forall_notMem (fun v runs => ?_)
  rw [coherent.held item v runs] at absent
  cases absent

/-- The flag of a new item may be cleared. -/
theorem Coherent.flags_clearNew (coherent : Coherent s) (item other : Item)
    : s.inside other = ∅ ∧ s.clearNew item other = false
      ∨ ∃ w, s.inside other = {w} ∧ s.clearNew item other = true := by
  rcases clearNew_apply (s := s) item other with same | ⟨absent, rfl, cleared⟩
  · rw [same]
    exact coherent.flags other
  · exact Or.inl ⟨coherent.inside_absent absent, cleared⟩

/-- Nobody is inside of a system while the list of systems is locked exclusively. -/
theorem Coherent.unread {w : W} (coherent : Coherent s) (locked : (s.mutex .systems).writer = some w)
    (systemId : UInt64) (v : W)
    : v ∉ (s.mutex .systems).readers ∧ v ∉ (s.mutex (.states systemId)).readers := by
  have empty : (s.mutex .systems).readers = ∅ := coherent.exclusive _ (by simp [locked])
  have none (v : W) : v ∉ (s.mutex .systems).readers := by simp [empty]
  exact ⟨none v, fun reads =>
    none v (coherent.listed _ v (coherent.nested systemId v (Or.inl reads)))⟩

theorem coherent_new : Coherent (Shared.new W) where
  exclusive _ locked := absurd rfl locked
  flags _ := Or.inl ⟨rfl, rfl⟩
  listed _ _ runs := absurd runs (Finset.notMem_empty _)
  held _ _ runs := absurd runs (Finset.notMem_empty _)
  nested := by
    rintro _ _ (reads | writes)
    · exact absurd reads (Finset.notMem_empty _)
    · cases writes
  dialects name entry found := by
    rw [show (Shared.new W).interpreters = MsContainer.new [] from rfl, MsContainer.find_new] at found
    cases found
  parsed _ member := absurd member List.not_mem_nil
  freeSystems key entry found := by
    rw [show (Shared.new W).systems = MsContainer.new 0 from rfl, MsContainer.find_new] at found
    cases found
  freeStates key entry found := by
    rw [show (Shared.new W).systems = MsContainer.new 0 from rfl, MsContainer.find_new] at found
    cases found
  replays := by
    refine ⟨Universe.new oneSystem.world oneSystem.draws, .start, rfl, fun name entry found => ?_⟩
    rw [show (Universe.new oneSystem.world oneSystem.draws).interpreters = MsContainer.new [] from
      rfl, MsContainer.find_new] at found
    cases found

end Coherence

/-- No interpreter is replaced. -/
def Persist (s t : Shared W) : Prop :=
  ∀ name entry, s.interpreters.find name = some entry → t.interpreters.find name = some entry

/-- What every step does: it replaces no interpreter, and lets requests take effect one after the
other.
-/
structure Advances (s t : Shared W) : Prop where
  interpreters : Persist s t
  order : s.order <+: t.order

/-- The interpreters that are looked for are there. -/
def Expects (item : Item) (s : Shared W) : Prop :=
  (∃ name, item = .interpreter name) → s.present item

/-- The fact is about interpreters that are there, so every step keeps it. -/
def Lasting (fact : Shared W → Prop) : Prop := ∀ s t, Persist s t → fact s → fact t

theorem lasting_expects {item : Item} : Lasting (Expects item : Shared W → Prop) := by
  rintro s t persist expects ⟨name, rfl⟩
  obtain ⟨entry, found⟩ := Option.isSome_iff_exists.mp (expects ⟨name, rfl⟩)
  exact Option.isSome_of_eq_some (persist name entry found)

theorem expects_interpreter {s : Shared W} {name : List Byte}
    : Expects (.interpreter name) s ↔ s.present (.interpreter name) :=
  ⟨fun expects => expects ⟨name, rfl⟩, fun present _ => present⟩

theorem lasting_counted {name : List Byte} (count : Nat)
    : Lasting (fun s : Shared W => count ≠ 0 → Expects (.interpreter name) s) :=
  fun s t persist counted nonzero => lasting_expects s t persist (counted nonzero)

variable [DecidableEq W]

/-- What the others keep for a worker: its locks and flags and its requests, the items of the
lists that it has locked, and all interpreters.
-/
structure Keeps (w : W) (s t : Shared W) : Prop where
  readers : ∀ list, w ∈ (t.mutex list).readers ↔ w ∈ (s.mutex list).readers
  writer : ∀ list, (t.mutex list).writer = some w ↔ (s.mutex list).writer = some w
  inside : ∀ item, w ∈ t.inside item ↔ w ∈ s.inside item
  order : ofWorker w t.order = ofWorker w s.order
  present : ∀ item, w ∈ (s.mutex item.list).readers → s.present item → t.present item
  interpreters : Persist s t

/-- The protocol that the workers keep to. -/
def protocol (W : Type) [DecidableEq W] : Protocol W (Shared W) where
  invariant := Coherent
  keeps := Keeps
  advances := Advances
  keeps_refl _ _ := ⟨fun _ => .rfl, fun _ => .rfl, fun _ => .rfl, rfl, fun _ _ => id, fun _ _ => id⟩
  keeps_trans _ _ _ _ first second := {
    readers := fun list => (second.readers list).trans (first.readers list)
    writer := fun list => (second.writer list).trans (first.writer list)
    inside := fun item => (second.inside item).trans (first.inside item)
    order := second.order.trans first.order
    present := fun item reads present =>
      second.present item ((first.readers _).mpr reads) (first.present item reads present)
    interpreters := fun name entry found =>
      second.interpreters name entry (first.interpreters name entry found)
  }
  advances_refl _ := ⟨fun _ _ => id, List.prefix_rfl⟩
  advances_trans _ _ _ first second := {
    interpreters := fun name entry found =>
      second.interpreters name entry (first.interpreters name entry found)
    order := first.order.trans second.order
  }

/-- Requests name live systems and states and do not stop; the rest cannot fail. -/
def Excused : Failure → Prop
  | .stopped _ | .missing (.system _) | .missing (.state _ _) => True
  | .missing (.interpreter _) | .dangling _ => False

/-- The locks and flags that a worker has. -/
structure Holding where
  shared : List ListId
  exclusive : List ListId
  items : List Item

/-- The worker has these locks and flags and has had these requests take effect. -/
structure Holds (w : W) (held : Holding) (done : List (Call × Answer)) (s : Shared W) : Prop where
  readers : ∀ list, w ∈ (s.mutex list).readers ↔ list ∈ held.shared
  writer : ∀ list, (s.mutex list).writer = some w ↔ list ∈ held.exclusive
  inside : ∀ item, w ∈ s.inside item ↔ item ∈ held.items
  order : ofWorker w s.order = done

variable {w : W} {held : Holding} {done : List (Call × Answer)} {s : Shared W} {list : ListId}
  {item : Item}

theorem Holds.stable : Stable (protocol W) w (Holds w held done) := by
  intro s t _ keeps holds
  refine {
    readers := fun list => (keeps.readers list).trans (holds.readers list)
    writer := fun list => (keeps.writer list).trans (holds.writer list)
    inside := fun item => (keeps.inside item).trans (holds.inside item)
    order := keeps.order.trans holds.order
  }

-----------------------------------------------------------------------------------------
-- Mutexes
-----------------------------------------------------------------------------------------

section Mutexes

variable {mutex : SharedMutex W}

/-- The state after a mutex has changed. -/
def Shared.setMutex (s : Shared W) (list : ListId) (mutex : SharedMutex W) : Shared W :=
  { s with mutex := Function.update s.mutex list mutex }

/-- A worker changes a mutex: what the others have of it stays, its readers have no writer beside
them, and the functions that run on items of the list keep it locked.
-/
theorem allows_setMutex (coherent : Coherent s)
    (readers : ∀ v, v ≠ w → (v ∈ mutex.readers ↔ v ∈ (s.mutex list).readers))
    (writer : ∀ v, v ≠ w → (mutex.writer = some v ↔ (s.mutex list).writer = some v))
    (exclusive : mutex.writer ≠ none → mutex.readers = ∅)
    (listed : ∀ item, item.list = list → w ∈ s.inside item → w ∈ mutex.readers)
    (nested : ∀ systemId, list = .states systemId → w ∈ mutex.readers ∨ mutex.writer = some w
      → w ∈ s.inside (.system systemId))
    : Allows (protocol W) w s (s.setMutex list mutex) := by
  have changed (other : ListId) : (s.setMutex list mutex).mutex other
      = if other = list then mutex else s.mutex other := Function.update_apply _ _ _ _
  refine {
    invariant := { coherent with exclusive := ?_, listed := ?_, nested := ?_ }
    others := fun v ne => ?_
    advances := ⟨fun _ _ => id, List.prefix_rfl⟩
  }
  · intro other
    rw [changed]
    split
    · exact exclusive
    · exact coherent.exclusive other
  · intro item v inside
    rw [changed]
    split
    · rename_i same
      by_cases mine : v = w
      · exact mine ▸ listed item same (mine ▸ inside)
      · exact (readers v mine).mpr (same ▸ coherent.listed item v inside)
    · exact coherent.listed item v inside
  · intro systemId v
    rw [changed]
    split
    · rename_i same
      intro locks
      by_cases mine : v = w
      · exact mine ▸ nested systemId same.symm (mine ▸ locks)
      · rw [readers v mine, writer v mine, ← same] at locks
        exact coherent.nested systemId v locks
    · exact coherent.nested systemId v
  · refine {
      readers := fun other => ?_
      writer := fun other => ?_
      inside := fun _ => .rfl
      order := rfl
      present := fun _ _ => id
      interpreters := fun _ _ => id
    }
    · rw [changed]
      split
      · rename_i same
        rw [same]
        exact readers v ne
      · rfl
    · rw [changed]
      split
      · rename_i same
        rw [same]
        exact writer v ne
      · rfl

/-- What the worker has after the change. -/
theorem Holds.setMutex (holds : Holds w held done s) {shared exclusive : List ListId}
    (readers : ∀ other, other ∈ shared ↔ if other = list then w ∈ mutex.readers
      else other ∈ held.shared)
    (writer : ∀ other, other ∈ exclusive ↔ if other = list then mutex.writer = some w
      else other ∈ held.exclusive)
    : Holds w ⟨shared, exclusive, held.items⟩ done (s.setMutex list mutex) := by
  have changed (other : ListId) : (s.setMutex list mutex).mutex other
      = if other = list then mutex else s.mutex other := Function.update_apply _ _ _ _
  refine {
    readers := fun other => ?_
    writer := fun other => ?_
    inside := holds.inside
    order := holds.order
  }
  · rw [changed, readers]
    split
    · rfl
    · exact holds.readers other
  · rw [changed, writer]
    split
    · rfl
    · exact holds.writer other

/-- A list of states is locked from within its system. -/
def Within (items : List Item) (list : ListId) : Prop :=
  ∀ systemId, list = .states systemId → Item.system systemId ∈ items

omit [DecidableEq W] in
theorem Within.inside {items : List Item} (within : Within items list)
    (inside : ∀ item, w ∈ s.inside item ↔ item ∈ items)
    : ∀ systemId, list = .states systemId → w ∈ s.inside (.system systemId) :=
  fun systemId same => (inside _).mpr (within systemId same)

theorem lockShared_triple (within : Within held.items list)
    : Triple (protocol W) w Excused (Holds w held done) (lockShared w list)
        (fun _ => Holds w { held with shared := list :: held.shared } done) := by
  refine Triple.atomically Holds.stable (fun _ => Holds.stable) ?_ ?_
  · rintro s e _ _ _ ⟨⟩
  · rintro s _ _ coherent holds free ⟨⟩
    refine ⟨allows_setMutex coherent ?_ ?_ ?_ ?_ ?_, holds.setMutex ?_ ?_⟩
    · intro v ne
      simp [ne]
    · exact fun v _ => .rfl
    · exact fun locked => absurd free locked
    · exact fun _ _ _ => Finset.mem_insert_self _ _
    · exact fun systemId same _ => within.inside holds.inside systemId same
    · intro other
      by_cases same : other = list <;> simp [same]
    · intro other
      rw [← holds.writer]
      split
      · rename_i same
        rw [same]
      · rfl

theorem unlockShared_triple (unread : list ∉ held.shared)
    (outside : ∀ item ∈ held.items, item.list ≠ list)
    (within : Within held.items list)
    : Triple (protocol W) w Excused (Holds w { held with shared := list :: held.shared } done)
        (unlockShared w list) (fun _ => Holds w held done) := by
  refine Triple.atomically Holds.stable (fun _ => Holds.stable) ?_ ?_
  · rintro s e _ _ _ ⟨⟩
  · rintro s _ _ coherent holds _ ⟨⟩
    refine ⟨allows_setMutex coherent ?_ ?_ ?_ ?_ ?_, holds.setMutex ?_ ?_⟩
    · intro v ne
      simp [ne]
    · exact fun v _ => .rfl
    · intro locked
      rw [coherent.exclusive list locked]
      rfl
    · exact fun item same inside => absurd same (outside item ((holds.inside item).mp inside))
    · exact fun systemId same _ => within.inside holds.inside systemId same
    · intro other
      by_cases same : other = list
      · simp [same, unread]
      · simp [same]
    · intro other
      rw [← holds.writer]
      split
      · rename_i same
        rw [same]
      · rfl

theorem lock_triple (within : Within held.items list)
    : Triple (protocol W) w Excused (Holds w held done) (lock w list)
        (fun _ => Holds w { held with exclusive := list :: held.exclusive } done) := by
  refine Triple.atomically Holds.stable (fun _ => Holds.stable) ?_ ?_
  · rintro s e _ _ _ ⟨⟩
  · rintro s _ _ coherent holds ⟨free, unread⟩ ⟨⟩
    refine ⟨allows_setMutex coherent ?_ ?_ ?_ ?_ ?_, holds.setMutex ?_ ?_⟩
    · exact fun v _ => .rfl
    · intro v ne
      simp [free, ne.symm]
    · exact fun _ => unread
    · intro item same inside
      rw [← same]
      exact coherent.listed item w inside
    · exact fun systemId same _ => within.inside holds.inside systemId same
    · intro other
      rw [← holds.readers]
      split
      · rename_i same
        rw [same]
      · rfl
    · intro other
      by_cases same : other = list <;> simp [same]

theorem unlock_triple (unwritten : list ∉ held.exclusive) (within : Within held.items list)
    : Triple (protocol W) w Excused
        (Holds w { held with exclusive := list :: held.exclusive } done) (unlock list)
        (fun _ => Holds w held done) := by
  refine Triple.atomically Holds.stable (fun _ => Holds.stable) ?_ ?_
  · rintro s e _ _ _ ⟨⟩
  · rintro s _ _ coherent holds _ ⟨⟩
    have locked : (s.mutex list).writer = some w := (holds.writer list).mpr List.mem_cons_self
    refine ⟨allows_setMutex coherent ?_ ?_ ?_ ?_ ?_, holds.setMutex ?_ ?_⟩
    · exact fun v _ => .rfl
    · intro v ne
      simp [locked, ne.symm]
    · exact fun writer => absurd rfl writer
    · intro item same inside
      rw [← same]
      exact coherent.listed item w inside
    · exact fun systemId same _ => within.inside holds.inside systemId same
    · intro other
      rw [← holds.readers]
      split
      · rename_i same
        rw [same]
      · rfl
    · intro other
      by_cases same : other = list
      · simp [same, unwritten]
      · simp [same]

end Mutexes

-----------------------------------------------------------------------------------------
-- Flags
-----------------------------------------------------------------------------------------

section Flags

/-- The state after a flag has changed, with the workers whose function then runs on the item. -/
def Shared.setFlag (s : Shared W) (item : Item) (flag : Bool) (inside : Finset W) : Shared W :=
  { s with
    flag := Function.update s.flag item flag
    inside := Function.update s.inside item inside }

/-- A worker enters or leaves an item. -/
theorem allows_setFlag (coherent : Coherent s) {flag : Bool} {inside : Finset W}
    (others : ∀ v, v ≠ w → (v ∈ inside ↔ v ∈ s.inside item))
    (alone : inside = ∅ ∧ flag = false ∨ ∃ v, inside = {v} ∧ flag = true)
    (enters : w ∈ inside → w ∈ (s.mutex item.list).readers ∧ s.present item)
    (leaves : ∀ systemId, item = .system systemId → w ∈ (s.mutex (.states systemId)).readers
        ∨ (s.mutex (.states systemId)).writer = some w
      → w ∈ inside)
    : Allows (protocol W) w s (s.setFlag item flag inside) := by
  have changed (other : Item) : (s.setFlag item flag inside).inside other
      = if other = item then inside else s.inside other := Function.update_apply _ _ _ _
  have flagged (other : Item) : (s.setFlag item flag inside).flag other
      = if other = item then flag else s.flag other := Function.update_apply _ _ _ _
  refine {
    invariant := { coherent with flags := ?_, listed := ?_, held := ?_, nested := ?_ }
    others := fun v ne => ⟨fun _ => .rfl, fun _ => .rfl, ?_, rfl, fun _ _ => id, fun _ _ => id⟩
    advances := ⟨fun _ _ => id, List.prefix_rfl⟩
  }
  · intro other
    rw [changed, flagged]
    split
    · exact alone
    · exact coherent.flags other
  · intro other v runs
    rw [changed] at runs
    split at runs
    · rename_i same
      rw [same]
      by_cases mine : v = w
      · exact mine ▸ (enters (mine ▸ runs)).1
      · exact coherent.listed item v ((others v mine).mp runs)
    · exact coherent.listed other v runs
  · intro other v runs
    rw [changed] at runs
    split at runs
    · rename_i same
      rw [same]
      by_cases mine : v = w
      · exact (enters (mine ▸ runs)).2
      · exact coherent.held item v ((others v mine).mp runs)
    · exact coherent.held other v runs
  · intro systemId v locks
    rw [changed]
    split
    · rename_i same
      by_cases mine : v = w
      · exact mine ▸ leaves systemId same.symm (mine ▸ locks)
      · rw [others v mine, ← same]
        exact coherent.nested systemId v locks
    · exact coherent.nested systemId v locks
  · intro other
    rw [changed]
    split
    · rename_i same
      rw [same]
      exact others v ne
    · rfl

theorem Holds.setFlag (holds : Holds w held done s) {flag : Bool} {inside : Finset W}
    {items : List Item}
    (members : ∀ other, other ∈ items ↔ if other = item then w ∈ inside else other ∈ held.items)
    : Holds w { held with items := items } done (s.setFlag item flag inside) := by
  refine {
    readers := holds.readers
    writer := holds.writer
    inside := fun other => ?_
    order := holds.order
  }
  rw [members, show (s.setFlag item flag inside).inside other
      = if other = item then inside else s.inside other from Function.update_apply _ _ _ _]
  split
  · rfl
  · exact holds.inside other

/-- An item of a list that the worker has locked, and that it has found. -/
def Found (w : W) (held : Holding) (done : List (Call × Answer)) (item : Item) (s : Shared W)
    : Prop :=
  Holds w held done s ∧ s.present item

theorem Found.stable (locked : item.list ∈ held.shared)
    : Stable (protocol W) w (Found w held done item) :=
  fun s t coherent keeps found => ⟨Holds.stable s t coherent keeps found.1,
    keeps.present item ((found.1.readers _).mpr locked) found.2⟩

section Lasting

variable {α : Type} {fact : Shared W → Prop} (lasting : Lasting fact) {pre : Shared W → Prop}
  {code : Task W α} {post : α → Shared W → Prop}
include lasting

theorem Lasting.stable : Stable (protocol W) w fact :=
  fun s t _ keeps => lasting s t keeps.interpreters

theorem Lasting.holds : Stable (protocol W) w (fun s => Holds w held done s ∧ fact s) :=
  fun s t coherent keeps now =>
    ⟨Holds.stable s t coherent keeps now.1, lasting.stable s t coherent keeps now.2⟩

/-- A lasting fact is carried over any code. -/
theorem Lasting.carry (triple : Triple (protocol W) w Excused pre code post)
    : Triple (protocol W) w Excused (fun s => pre s ∧ fact s) code
        (fun a s => post a s ∧ fact s) :=
  triple.frame lasting.stable (fun s t advances => lasting s t advances.interpreters)

end Lasting

/-- The item can be looked for. -/
def Expected (w : W) (held : Holding) (done : List (Call × Answer)) (item : Item) (s : Shared W)
    : Prop :=
  Holds w held done s ∧ Expects item s

theorem Expected.stable : Stable (protocol W) w (Expected w held done item) :=
  lasting_expects.holds

theorem find_triple (locked : item.list ∈ held.shared)
    : Triple (protocol W) w Excused (Expected w held done item) (find item)
        (fun _ => Found w held done item) := by
  refine Triple.atomically Expected.stable (fun _ => Found.stable locked) ?_ ?_
  · intro s e _ expected _ fails
    split at fails
    · cases fails
    · rename_i absent
      cases fails
      cases item with
      | system systemId => trivial
      | state systemId stateId => trivial
      | interpreter name => exact absurd (expected.2 ⟨name, rfl⟩) absent
  · intro s a t coherent expected _ finds
    split at finds
    · rename_i present
      cases finds
      exact ⟨⟨coherent, fun v _ => (protocol W).keeps_refl v _, (protocol W).advances_refl _⟩,
        expected.1, present⟩
    · cases finds

theorem testAndSet_triple (locked : item.list ∈ held.shared)
    : Triple (protocol W) w Excused (Found w held done item) (testAndSet w item)
        (fun _ => Holds w { held with items := item :: held.items } done) := by
  refine Triple.atomically (Found.stable locked) (fun _ => Holds.stable) ?_ ?_
  · intro s e _ found _ fails
    rw [if_pos found.2] at fails
    cases fails
  · intro s a t coherent found free sets
    rw [if_pos found.2] at sets
    cases sets
    -- A clear flag means that no function runs on the item.
    have empty : s.inside item = ∅ := by
      rcases coherent.flags item with ⟨empty, _⟩ | ⟨v, _, set⟩
      · exact empty
      · rw [free] at set
        cases set
    refine ⟨allows_setFlag coherent ?_ ?_ ?_ ?_, found.1.setFlag ?_⟩
    · intro v ne
      simp [ne]
    · exact Or.inr ⟨w, by rw [empty]; rfl, rfl⟩
    · exact fun _ => ⟨(found.1.readers _).mpr locked, found.2⟩
    · exact fun _ _ _ => Finset.mem_insert_self _ _
    · intro other
      by_cases same : other = item <;> simp [same]

variable (held) in
theorem clear_triple (unheld : item ∉ held.items)
    (outer : ∀ systemId, item = .system systemId
      → .states systemId ∉ held.shared ∧ .states systemId ∉ held.exclusive)
    : Triple (protocol W) w Excused (Holds w { held with items := item :: held.items } done)
        (clear w item) (fun _ => Holds w held done) := by
  refine Triple.atomically Holds.stable (fun _ => Holds.stable) ?_ ?_
  · intro s e coherent holds _ fails
    rw [if_pos (coherent.held item w ((holds.inside item).mpr List.mem_cons_self))] at fails
    cases fails
  · intro s a t coherent holds _ clears
    have runs : w ∈ s.inside item := (holds.inside item).mpr List.mem_cons_self
    rw [if_pos (coherent.held item w runs)] at clears
    cases clears
    have alone : s.inside item = {w} := by
      rcases coherent.flags item with ⟨empty, _⟩ | ⟨v, single, _⟩
      · rw [empty] at runs
        cases runs
      · rw [single, Finset.mem_singleton] at runs
        rw [single, runs]
    refine ⟨allows_setFlag coherent ?_ ?_ ?_ ?_, holds.setFlag ?_⟩
    · intro v ne
      simp [ne]
    · exact Or.inl ⟨by rw [alone]; simp, rfl⟩
    · exact fun member => absurd member (Finset.notMem_erase w _)
    · rintro systemId rfl (reads | writes)
      · exact absurd ((holds.readers _).mp reads) (outer systemId rfl).1
      · exact absurd ((holds.writer _).mp writes) (outer systemId rfl).2
    · intro other
      by_cases same : other = item
      · simp [same, unheld]
      · simp [same]

/-- The item can be edited by a worker with these locks and flags: its list is not locked yet,
except that a list of states is locked from within its system.
-/
structure Opens (held : Holding) (item : Item) : Prop where
  unread : item.list ∉ held.shared
  outside : ∀ other ∈ held.items, other.list ≠ item.list
  within : Within held.items item.list
  outer
    : ∀ systemId, item = .system systemId
      → .states systemId ∉ held.shared ∧ .states systemId ∉ held.exclusive

/-- What the worker has while its function runs on the item. -/
def Holding.open (held : Holding) (item : Item) : Holding :=
  ⟨item.list :: held.shared, held.exclusive, item :: held.items⟩

variable {α : Type} {fact : α → Prop} {after : α → List (Call × Answer)}

theorem lockShared_expected (within : Within held.items item.list)
    : Triple (protocol W) w Excused (Expected w held done item) (lockShared w item.list)
        (fun _ => Expected w { held with shared := item.list :: held.shared } done item) :=
  lasting_expects.carry (lockShared_triple within)

theorem editItem_triple (opens : Opens held item) {function : Task W α}
    (body : Triple (protocol W) w Excused (Holds w (held.open item) done) function
      (fun a s => fact a ∧ Holds w (held.open item) (after a) s))
    : Triple (protocol W) w Excused (Expected w held done item) (editItem w item function)
        (fun a s => fact a ∧ Holds w held (after a) s) := by
  let locked : Holding := { held with shared := item.list :: held.shared }
  refine Triple.bind (lockShared_expected opens.within) (fun _ => ?_)
  refine Triple.bind (find_triple List.mem_cons_self) (fun _ => ?_)
  refine Triple.bind (testAndSet_triple List.mem_cons_self) (fun _ => ?_)
  refine Triple.bind body (fun a => Triple.of_pure (fun holds => ?_))
  have clears : Triple (protocol W) w Excused (Holds w (held.open item) (after a)) (clear w item)
      (fun _ => Holds w locked (after a)) := by
    refine clear_triple locked (fun member => opens.outside item member rfl) ?_
    rintro systemId rfl
    obtain ⟨unread, unwritten⟩ := opens.outer systemId rfl
    exact ⟨by simp [locked, Item.list, unread], unwritten⟩
  have unlocks : Triple (protocol W) w Excused (Holds w locked (after a))
      (unlockShared w item.list) (fun _ => Holds w held (after a)) :=
    unlockShared_triple opens.unread opens.outside opens.within
  refine Triple.bind clears (fun _ => Triple.bind unlocks (fun _ => ?_))
  exact Triple.ret Holds.stable (fun s _ now => ⟨holds, now⟩)

theorem exclusively_triple (unwritten : list ∉ held.exclusive) (within : Within held.items list)
    {step : Task W α}
    (body : Triple (protocol W) w Excused
      (Holds w { held with exclusive := list :: held.exclusive } done) step
      (fun a => Holds w { held with exclusive := list :: held.exclusive } (after a)))
    : Triple (protocol W) w Excused (Holds w held done) (exclusively w list step)
        (fun a => Holds w held (after a)) := by
  refine Triple.bind (lock_triple within) (fun _ => Triple.bind body (fun a => ?_))
  refine Triple.bind (unlock_triple unwritten within) (fun _ => ?_)
  exact Triple.ret Holds.stable (fun _ _ => id)

end Flags

end Sabot.Universe
