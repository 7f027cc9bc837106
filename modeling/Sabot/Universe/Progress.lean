import Sabot.Universe.Linearization
import Sabot.Workers.Progress

/-! The workers never wait for each other in a circle: each takes mutexes and flags in the order
systems, interpreters, states, a list before its items. So every request is completed, unless one
stops and keeps its locks.
-/

namespace Sabot.Universe

open Sabot.Language (Program)
open Workers (AllOrderly Claims Code Orderly Patient Pool Protocol Quiet Ranked Resources Sound Stable
  Takes Triple Waits atomically)

variable {W : Type} [DecidableEq W] {w : W} {held : Holding} {done : List (Call × Answer)}
  {list : ListId} {item : Item}

-----------------------------------------------------------------------------------------
-- The order of the locks
-----------------------------------------------------------------------------------------

/-- A mutex or a flag. -/
inductive Lock where
  | mutex (list : ListId)
  | flag (item : Item)

def ListId.rank : ListId → Nat
  | .systems => 0
  | .interpreters => 2
  | .states _ => 4

theorem ListId.rank_le (list : ListId) : list.rank ≤ 4 := by
  cases list <;> simp [ListId.rank]

/-- The place in the order; the flag of an item comes right after the mutex of its list. -/
def Lock.rank : Lock → Nat
  | .mutex list => list.rank
  | .flag item => item.list.rank + 1

/-- Who holds which lock: a mutex is held shared or exclusively, and a flag while a function runs on
the item. Only a mutex can be waited for exclusively while others go on sharing it.
-/
def locks (W : Type) : Resources W (Shared W) Lock where
  holds w lock s := match lock with
    | .mutex list => w ∈ (s.mutex list).readers ∨ (s.mutex list).writer = some w
    | .flag item => w ∈ s.inside item
  owns w lock s := match lock with
    | .mutex list => (s.mutex list).writer = some w
    | .flag _ => False
  rank := Lock.rank
  bound := 6
  rank_lt lock := by
    cases lock with
    | mutex list => exact Nat.lt_of_le_of_lt list.rank_le (by decide)
    | flag item => exact Nat.succ_lt_succ (Nat.lt_of_le_of_lt item.list.rank_le (by decide))

/-- Everything that the worker holds comes before a place in the order. -/
structure Holding.Below (held : Holding) (rank : Nat) : Prop where
  mutexes : ∀ list, list ∈ held.shared ∨ list ∈ held.exclusive → list.rank < rank
  flags : ∀ item ∈ held.items, item.list.rank + 1 < rank

theorem Holding.Below.rank_lt {rank : Nat} (below : held.Below rank) {s : Shared W}
    (holds : Holds w held done s) {lock : Lock} (own : (locks W).holds w lock s)
    : lock.rank < rank := by
  cases lock with
  | mutex list =>
      exact below.mutexes list (own.imp (holds.readers list).mp (holds.writer list).mp)
  | flag item => exact below.flags item ((holds.inside item).mp own)

/-- With the list locked, its items come next. -/
theorem Holding.Below.locked (below : held.Below item.list.rank)
    : Holding.Below { held with shared := item.list :: held.shared } (item.list.rank + 1) where
  mutexes list := by
    rintro (shared | exclusive)
    · rcases List.mem_cons.mp shared with rfl | shared
      · exact Nat.lt_succ_self _
      · exact Nat.lt_succ_of_lt (below.mutexes list (Or.inl shared))
    · exact Nat.lt_succ_of_lt (below.mutexes list (Or.inr exclusive))
  flags other member := Nat.lt_succ_of_lt (below.flags other member)

/-- A function on an item can take the locks that come later. -/
theorem Holding.Below.open (below : held.Below item.list.rank) {rank : Nat}
    (later : item.list.rank + 1 < rank)
    : (held.open item).Below rank where
  mutexes list member := lt_of_lt_of_le (below.locked.mutexes list member) (by omega)
  flags other member := by
    rcases List.mem_cons.mp member with rfl | member
    · exact later
    · exact lt_trans (below.flags other member) (by omega)

theorem below_none (rank : Nat) : Holding.none.Below rank where
  mutexes _ member := by rcases member with member | member <;> cases member
  flags _ member := by cases member

theorem below_system (systemId : UInt64) {rank : Nat} (later : 1 < rank)
    : (Holding.system systemId).Below rank :=
  (below_none _).open later

-----------------------------------------------------------------------------------------
-- Locks
-----------------------------------------------------------------------------------------

section Locks

variable {s : Shared W} {effect : Shared W → Shared W} {lock : Lock} {mutex : SharedMutex W}

omit [DecidableEq W] in
/-- A change of a mutex takes no lock but that. -/
theorem takes_setMutex (changes : effect s = s.setMutex list mutex)
    (takes : Takes (locks W) w effect lock s)
    : lock = .mutex list := by
  obtain ⟨free, taken⟩ := takes
  rw [changes] at taken
  cases lock with
  | flag item => exact absurd taken free
  | mutex other =>
      by_contra ne
      have apart : other ≠ list := fun same => ne (congrArg Lock.mutex same)
      simp only [locks, Shared.setMutex, Function.update_of_ne apart] at taken
      exact free taken

omit [DecidableEq W] in
/-- Nothing is claimed by a step that leaves the writers as they are. -/
theorem not_claims (writers : ∀ list, ((effect s).mutex list).writer = (s.mutex list).writer)
    : ¬Claims (locks W) w effect lock s := by
  rintro ⟨free, owned⟩
  cases lock with
  | flag item => exact owned
  | mutex list => exact free ((writers list).symm.trans owned)

omit [DecidableEq W] in
theorem claims_setMutex (changes : effect s = s.setMutex list mutex)
    (claims : Claims (locks W) w effect lock s)
    : lock = .mutex list := by
  obtain ⟨free, owned⟩ := claims
  rw [changes] at owned
  cases lock with
  | flag item => exact owned.elim
  | mutex other =>
      by_contra ne
      have apart : other ≠ list := fun same => ne (congrArg Lock.mutex same)
      simp only [locks, Shared.setMutex, Function.update_of_ne apart] at owned
      exact free owned

end Locks

theorem lockShared_patient (below : held.Below list.rank)
    : Patient (protocol W) (locks W) w (Holds w held done) (lockShared w list) := by
  refine Patient.atomically Holds.stable (fun s _ holds => ⟨?_, fun lock claims => ?_, ?_⟩)
  · cases locked : (s.mutex list).writer with
    | none => exact Or.inl rfl
    | some v =>
        refine Or.inr ⟨.mutex list, v, ?_, Or.inr locked, fun own holdsOwn =>
          below.rank_lt holds holdsOwn⟩
        rintro rfl
        exact absurd (below.mutexes list (Or.inr ((holds.writer list).mp locked))) (lt_irrefl _)
  · refine absurd claims (not_claims (fun other => ?_))
    by_cases same : other = list
    · subst same
      simp [Workers.effectOf]
    · simp [Workers.effectOf, same]
  · intro lock takes own holdsOwn
    obtain rfl := takes_setMutex rfl takes
    exact below.rank_lt holds holdsOwn

theorem lock_patient (below : held.Below list.rank)
    : Patient (protocol W) (locks W) w (Holds w held done) (lock w list) := by
  refine Patient.atomically Holds.stable (fun s _ holds => ?_)
  have free (lock : Lock) (high : list.rank ≤ lock.rank) : ¬(locks W).holds w lock s :=
    fun holdsOwn => absurd (below.rank_lt holds holdsOwn) (not_lt.mpr high)
  -- The mutex can be locked, or another worker has it.
  have able : ((s.mutex list).writer = none ∧ (s.mutex list).readers = ∅)
      ∨ ∃ v, v ≠ w ∧ (locks W).holds v (.mutex list) s := by
    cases locked : (s.mutex list).writer with
    | some v =>
        have writes : (locks W).holds v (.mutex list) s := Or.inr locked
        refine Or.inr ⟨v, ?_, writes⟩
        rintro rfl
        exact free _ le_rfl writes
    | none =>
        rcases Finset.eq_empty_or_nonempty (s.mutex list).readers with unread | ⟨v, member⟩
        · exact Or.inl ⟨rfl, unread⟩
        · have reads : (locks W).holds v (.mutex list) s := Or.inl member
          refine Or.inr ⟨v, ?_, reads⟩
          rintro rfl
          exact free _ le_rfl reads
  refine ⟨?_, fun lock claims => ?_, fun lock takes own holdsOwn => ?_⟩
  · rcases able with ready | ⟨v, ne, holdsV⟩
    · exact Or.inl ready
    · exact Or.inr ⟨.mutex list, v, ne, holdsV, fun own holdsOwn => below.rank_lt holds holdsOwn⟩
  · obtain rfl := claims_setMutex rfl claims
    exact able
  · obtain rfl := takes_setMutex rfl takes
    exact below.rank_lt holds holdsOwn

theorem testAndSet_patient (below : held.Below (item.list.rank + 1))
    (locked : item.list ∈ held.shared)
    : Patient (protocol W) (locks W) w (Found w held done item) (testAndSet w item) := by
  refine Patient.atomically (Found.stable locked) (fun s coherent found => ?_)
  refine ⟨?_, fun lock claims => absurd claims (not_claims (fun other => ?_)), ?_⟩
  · rcases coherent.flags item with ⟨_, free⟩ | ⟨v, inside, _⟩
    · exact Or.inl free
    · have runs : (locks W).holds v (.flag item) s := by
        change v ∈ s.inside item
        simp [inside]
      refine Or.inr ⟨.flag item, v, ?_, runs, fun own holdsOwn => below.rank_lt found.1 holdsOwn⟩
      rintro rfl
      exact absurd (below.rank_lt found.1 runs) (lt_irrefl _)
  · simp [Workers.effectOf, found.2]
  · intro lock takes own holdsOwn
    obtain ⟨free, taken⟩ := takes
    have same : lock = .flag item := by
      by_contra ne
      simp only [Workers.effectOf, found.2, if_true] at taken
      cases lock with
      | mutex list => exact free taken
      | flag other =>
          have apart : other ≠ item := fun same => ne (congrArg Lock.flag same)
          simp only [locks, Function.update_of_ne apart] at taken
          exact free taken
    subst same
    exact below.rank_lt found.1 holdsOwn

-----------------------------------------------------------------------------------------
-- Steps that take no lock
-----------------------------------------------------------------------------------------

section Quiet

variable {α : Type} {body : Shared W → Except Failure (α × Shared W)}

omit [DecidableEq W] in
/-- A step that leaves mutexes and running functions as they are takes no lock. -/
theorem quiet_of_same
    (same : ∀ s a t, body s = .ok (a, t) → t.mutex = s.mutex ∧ t.inside = s.inside)
    : Quiet (locks W) body := by
  intro s a t ran v lock holds
  obtain ⟨mutexes, inside⟩ := same s a t ran
  cases lock with
  | mutex list =>
      simp only [locks, mutexes] at holds
      exact holds
  | flag item =>
      simp only [locks, inside] at holds
      exact holds

theorem find_orderly (s : Shared W) : Orderly (protocol W) (locks W) w (find item) s := by
  refine Quiet.orderly (quiet_of_same (fun s a t ran => ?_)) s
  split at ran
  · cases ran
    exact ⟨rfl, rfl⟩
  · cases ran

theorem clear_orderly (s : Shared W) : Orderly (protocol W) (locks W) w (clear w item) s := by
  refine Quiet.orderly (fun s a t ran v lock holds => ?_) s
  split at ran
  · cases ran
    cases lock with
    | mutex list => exact holds
    | flag other =>
        by_cases same : other = item
        · subst same
          simp only [locks, Function.update_self] at holds
          exact Finset.mem_of_mem_erase holds
        · simpa only [locks, Function.update_of_ne same] using holds
  · cases ran

theorem unlockShared_orderly (s : Shared W)
    : Orderly (protocol W) (locks W) w (unlockShared w list) s := by
  refine Quiet.orderly (fun s a t ran v lock holds => ?_) s
  cases ran
  cases lock with
  | flag item => exact holds
  | mutex other =>
      by_cases same : other = list
      · subst same
        simp only [locks, Function.update_self] at holds
        exact holds.imp Finset.mem_of_mem_erase id
      · simpa only [locks, Function.update_of_ne same] using holds

theorem unlock_orderly (s : Shared W)
    : Orderly (protocol W) (locks W) w (unlock list) s := by
  refine Quiet.orderly (fun s a t ran v lock holds => ?_) s
  cases ran
  cases lock with
  | flag item => exact holds
  | mutex other =>
      by_cases same : other = list
      · subst same
        simp only [locks, Function.update_self] at holds
        exact holds.imp id (fun none => by cases none)
      · simpa only [locks, Function.update_of_ne same] using holds

theorem insertInterpreter_orderly (name : List Language.Byte) (object : Object) (s : Shared W)
    : Orderly (protocol W) (locks W) w
        (atomically (fun _ => True) (fun s : Shared W => (.ok ((), {
          s with
          interpreters := s.interpreters.emplace name ⟨false, object⟩
          flag := s.clearNew (.interpreter name) }) : Except Failure (Unit × Shared W)))) s := by
  refine Quiet.orderly (quiet_of_same (fun s a t ran => ?_)) s
  cases ran
  exact ⟨rfl, rfl⟩

theorem allocate_patient {pre : Shared W → Prop} (interpreter : Interpreter)
    : Patient (protocol W) (locks W) w pre (allocate interpreter) := by
  refine fun s _ _ => Quiet.orderly (quiet_of_same (fun s a t ran => ?_)) s
  cases ran
  exact ⟨rfl, rfl⟩

theorem parse_orderly (source : Source) (s : Shared W)
    : Orderly (protocol W) (locks W) w (parse source) s := by
  refine Quiet.orderly (quiet_of_same (fun s a t ran => ?_)) s
  split at ran
  · cases ran
  · split at ran
    · cases ran
      exact ⟨rfl, rfl⟩
    · cases ran

variable {call : Call} {answer : α → Answer} {systemId stateId : UInt64}
  {flag : α → Shared W → Item → Bool}

theorem onSystems_orderly {f : Run (MsContainer UInt64 QuantumSystem) α} (s : Shared W)
    : Orderly (protocol W) (locks W) w (onSystems w call f answer flag) s := by
  refine Quiet.orderly (quiet_of_same (fun s a t ran => ?_)) s
  split at ran
  · cases ran
    exact ⟨rfl, rfl⟩
  · cases ran

theorem onItem_orderly {f : Run (QuantumSystem × State.World) α} (s : Shared W)
    : Orderly (protocol W) (locks W) w (onItem w call systemId f answer flag) s := by
  refine Quiet.orderly (quiet_of_same (fun s a t ran => ?_)) s
  split at ran
  · cases ran
  · split at ran
    · cases ran
      exact ⟨rfl, rfl⟩
    · cases ran

theorem onStored_orderly {f : Run (State.ChpState × State.World) α} (s : Shared W)
    : Orderly (protocol W) (locks W) w (onStored w call systemId stateId f answer) s := by
  refine Quiet.orderly (quiet_of_same (fun s a t ran => ?_)) s
  split at ran
  · cases ran
  · split at ran
    · cases ran
    · split at ran
      · cases ran
        exact ⟨rfl, rfl⟩
      · cases ran

end Quiet

variable {α : Type}

theorem editItem_patient (opens : Opens held item) (below : held.Below item.list.rank)
    {function : Task W α}
    (body : Patient (protocol W) (locks W) w (Holds w (held.open item) done) function)
    : Patient (protocol W) (locks W) w (Expected w held done item) (editItem w item function) := by
  have first : Patient (protocol W) (locks W) w (Expected w held done item)
      (lockShared w item.list) :=
    (lockShared_patient below).strengthen (fun _ _ expected => expected.1)
  refine first.bind (lockShared_expected opens.within) (fun _ => ?_)
  have finds : Patient (protocol W) (locks W) w
      (Expected w { held with shared := item.list :: held.shared } done item) (find item) :=
    fun s _ _ => find_orderly s
  refine finds.bind (find_triple List.mem_cons_self) (fun _ => ?_)
  refine (testAndSet_patient below.locked List.mem_cons_self).bind
    (testAndSet_triple List.mem_cons_self) (fun _ => ?_)
  -- Nothing has to be waited for once the function has returned.
  intro s coherent holds
  refine (body s coherent holds).bind (fun a t => ?_)
  exact (clear_orderly t).bind (fun _ u => (unlockShared_orderly u).bind (fun _ _ => trivial))

theorem exclusively_patient (below : held.Below list.rank) {step : Task W α}
    (body : ∀ s, Orderly (protocol W) (locks W) w step s)
    : Patient (protocol W) (locks W) w (Holds w held done) (exclusively w list step) := by
  intro s coherent holds
  refine (lock_patient below s coherent holds).bind (fun _ t => (body t).bind (fun _ u => ?_))
  exact (unlock_orderly u).bind (fun _ _ => trivial)

-----------------------------------------------------------------------------------------
-- Requests
-----------------------------------------------------------------------------------------

theorem proceed_patient {pre : Shared W → Prop} (result : Except Stop α)
    : Patient (protocol W) (locks W) w pre (proceed result) := by
  cases result with
  | error e => exact Patient.fail _
  | ok a => exact Patient.ret a

theorem countInterpreters_patient (below : held.Below 2) (name : List Language.Byte)
    : Patient (protocol W) (locks W) w (Holds w held done) (countInterpreters w name) := by
  intro s coherent holds
  refine (lockShared_patient below s coherent holds).bind (fun _ t => ?_)
  have counts : Quiet (locks W) (fun s : Shared W =>
      (.ok (s.interpreters.count name, s) : Except Failure (Nat × Shared W))) :=
    quiet_of_same (fun s a t ran => by cases ran; exact ⟨rfl, rfl⟩)
  exact (counts.orderly t).bind (fun _ u => (unlockShared_orderly u).bind (fun _ _ => trivial))

theorem initializeInterpreterTask_patient {dialect : List Language.Byte} (below : held.Below 2)
    (opens : Opens held (.interpreter (text dialect)))
    : Patient (protocol W) (locks W) w (Holds w held done) (initializeInterpreterTask w dialect) := by
  refine (countInterpreters_patient below (text dialect)).bind (countInterpreters_triple opens)
    (fun count => ?_)
  by_cases zero : count = 0
  · simp only [zero, ↓reduceIte]
    refine Patient.strengthen ?_ (fun s _ now => now.1)
    refine (proceed_patient _).bind (proceed_triple Holds.stable) (fun interpreter => ?_)
    refine Patient.of_pure (fun _ => ?_)
    refine (allocate_patient interpreter).bind (allocate_triple interpreter)
      (fun object => Patient.of_pure (fun _ => ?_))
    exact exclusively_patient below (insertInterpreter_orderly _ object)
  · simp only [zero, ↓reduceIte]
    exact Patient.ret ()

theorem compileProgramTask_patient {source : Source} (below : held.Below 2)
    (opens : ∀ name, Opens held (.interpreter name)) (unwritten : .interpreters ∉ held.exclusive)
    : Patient (protocol W) (locks W) w (Holds w held done) (compileProgramTask w source) :=
  (initializeInterpreterTask_patient below (opens _)).bind
    (initializeInterpreterTask_triple (opens _) unwritten)
    (fun _ => editItem_patient (opens _) below (fun s _ _ => parse_orderly source s))

/-- The function on a system compiles a text first. -/
theorem compiled_patient {source : Source} {systemId : UInt64} {rest : Program → Task W α}
    (body : ∀ program, Patient (protocol W) (locks W) w (Holds w (Holding.system systemId) done)
      (rest program))
    : Patient (protocol W) (locks W) w (Holds w Holding.none done)
        (editItem w (.system systemId) (compileProgramTask w source >>= rest)) := by
  have below : (Holding.system systemId).Below 2 := below_system systemId (by decide)
  refine (editItem_patient (opens_system systemId) (below_none _) ?_).strengthen
    (fun s _ holds => ⟨holds, ?_⟩)
  · refine (compileProgramTask_patient below (opens_interpreter systemId) List.not_mem_nil).bind
      (compileProgramTask_triple (opens_interpreter systemId) List.not_mem_nil) (fun program => ?_)
    exact Patient.of_pure (fun _ => body program)
  · rintro ⟨name, same⟩
    cases same

theorem stored_patient {systemId stateId : UInt64} {step : Task W α}
    (body : ∀ s, Orderly (protocol W) (locks W) w step s)
    : Patient (protocol W) (locks W) w (Holds w (Holding.system systemId) done)
        (editItem w (.state systemId stateId) step) := by
  have below : (Holding.system systemId).Below 4 := below_system systemId (by decide)
  refine (editItem_patient (opens_state systemId stateId) below (fun s _ _ => body s)).strengthen
    (fun s _ holds => ⟨holds, ?_⟩)
  rintro ⟨name, same⟩
  cases same

/-- Every request takes its locks in the order. -/
theorem task_patient (w : W) (done : List (Call × Answer)) (call : Call)
    : Patient (protocol W) (locks W) w (Holds w Holding.none done) (task w call call.1) := by
  obtain ⟨request, world⟩ := call
  have states (systemId : UInt64) : (Holding.system systemId).Below 4 :=
    below_system systemId (by decide)
  cases request with
  | createSystem stateType => exact exclusively_patient (below_none _) onSystems_orderly
  | deleteSystem systemId => exact exclusively_patient (below_none _) onSystems_orderly
  | createState systemId source =>
      refine compiled_patient (fun program => ?_)
      refine (proceed_patient _).bind (proceed_triple Holds.stable) (fun encoded => ?_)
      exact Patient.of_pure (fun _ => exclusively_patient (states systemId) onItem_orderly)
  | modifyState systemId stateId source =>
      exact compiled_patient (fun program => stored_patient onStored_orderly)
  | measureState systemId stateId source =>
      exact compiled_patient (fun program => stored_patient onStored_orderly)
  | deleteState systemId stateId =>
      refine (editItem_patient (opens_system systemId) (below_none _)
        (exclusively_patient (states systemId) onItem_orderly)).strengthen
          (fun s _ holds => ⟨holds, ?_⟩)
      rintro ⟨name, same⟩
      cases same
  | computeResult systemId source =>
      exact compiled_patient (fun program s _ _ => onItem_orderly s)

-----------------------------------------------------------------------------------------
-- Steps
-----------------------------------------------------------------------------------------

theorem editItem_bounded {count : Nat} {function : Task W α} (body : function.Bounded count)
    : (editItem w item function).Bounded (5 + count) := by
  have whole : (editItem w item function).Bounded (1 + (1 + (1 + (count + (1 + (1 + 0)))))) :=
    Code.bounded_atomically.bind fun _ => Code.bounded_atomically.bind fun _ =>
      Code.bounded_atomically.bind fun _ => body.bind fun _ =>
        Code.bounded_atomically.bind fun _ => Code.bounded_atomically.bind fun a =>
          Code.bounded_ret _
  exact whole.mono (by omega)

omit [DecidableEq W] in
theorem exclusively_bounded {step : Task W α} (body : step.Bounded 1)
    : (exclusively w list step).Bounded 3 := by
  have whole : (exclusively w list step).Bounded (1 + (1 + (1 + 0))) :=
    Code.bounded_atomically.bind fun _ => body.bind fun _ =>
      Code.bounded_atomically.bind fun _ => Code.bounded_ret _
  exact whole

omit [DecidableEq W] in
theorem proceed_bounded (result : Except Stop α) : (proceed result : Task W α).Bounded 0 := by
  cases result <;> trivial

theorem compileProgramTask_bounded (source : Source)
    : (compileProgramTask w source : Task W Program).Bounded 13 := by
  have counts (name : List Language.Byte)
      : (countInterpreters w name).Bounded (1 + (1 + (1 + 0))) :=
    Code.bounded_atomically.bind fun _ => Code.bounded_atomically.bind fun _ =>
      Code.bounded_atomically.bind fun _ => Code.bounded_ret _
  have initializes : (initializeInterpreterTask w source.dialect).Bounded (3 + 4) := by
    refine (counts _).bind fun count => ?_
    by_cases zero : count = 0
    · simp only [zero, ↓reduceIte]
      exact (proceed_bounded _).bind fun _ => Code.bounded_atomically.bind fun _ =>
        exclusively_bounded Code.bounded_atomically
    · simp only [zero, ↓reduceIte]
      exact (Code.bounded_ret ()).mono (by omega)
  exact initializes.bind fun _ => editItem_bounded Code.bounded_atomically

/-- No request takes more steps than modifying or measuring a state by the first worker that needs
its dialect.
-/
theorem task_bounded (w : W) (call : Call) : (task w call call.1).Bounded 24 := by
  have compiled {systemId : UInt64} {source : Source} {rest : Program → Task W Answer}
      (body : ∀ program, (rest program).Bounded 6)
      : (editItem w (.system systemId) (compileProgramTask w source >>= rest)).Bounded 24 :=
    editItem_bounded ((compileProgramTask_bounded source).bind body)
  obtain ⟨request, world⟩ := call
  cases request with
  | createSystem stateType => exact (exclusively_bounded Code.bounded_atomically).mono (by omega)
  | deleteSystem systemId => exact (exclusively_bounded Code.bounded_atomically).mono (by omega)
  | createState systemId source =>
      refine compiled fun program => ?_
      show Code.Bounded (0 + 6) _
      exact (proceed_bounded _).bind fun _ =>
        (exclusively_bounded Code.bounded_atomically).mono (by omega)
  | modifyState systemId stateId source =>
      exact compiled fun program => editItem_bounded Code.bounded_atomically
  | measureState systemId stateId source =>
      exact compiled fun program => editItem_bounded Code.bounded_atomically
  | deleteState systemId stateId =>
      have deletes : (task w (.deleteState systemId stateId, world)
          (.deleteState systemId stateId)).Bounded (5 + 3) :=
        editItem_bounded (exclusively_bounded Code.bounded_atomically)
      exact deletes.mono (by omega)
  | computeResult systemId source =>
      exact compiled fun program => Code.bounded_atomically.mono (by omega)

-----------------------------------------------------------------------------------------
-- Runs
-----------------------------------------------------------------------------------------

/-- Which worker may go on next is up to the locks, but one that passes nobody may: a
`boost::shared_mutex` keeps a reader from passing a writer that waits, and another lock may not.
-/
def Lets (may : WorkerPool W → W → Prop) : Prop :=
  ∀ pool w, ¬Pool.Passes (locks W) pool w → may pool w

namespace WorkerPool

/-- A run of the workers. -/
abbrev Moves (may : WorkerPool W → W → Prop) (moves : List (W × Pool.Move))
    (pool final : WorkerPool W)
    : Prop :=
  Pool.Moves (fun w call => task w call call.1) may moves pool final

omit [DecidableEq W] in
/-- All requests are completed, or one of them has stopped with an error. -/
def Settled (pool : WorkerPool W) : Prop :=
  (∀ w, pool.worker w = none) ∨ ∃ w call e, pool.worker w = some (call, .fail e)

end WorkerPool

/-- No deadlock, whatever the locks choose: in a pool that is reached, all requests are completed or
one has stopped, or some worker may go on.
-/
theorem settled_or_proceeds {may : WorkerPool W → W → Prop} (lets : Lets may) {pool : WorkerPool W}
    (reaches : (WorkerPool.start W).Reaches pool)
    : pool.Settled ∨ ∃ w next, Pool.Proceeds w pool next ∧ may pool w := by
  have sound := (sound_reaches sound_start reaches).1
  have orderly : AllOrderly (protocol W) (locks W) pool :=
    AllOrderly.reaches task_patient (fun _ _ => Holds.stable) task_triple
      (fun w request rest runs => by cases runs) sound_start reaches
  by_cases idle : ∀ w, pool.worker w = none
  · exact Or.inl (Or.inl idle)
  by_cases failed : ∃ w call e, pool.worker w = some (call, .fail e)
  · exact Or.inl (Or.inr failed)
  obtain ⟨w, busy⟩ := not_forall.mp idle
  obtain ⟨v, next, proceeds, passes⟩ := orderly.proceeds sound (fun w done s lock holds own =>
      absurd ((below_none 0).rank_lt holds own) (Nat.not_lt_zero _))
    (fun w call e runs => failed ⟨w, call, e, runs⟩) busy
  exact Or.inr ⟨v, next, proceeds, lets pool v passes⟩

/-- All requests are completed, in every interleaving and whatever the locks choose, unless one of
them stops. A request takes no more than 25 moves of its worker, however often the others move and
whatever they begin, and all requests in progress together no more than that for each. As long as one
of them is not completed and none has stopped, some worker may go on. So some run completes them.
-/
theorem requests_complete [Fintype W] {may : WorkerPool W → W → Prop} (lets : Lets may)
    {pool : WorkerPool W} (reaches : (WorkerPool.start W).Reaches pool)
    : (∀ moves final, WorkerPool.Moves may moves pool final →
        (∀ w, (w, .begin) ∉ moves
          → moves.count (w, .proceed) ≤ if (pool.worker w).isSome then 25 else 0)
        ∧ ((∀ w, (w, .begin) ∉ moves)
          → moves.length ≤ 25 * {w | (pool.worker w).isSome}.ncard)
        ∧ (final.Settled ∨ ∃ w next, Pool.Proceeds w final next ∧ may final w))
      ∧ ∃ moves final, WorkerPool.Moves may moves pool final ∧ (∀ w, (w, .begin) ∉ moves)
        ∧ final.Settled := by
  have affordable : pool.Affordable 24 :=
    Pool.Affordable.reaches task_bounded (fun w request rest runs => by cases runs) reaches
  have goes {moves : List (W × Pool.Move)} {final : WorkerPool W}
      (run : WorkerPool.Moves may moves pool final)
      : final.Settled ∨ ∃ w next, Pool.Proceeds w final next ∧ may final w :=
    settled_or_proceeds lets (reaches.trans run.reaches)
  refine ⟨fun moves final run => ⟨fun w same => run.count_le same (affordable w),
    fun taken => run.length_le taken affordable, goes run⟩, ?_⟩
  obtain ⟨moves, final, run, taken, last⟩ :=
    Pool.exists_last (fun moves final run taken => run.length_le taken affordable)
  refine ⟨moves, final, run, taken, (goes run).resolve_right ?_⟩
  rintro ⟨w, next, proceeds, allowed⟩
  exact last w next proceeds allowed

/-- Three workers, the locks of which let no reader pass a waiting writer. One has the flag of a
system, one waits for this flag, and one waits to lock the list of systems.
-/
theorem requests_complete_three
    : ∃ pool : WorkerPool (Fin 3), (WorkerPool.start (Fin 3)).Reaches pool
        ∧ (∀ next, ¬Pool.Proceeds 1 pool next) ∧ (∀ next, ¬Pool.Proceeds 2 pool next)
        ∧ ∃ moves final,
          WorkerPool.Moves (fun pool w => ¬Pool.Passes (locks (Fin 3)) pool w) moves pool final
          ∧ (∀ w, moves.count (w, .proceed) ≤ 25) ∧ final.Settled := by
  have reached : ∃ pool : WorkerPool (Fin 3), (WorkerPool.start (Fin 3)).Reaches pool
      ∧ (∀ next, ¬Pool.Proceeds 1 pool next) ∧ (∀ next, ¬Pool.Proceeds 2 pool next) := by
    refine ⟨_,
      .head (.begin (w := 0) rfl createCall) <| .head (.returns (w := 0) rfl ⟨rfl, rfl⟩ rfl) <|
      .head (.returns (w := 0) rfl trivial rfl) <| .head (.returns (w := 0) rfl trivial rfl) <|
      .head (.finish (w := 0) rfl) <|
      .head (.begin (w := 0) rfl (encodeCall 0)) <| .head (.returns (w := 0) rfl rfl rfl) <|
      .head (.returns (w := 0) rfl trivial rfl) <| .head (.returns (w := 0) rfl rfl rfl) <|
      .head (.begin (w := 2) rfl (encodeCall 0)) <| .head (.returns (w := 2) rfl rfl rfl) <|
      .head (.returns (w := 2) rfl trivial rfl) <|
      .single (.begin (w := 1) rfl createCall), fun next proceeds => ?_, fun next proceeds => ?_⟩
    · cases proceeds with
      | step runs ready =>
          cases runs
          exact absurd ready.2 (by decide)
      | finish runs => cases runs
    · cases proceeds with
      | step runs ready =>
          cases runs
          exact absurd ready (by decide)
      | finish runs => cases runs
  obtain ⟨pool, reaches, writer, reader⟩ := reached
  have lets : Lets (fun pool w => ¬Pool.Passes (locks (Fin 3)) pool w) := fun _ _ passes => passes
  obtain ⟨runs, moves, final, run, taken, settled⟩ := requests_complete lets reaches
  refine ⟨pool, reaches, writer, reader, moves, final, run, fun w => ?_, settled⟩
  refine ((runs moves final run).1 w (taken w)).trans ?_
  split <;> simp

end Sabot.Universe
