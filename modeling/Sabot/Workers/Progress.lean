import Sabot.Workers.Pool

/-! Progress of a pool of workers. Workers that take resources in the order of their ranks do not
wait for each other in a circle, and code that takes a bounded number of steps comes to its end.
-/

namespace Workers

variable {W σ ε ρ α β R : Type}

-----------------------------------------------------------------------------------------
-- Waiting
-----------------------------------------------------------------------------------------

/-- What workers can hold in a state, for themselves or shared with others, with ranks below a bound.
-/
structure Resources (W σ R : Type) where
  holds : W → R → σ → Prop
  owns : W → R → σ → Prop
  rank : R → Nat
  bound : Nat
  rank_lt : ∀ r, rank r < bound

variable (P : Protocol W σ) (Q : Resources W σ R) (w : W)

/-- The worker waits for a resource that another worker holds, and that ranks above everything it
holds itself.
-/
def Waits (s : σ) : Prop :=
  ∃ r v, v ≠ w ∧ Q.holds v r s ∧ ∀ own, Q.holds w own s → Q.rank own < Q.rank r

/-- The step makes the worker hold the resource. -/
def Takes (effect : σ → σ) (r : R) (s : σ) : Prop := ¬Q.holds w r s ∧ Q.holds w r (effect s)

/-- The step makes the worker hold the resource for itself. -/
def Claims (effect : σ → σ) (r : R) (s : σ) : Prop := ¬Q.owns w r s ∧ Q.owns w r (effect s)

/-- The step takes resources in the order of their ranks. Only for one that another worker holds it
may have to wait.
-/
structure Ranked (enabled : σ → Prop) (effect : σ → σ) (s : σ) : Prop where
  able : enabled s ∨ Waits Q w s
  claims : ∀ r, Claims Q w effect r s → enabled s ∨ ∃ v, v ≠ w ∧ Q.holds v r s
  above : ∀ r, Takes Q w effect r s → ∀ own, Q.holds w own s → Q.rank own < Q.rank r

/-- Run by the worker from `s` on, whatever the others do in between, the code takes resources in
the order of their ranks.
-/
def Orderly : Code σ ε α → σ → Prop
  | .ret _, _ => True
  | .fail _, _ => True
  | .atomic enabled effect next, s =>
      ∀ t, P.invariant t → P.keeps w s t
        → Ranked Q w enabled effect t ∧ (enabled t → Orderly (next t) (effect t))

/-- The code is orderly wherever the precondition holds. -/
def Patient (pre : σ → Prop) (code : Code σ ε α) : Prop :=
  ∀ s, P.invariant s → pre s → Orderly P Q w code s

variable {P Q w} {excused : ε → Prop} {pre : σ → Prop} {post : α → σ → Prop} {code : Code σ ε α}

theorem Orderly.stable {s t : σ} (orderly : Orderly P Q w code s) (keeps : P.keeps w s t)
    : Orderly P Q w code t := by
  cases code with
  | ret a => trivial
  | fail e => trivial
  | atomic enabled effect next =>
      exact fun u invariant later => orderly u invariant (P.keeps_trans w s t u keeps later)

/-- What is orderly from every state on may follow. -/
theorem Orderly.bind {f : α → Code σ ε β} {s : σ} (orderly : Orderly P Q w code s)
    (rest : ∀ a t, Orderly P Q w (f a) t)
    : Orderly P Q w (code >>= f) s := by
  induction code generalizing s with
  | ret a => exact rest a s
  | fail e => trivial
  | atomic enabled effect next ih =>
      intro t invariant keeps
      obtain ⟨ranked, after⟩ := orderly t invariant keeps
      exact ⟨ranked, fun ready => ih t (after ready)⟩

namespace Patient

theorem ret (a : α) : Patient P Q w pre (pure a : Code σ ε α) := fun _ _ _ => trivial

theorem fail (e : ε) : Patient P Q w pre (.fail e : Code σ ε α) := fun _ _ _ => trivial

/-- Safe code leads to where the rest is patient. -/
theorem bind {f : α → Code σ ε β} (first : Patient P Q w pre code)
    (triple : Triple P w excused pre code post) (rest : ∀ a, Patient P Q w (post a) (f a))
    : Patient P Q w pre (code >>= f) := by
  intro s invariant holds
  have orderly := first s invariant holds
  have safe := triple s invariant holds
  clear holds first triple
  induction code generalizing s with
  | ret a => exact rest a s invariant (safe s invariant (P.keeps_refl w s))
  | fail e => trivial
  | atomic enabled effect next ih =>
      intro t invariantT keeps
      obtain ⟨ranked, after⟩ := orderly t invariantT keeps
      refine ⟨ranked, fun ready => ?_⟩
      obtain ⟨allows, later⟩ := safe t invariantT keeps ready
      exact ih t _ allows.invariant (after ready) later

theorem strengthen {weaker : σ → Prop} (patient : Patient P Q w weaker code)
    (implies : ∀ s, P.invariant s → pre s → weaker s)
    : Patient P Q w pre code :=
  fun s invariant holds => patient s invariant (implies s invariant holds)

theorem of_pure {fact : Prop} (patient : fact → Patient P Q w pre code)
    : Patient P Q w (fun s => fact ∧ pre s) code :=
  fun s invariant holds => patient holds.1 s invariant holds.2

/-- One step that takes resources in their order. -/
theorem atomically {enabled : σ → Prop} {body : σ → Except ε (α × σ)} (stable : Stable P w pre)
    (ranked : ∀ s, P.invariant s → pre s → Ranked Q w enabled (effectOf body) s)
    : Patient P Q w pre (atomically enabled body) := by
  intro s _ holds t invariant keeps
  refine ⟨ranked t invariant (stable s t invariant keeps holds), fun _ => ?_⟩
  cases ran : body t <;> simp only [ran] <;> trivial

end Patient

/-- No worker holds more after the step than before. -/
def Quiet (Q : Resources W σ R) (body : σ → Except ε (α × σ)) : Prop :=
  ∀ s a t, body s = .ok (a, t) → ∀ w r, Q.holds w r t → Q.holds w r s

/-- One step that is always enabled and takes nothing. -/
theorem Quiet.orderly {body : σ → Except ε (α × σ)} (quiet : Quiet Q body) (s : σ)
    : Orderly P Q w (atomically (fun _ => True) body) s := by
  intro t _ _
  refine ⟨⟨Or.inl trivial, fun _ _ => Or.inl trivial, fun r takes => ?_⟩, fun _ => ?_⟩
  · obtain ⟨free, taken⟩ := takes
    cases ran : body t with
    | ok result =>
        simp only [effectOf, ran] at taken
        exact absurd (quiet t result.1 result.2 ran w r taken) free
    | error e =>
        simp only [effectOf, ran] at taken
        exact absurd taken free
  · cases ran : body t <;> simp only [ran] <;> trivial

-----------------------------------------------------------------------------------------
-- Pools
-----------------------------------------------------------------------------------------

section Pools

variable [DecidableEq W] {idle : W → List (ρ × α) → σ → Prop} {code : W → ρ → Code σ ε α}
  {pool next final : Pool W σ ε ρ α}

/-- The code that is left of every request is orderly. -/
def AllOrderly (P : Protocol W σ) (Q : Resources W σ R) (pool : Pool W σ ε ρ α) : Prop :=
  ∀ w request rest, pool.worker w = some (request, rest) → Orderly P Q w rest pool.shared

namespace Pool

/-- The worker goes on with the request that it has. -/
inductive Proceeds (w : W) : Pool W σ ε ρ α → Pool W σ ε ρ α → Prop where
  | step {pool : Pool W σ ε ρ α} {request enabled effect next}
      (runs : pool.worker w = some (request, .atomic enabled effect next))
      (ready : enabled pool.shared)
      : Proceeds w pool {
          pool with
          shared := effect pool.shared
          worker := Function.update pool.worker w (some (request, next pool.shared)) }
  | finish {pool : Pool W σ ε ρ α} {request a} (runs : pool.worker w = some (request, .ret a))
      : Proceeds w pool {
          pool with
          worker := Function.update pool.worker w none
          completed := pool.completed ++ [(w, request, a)] }

theorem Proceeds.toStep {w : W} (proceeds : Proceeds w pool next) : Step code pool next := by
  cases proceeds with
  | step runs ready => exact .step runs ready
  | finish runs => exact .finish runs

/-- The next step of the worker, whether it is enabled or not, has the effect. -/
def Pending (pool : Pool W σ ε ρ α) (w : W) (effect : σ → σ) : Prop :=
  ∃ request enabled next, pool.worker w = some (request, .atomic enabled effect next)

/-- The next step of the worker takes a resource, to share it, that another worker is about to claim
for itself.
-/
def Passes (Q : Resources W σ R) (pool : Pool W σ ε ρ α) (w : W) : Prop :=
  ∃ effect, pool.Pending w effect ∧ (∀ r, ¬Claims Q w effect r pool.shared)
    ∧ ∃ r v other, v ≠ w ∧ Takes Q w effect r pool.shared
      ∧ pool.Pending v other ∧ Claims Q v other r pool.shared

end Pool

section Steps

variable (patient : ∀ w done request, Patient P Q w (idle w done) (code w request))
include patient

/-- A step of one worker leaves all of them orderly. -/
theorem AllOrderly.step (all : AllOrderly P Q pool) (sound : Sound P excused idle pool)
    (step : Pool.Step code pool next)
    : AllOrderly P Q next := by
  cases step with
  | @begin w free request =>
      intro v taken rest runs
      by_cases same : v = w
      · subst same
        simp only [Function.update_self, Option.some.injEq, Prod.mk.injEq] at runs
        obtain ⟨rfl, rfl⟩ := runs
        have ready := sound.workers v
        rw [free] at ready
        exact patient v _ request _ sound.invariant ready
      · simp only [Function.update_of_ne same] at runs
        exact all v taken rest runs
  | @step w request enabled effect after runsW ready =>
      have orderly := all w _ _ runsW
      have safe := sound.workers w
      rw [runsW] at safe
      obtain ⟨allows, _⟩ := safe pool.shared sound.invariant (P.keeps_refl w _) ready
      intro v taken rest runs
      by_cases same : v = w
      · subst same
        simp only [Function.update_self, Option.some.injEq, Prod.mk.injEq] at runs
        obtain ⟨rfl, rfl⟩ := runs
        exact (orderly pool.shared sound.invariant (P.keeps_refl v _)).2 ready
      · simp only [Function.update_of_ne same] at runs
        exact (all v taken rest runs).stable (allows.others v same)
  | @finish w request a runsW =>
      intro v taken rest runs
      by_cases same : v = w
      · subst same
        simp at runs
      · simp only [Function.update_of_ne same] at runs
        exact all v taken rest runs

theorem AllOrderly.reaches (stable : ∀ w done, Stable P w (idle w done))
    (correct : ∀ w done request,
      Triple P w excused (idle w done) (code w request) (fun a => idle w (done ++ [(request, a)])))
    (all : AllOrderly P Q pool) (sound : Sound P excused idle pool)
    (reaches : Pool.Reaches code pool next)
    : AllOrderly P Q next := by
  induction reaches with
  | refl => exact all
  | tail before step ih => exact ih.step patient (sound.reaches stable correct before).1 step

end Steps

/-- What the worker is about to claim, it can claim, or another worker holds it. -/
theorem AllOrderly.claims (all : AllOrderly P Q pool) (sound : Sound P excused idle pool) {v : W}
    {effect : σ → σ} (pending : pool.Pending v effect) {r : R}
    (claims : Claims Q v effect r pool.shared)
    : (∃ next, Pool.Proceeds v pool next ∧ ¬pool.Passes Q v)
      ∨ ∃ u, u ≠ v ∧ Q.holds u r pool.shared := by
  obtain ⟨request, enabled, next, runs⟩ := pending
  obtain ⟨ranked, _⟩ := all v request _ runs pool.shared sound.invariant (P.keeps_refl v _)
  refine (ranked.claims r claims).imp (fun ready => ⟨_, .step runs ready, ?_⟩) id
  rintro ⟨other, ⟨_, _, _, runsOther⟩, nothing, _⟩
  cases runs.symm.trans runsOther
  exact nothing r claims

/-- A worker with a request can go on and passes nobody, or it waits, unless some other worker can
go on and passes nobody. One that would pass another worker waits for the resource that the other
one is waiting for.
-/
theorem AllOrderly.proceeds_or_waits (all : AllOrderly P Q pool) (sound : Sound P excused idle pool)
    (running : ∀ w request e, pool.worker w ≠ some (request, .fail e)) {w : W}
    (busy : pool.worker w ≠ none)
    : (∃ v next, Pool.Proceeds v pool next ∧ ¬pool.Passes Q v) ∨ Waits Q w pool.shared := by
  obtain ⟨⟨request, rest⟩, runs⟩ := Option.ne_none_iff_exists'.mp busy
  cases rest with
  | ret a =>
      refine Or.inl ⟨w, _, .finish runs, ?_⟩
      rintro ⟨_, ⟨_, _, _, runsOther⟩, _⟩
      cases runs.symm.trans runsOther
  | fail e => exact absurd runs (running w request e)
  | atomic enabled effect next =>
      obtain ⟨ranked, _⟩ := all w request _ runs pool.shared sound.invariant (P.keeps_refl w _)
      rcases ranked.able with ready | waits
      · by_cases passes : pool.Passes Q w
        · obtain ⟨_, ⟨_, _, _, runsOther⟩, _, r, v, other, _, takes, pending, claims⟩ := passes
          cases runs.symm.trans runsOther
          rcases all.claims sound pending claims with proceeds | ⟨u, _, holds⟩
          · exact Or.inl ⟨v, proceeds⟩
          · refine Or.inr ⟨r, u, ?_, holds, ranked.above r takes⟩
            rintro rfl
            exact takes.1 holds
        · exact Or.inl ⟨w, _, .step runs ready, passes⟩
      · exact Or.inr waits

/-- No deadlock: while a worker has a request and none has failed, one of them can go on without
passing another one. A worker that cannot waits for another one, which waits for a third one with a
resource of a higher rank, and so on up to the bound of the ranks.
-/
theorem AllOrderly.proceeds (all : AllOrderly P Q pool) (sound : Sound P excused idle pool)
    (empty : ∀ w done s r, idle w done s → ¬Q.holds w r s)
    (running : ∀ w request e, pool.worker w ≠ some (request, .fail e)) {w : W}
    (busy : pool.worker w ≠ none)
    : ∃ v next, Pool.Proceeds v pool next ∧ ¬pool.Passes Q v := by
  by_contra stuck
  have waits (v : W) (busy : pool.worker v ≠ none) : Waits Q v pool.shared :=
    (all.proceeds_or_waits sound running busy).resolve_left stuck
  have climbs (rank : Nat) : ∃ v r, Q.holds v r pool.shared ∧ rank ≤ Q.rank r := by
    induction rank with
    | zero =>
        obtain ⟨r, v, _, holds, _⟩ := waits w busy
        exact ⟨v, r, holds, Nat.zero_le _⟩
    | succ rank ih =>
        obtain ⟨v, r, holds, high⟩ := ih
        have busyV : pool.worker v ≠ none := by
          intro free
          have resting := sound.workers v
          rw [free] at resting
          exact empty v _ _ r resting holds
        obtain ⟨r', v', _, holds', above⟩ := waits v busyV
        exact ⟨v', r', holds', lt_of_le_of_lt high (above r holds)⟩
  obtain ⟨_, r, _, high⟩ := climbs Q.bound
  exact absurd (Q.rank_lt r) (not_lt.mpr high)

end Pools

-----------------------------------------------------------------------------------------
-- Bounds
-----------------------------------------------------------------------------------------

namespace Code

/-- The code takes no more than so many steps. -/
def Bounded : Nat → Code σ ε α → Prop
  | _, .ret _ => True
  | _, .fail _ => True
  | 0, .atomic _ _ _ => False
  | count + 1, .atomic _ _ next => ∀ s, Bounded count (next s)

theorem bounded_ret (a : α) : Bounded 0 (pure a : Code σ ε α) := trivial

theorem bounded_atomically {enabled : σ → Prop} {body : σ → Except ε (α × σ)}
    : Bounded 1 (atomically enabled body) := by
  intro s
  cases ran : body s <;> simp only [ran] <;> trivial

theorem Bounded.mono {count more : Nat} (bounded : code.Bounded count) (le : count ≤ more)
    : code.Bounded more := by
  induction code generalizing count more with
  | ret a => cases more <;> trivial
  | fail e => cases more <;> trivial
  | atomic enabled effect next ih =>
      cases count with
      | zero => exact bounded.elim
      | succ count =>
          cases more with
          | zero => omega
          | succ more => exact fun s => ih s (bounded s) (Nat.le_of_succ_le_succ le)

/-- Parts that follow each other add up. -/
theorem Bounded.bind {f : α → Code σ ε β} {count more : Nat} (first : code.Bounded count)
    (rest : ∀ a, (f a).Bounded more)
    : (code >>= f).Bounded (count + more) := by
  induction code generalizing count with
  | ret a => exact (rest a).mono (Nat.le_add_left _ _)
  | fail e => cases count + more <;> trivial
  | atomic enabled effect next ih =>
      cases count with
      | zero => exact first.elim
      | succ count =>
          rw [Nat.succ_add]
          exact fun s => ih s (first s)

end Code

namespace Pool

variable [DecidableEq W] {code : W → ρ → Code σ ε α} {may : Pool W σ ε ρ α → W → Prop}
  {pool next final : Pool W σ ε ρ α}

/-- The request of every worker takes no more steps than so many. -/
def Affordable (pool : Pool W σ ε ρ α) (count : Nat) : Prop :=
  ∀ w request rest, pool.worker w = some (request, rest) → rest.Bounded count

/-- What a request takes at most is enough at any time. -/
theorem Affordable.reaches {count : Nat} (each : ∀ w request, (code w request).Bounded count)
    (affordable : pool.Affordable count) (reaches : Pool.Reaches code pool next)
    : next.Affordable count := by
  induction reaches with
  | refl => exact affordable
  | tail _ step ih =>
      intro v wanted rest runsV
      cases step with
      | @begin w free request =>
          by_cases same : v = w
          · subst same
            simp only [Function.update_self, Option.some.injEq, Prod.mk.injEq] at runsV
            obtain ⟨rfl, rfl⟩ := runsV
            exact each v request
          · simp only [Function.update_of_ne same] at runsV
            exact ih v wanted rest runsV
      | @step w request enabled effect after runs ready =>
          by_cases same : v = w
          · subst same
            simp only [Function.update_self, Option.some.injEq, Prod.mk.injEq] at runsV
            obtain ⟨_, rfl⟩ := runsV
            have bounded := ih v _ _ runs
            cases count with
            | zero => exact bounded.elim
            | succ count => exact (bounded _).mono (Nat.le_succ count)
          · simp only [Function.update_of_ne same] at runsV
            exact ih v wanted rest runsV
      | @finish w request a runs =>
          by_cases same : v = w
          · subst same
            simp at runsV
          · simp only [Function.update_of_ne same] at runsV
            exact ih v wanted rest runsV

/-- What a worker does: it takes a request, or it goes on with the one that it has. -/
inductive Move where
  | begin
  | proceed
deriving DecidableEq

/-- The moves of a run, in which workers go on where they may. -/
inductive Moves (code : W → ρ → Code σ ε α) (may : Pool W σ ε ρ α → W → Prop)
    : List (W × Move) → Pool W σ ε ρ α → Pool W σ ε ρ α → Prop where
  | refl (pool : Pool W σ ε ρ α) : Moves code may [] pool pool
  | begin {pool last : Pool W σ ε ρ α} {w moves} (idle : pool.worker w = none) (request : ρ)
      (rest : Moves code may moves {
        pool with worker := Function.update pool.worker w (some (request, code w request)) } last)
      : Moves code may ((w, .begin) :: moves) pool last
  | proceed {first second last : Pool W σ ε ρ α} {w moves} (proceeds : Proceeds w first second)
      (allowed : may first w) (rest : Moves code may moves second last)
      : Moves code may ((w, .proceed) :: moves) first last

theorem Moves.reaches {moves : List (W × Move)} (run : Moves code may moves pool final)
    : Pool.Reaches code pool final := by
  induction run with
  | refl pool => exact .refl
  | begin idle request _ ih => exact .head (.begin idle request) ih
  | proceed proceeds _ _ ih => exact .head proceeds.toStep ih

theorem Moves.trans {moves more : List (W × Move)} (run : Moves code may moves pool next)
    (rest : Moves code may more next final)
    : Moves code may (moves ++ more) pool final := by
  induction run with
  | refl pool => exact rest
  | begin idle request _ ih => exact .begin idle request (ih rest)
  | proceed proceeds allowed _ ih => exact .proceed proceeds allowed (ih rest)

/-- However often the others move, a worker that takes no other request goes on no more often than
its request takes steps, and once more to complete it.
-/
theorem Moves.count_le {moves : List (W × Move)} (run : Moves code may moves pool final) {w : W}
    (same : (w, .begin) ∉ moves) {count : Nat}
    (bounded : ∀ request rest, pool.worker w = some (request, rest) → rest.Bounded count)
    : moves.count (w, .proceed) ≤ if (pool.worker w).isSome then count + 1 else 0 := by
  induction run generalizing count with
  | refl pool => exact Nat.zero_le _
  | @begin pool last v moves idle request rest ih =>
      have other : w ≠ v := by
        rintro rfl
        exact same List.mem_cons_self
      rw [List.count_cons_of_ne (by simp)]
      have later := @ih (fun member => same (List.mem_cons_of_mem _ member)) count
      simp only [Function.update_of_ne other] at later
      exact later bounded
  | @proceed first second last v moves proceeds allowed rest ih =>
      have later := @ih (fun member => same (List.mem_cons_of_mem _ member))
      by_cases own : v = w
      · subst own
        rw [List.count_cons_self]
        cases proceeds with
        | @step request enabled effect next runs ready =>
            have left := bounded _ _ runs
            cases count with
            | zero => exact left.elim
            | succ count =>
                simp only [Function.update_self, Option.some.injEq, Prod.mk.injEq,
                  Option.isSome_some, if_true] at later
                have after := @later count (by rintro _ _ ⟨rfl, rfl⟩; exact left _)
                simp only [runs, Option.isSome_some, if_true]
                omega
        | @finish request a runs =>
            simp only [Function.update_self] at later
            have after := @later 0 (by simp)
            simp only [Option.isSome_none, Bool.false_eq_true, if_false, Nat.le_zero] at after
            simp only [runs, Option.isSome_some, if_true, after]
            omega
      · have apart : w ≠ v := Ne.symm own
        rw [List.count_cons_of_ne (by simp [own])]
        cases proceeds with
        | step runs ready =>
            simp only [Function.update_of_ne apart] at later
            exact later bounded
        | finish runs =>
            simp only [Function.update_of_ne apart] at later
            exact later bounded

/-- If no worker takes a request, the moves of all workers together are those of each. -/
theorem length_eq_sum [Fintype W] {moves : List (W × Move)} (taken : ∀ w, (w, Move.begin) ∉ moves)
    : moves.length = ∑ w : W, moves.count (w, .proceed) := by
  induction moves with
  | nil => simp
  | cons first rest ih =>
      obtain ⟨v, move⟩ := first
      cases move with
      | begin => exact absurd List.mem_cons_self (taken v)
      | proceed =>
          have later := ih (fun w member => taken w (List.mem_cons_of_mem _ member))
          simp only [List.count_cons, Finset.sum_add_distrib, ← later, List.length_cons]
          simp

/-- A run in which no worker takes a request is no longer than the requests in progress allow. -/
theorem Moves.length_le [Fintype W] {moves : List (W × Move)}
    (run : Moves code may moves pool final) (taken : ∀ w, (w, Move.begin) ∉ moves) {count : Nat}
    (affordable : pool.Affordable count)
    : moves.length ≤ (count + 1) * {w | (pool.worker w).isSome}.ncard := by
  classical
  calc moves.length = ∑ w : W, moves.count (w, .proceed) := length_eq_sum taken
    _ ≤ ∑ w : W, if (pool.worker w).isSome then count + 1 else 0 :=
        Finset.sum_le_sum fun w _ => run.count_le (taken w) (affordable w)
    _ = (count + 1) * {w | (pool.worker w).isSome}.ncard := by
        rw [Finset.sum_ite, Finset.sum_const_zero, add_zero, Finset.sum_const, smul_eq_mul, mul_comm,
          Set.ncard_eq_toFinset_card']
        simp

/-- If no run is longer than a bound, some run goes on until no worker may go on any more. By
induction on the length that runs can still have.
-/
theorem exists_last {bound : Nat}
    (short : ∀ moves final, Moves code may moves pool final → (∀ w, (w, .begin) ∉ moves)
      → moves.length ≤ bound)
    : ∃ moves final, Moves code may moves pool final ∧ (∀ w, (w, .begin) ∉ moves)
        ∧ ∀ w next, Proceeds w final next → ¬may final w := by
  have goes (length : Nat)
      : ∃ moves final, Moves code may moves pool final ∧ (∀ w, (w, .begin) ∉ moves)
        ∧ ((∀ w next, Proceeds w final next → ¬may final w) ∨ moves.length = length) := by
    induction length with
    | zero => exact ⟨[], pool, .refl pool, by simp, Or.inr rfl⟩
    | succ length ih =>
        obtain ⟨moves, middle, run, taken, last | long⟩ := ih
        · exact ⟨moves, middle, run, taken, Or.inl last⟩
        · by_cases more : ∀ w next, Proceeds w middle next → ¬may middle w
          · exact ⟨moves, middle, run, taken, Or.inl more⟩
          · push Not at more
            obtain ⟨w, next, proceeds, allowed⟩ := more
            refine ⟨moves ++ [(w, .proceed)], next,
              run.trans (.proceed proceeds allowed (.refl next)), ?_, Or.inr (by simp [long])⟩
            intro v member
            rcases List.mem_append.mp member with early | late
            · exact taken v early
            · simp at late
  obtain ⟨moves, final, run, taken, last | long⟩ := goes (bound + 1)
  · exact ⟨moves, final, run, taken, last⟩
  · exact absurd (short moves final run taken) (by omega)

end Pool

end Workers
