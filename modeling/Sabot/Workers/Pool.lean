import Sabot.Workers.Protocol

/-! Pools of workers that take requests one after the other and run their code in any
interleaving. Code that keeps to a protocol keeps its invariant in every pool that is reached.
-/

namespace Workers

variable {W σ ε ρ α : Type} [DecidableEq W]

/-- The shared state, the request of every worker that has one with the code that is left of it,
and the requests that were completed, with their results.
-/
structure Pool (W σ ε ρ α : Type) where
  shared : σ
  worker : W → Option (ρ × Code σ ε α)
  completed : List (W × ρ × α)

/-- The part of a list of requests that belongs to one worker. -/
def ofWorker (w : W) (requests : List (W × ρ × α)) : List (ρ × α) :=
  requests.filterMap (fun request => if request.1 = w then some request.2 else none)

theorem ofWorker_append (w : W) (requests more : List (W × ρ × α))
    : ofWorker w (requests ++ more) = ofWorker w requests ++ ofWorker w more :=
  List.filterMap_append

@[simp] theorem ofWorker_self (w : W) (request : ρ × α) : ofWorker w [(w, request)] = [request] := by
  simp [ofWorker]

theorem ofWorker_other {w v : W} (ne : v ≠ w) (request : ρ × α)
    : ofWorker w [(v, request)] = [] := by
  simp [ofWorker, ne]

/-- Lists with the same requests of each worker are permutations of each other. -/
theorem perm_of_ofWorker {requests others : List (W × ρ × α)}
    (same : ∀ w, ofWorker w requests = ofWorker w others)
    : requests.Perm others := by
  classical
  rw [List.perm_iff_count]
  have counts (list : List (W × ρ × α)) (request : W × ρ × α)
      : list.count request = (ofWorker request.1 list).count request.2 := by
    induction list with
    | nil => rfl
    | cons head rest ih =>
        obtain ⟨w, now⟩ := head
        obtain ⟨v, wanted⟩ := request
        rw [show (w, now) :: rest = [(w, now)] ++ rest from rfl, List.count_append,
          ofWorker_append, List.count_append, ih]
        by_cases mine : w = v
        · subst mine
          simp [List.count_singleton]
        · simp [ofWorker_other mine, mine]
  intro request
  rw [counts, counts, same]

namespace Pool

variable (code : W → ρ → Code σ ε α)

/-- One worker takes a request, takes an atomic step, or completes its request. Code that has
failed takes no further step.
-/
inductive Step : Pool W σ ε ρ α → Pool W σ ε ρ α → Prop where
  | begin {pool w} (idle : pool.worker w = none) (request : ρ)
      : Step pool {
          pool with worker := Function.update pool.worker w (some (request, code w request)) }
  | step {pool w request enabled effect next}
      (runs : pool.worker w = some (request, .atomic enabled effect next))
      (ready : enabled pool.shared)
      : Step pool {
          pool with
          shared := effect pool.shared
          worker := Function.update pool.worker w (some (request, next pool.shared)) }
  | finish {pool w request a} (runs : pool.worker w = some (request, .ret a))
      : Step pool {
          pool with
          worker := Function.update pool.worker w none
          completed := pool.completed ++ [(w, request, a)] }

variable {code} in
/-- An atomic step whose body returns. -/
theorem Step.returns {pool : Pool W σ ε ρ α} {w : W} {request : ρ} {enabled : σ → Prop} {β : Type}
    {body : σ → Except ε (β × σ)} {next : σ → Code σ ε α} {a : β} {s : σ}
    (runs : pool.worker w = some (request, .atomic enabled (effectOf body) next))
    (ready : enabled pool.shared) (ran : body pool.shared = .ok (a, s))
    : Step code pool {
        pool with
        shared := s
        worker := Function.update pool.worker w (some (request, next pool.shared)) } := by
  have effect : effectOf body pool.shared = s := by simp only [effectOf, ran]
  rw [← effect]
  exact .step runs ready

/-- Any number of steps, of any workers. -/
abbrev Reaches : Pool W σ ε ρ α → Pool W σ ε ρ α → Prop := Relation.ReflTransGen (Step code)

end Pool

section Soundness

variable (P : Protocol W σ) (excused : ε → Prop) (idle : W → List (ρ × α) → σ → Prop)

/-- A worker without a request is idle, and the code that is left of a request is safe and makes
its worker idle.
-/
def AtWork (w : W) (done : List (ρ × α)) (s : σ) : Option (ρ × Code σ ε α) → Prop
  | none => idle w done s
  | some (request, rest) => Safe P w excused (fun a => idle w (done ++ [(request, a)])) rest s

/-- The pool keeps to the protocol. -/
structure Sound (pool : Pool W σ ε ρ α) : Prop where
  invariant : P.invariant pool.shared
  workers
    : ∀ w, AtWork P excused idle w (ofWorker w pool.completed) pool.shared (pool.worker w)

variable {P excused idle} {code : W → ρ → Code σ ε α} {pool next : Pool W σ ε ρ α}
  (stable : ∀ w done, Stable P w (idle w done))
include stable

omit [DecidableEq W] in
theorem AtWork.later {w : W} {done : List (ρ × α)} {s t : σ} {slot : Option (ρ × Code σ ε α)}
    (work : AtWork P excused idle w done s slot) (invariant : P.invariant t)
    (keeps : P.keeps w s t)
    : AtWork P excused idle w done t slot := by
  cases slot with
  | none => exact stable w done s t invariant keeps work
  | some rest => exact Safe.stable work keeps

variable (correct : ∀ w done request,
  Triple P w excused (idle w done) (code w request) (fun a => idle w (done ++ [(request, a)])))
include correct

/-- A step of one worker keeps to the protocol, whatever the others are at. -/
theorem Sound.step (sound : Sound P excused idle pool) (step : Pool.Step code pool next)
    : Sound P excused idle next ∧ P.advances pool.shared next.shared := by
  cases step with
  | @begin w free request =>
      refine ⟨⟨sound.invariant, fun v => ?_⟩, P.advances_refl _⟩
      by_cases same : v = w
      · subst same
        have idle := sound.workers v
        rw [free] at idle
        simp only [Function.update_self]
        exact correct v _ request _ sound.invariant idle
      · simp only [Function.update_of_ne same]
        exact sound.workers v
  | @step w request enabled effect after runs ready =>
      have safe := sound.workers w
      rw [runs] at safe
      obtain ⟨allows, safe⟩ := safe pool.shared sound.invariant (P.keeps_refl w _) ready
      refine ⟨⟨allows.invariant, fun v => ?_⟩, allows.advances⟩
      by_cases same : v = w
      · subst same
        simp only [Function.update_self]
        exact safe
      · simp only [Function.update_of_ne same]
        exact AtWork.later stable (sound.workers v) allows.invariant (allows.others v same)
  | @finish w request a runs =>
      have safe := sound.workers w
      rw [runs] at safe
      refine ⟨⟨sound.invariant, fun v => ?_⟩, P.advances_refl _⟩
      by_cases same : v = w
      · subst same
        simp only [Function.update_self, ofWorker_append, ofWorker_self]
        exact safe pool.shared sound.invariant (P.keeps_refl v _)
      · have others : ofWorker v (pool.completed ++ [(w, request, a)]) = ofWorker v pool.completed := by
          rw [ofWorker_append, ofWorker_other (Ne.symm same), List.append_nil]
        simp only [Function.update_of_ne same, others]
        exact sound.workers v

theorem Sound.reaches (sound : Sound P excused idle pool) (reaches : Pool.Reaches code pool next)
    : Sound P excused idle next ∧ P.advances pool.shared next.shared := by
  induction reaches with
  | refl => exact ⟨sound, P.advances_refl _⟩
  | tail _ step ih =>
      obtain ⟨soundNext, advances⟩ := ih.1.step stable correct step
      exact ⟨soundNext, P.advances_trans _ _ _ ih.2 advances⟩

end Soundness

end Workers
