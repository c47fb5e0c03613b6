import Mathlib.Algebra.BigOperators.Intervals
import Arcana.Tasks.Weight

/-!
# Prices and the account of a step

What is counted in a run of the machine (its steps, the callables that are invoked, the results that
are observed, the payloads that are completed) is counted in advance: everything that a state
consists of is given the price of what it will still do. How much user code and the run of a payload
come to is left to the programs that are considered; the prices of all other parts of a state follow
from it.

* `Tariff`: the prices of a step, an invocation and an observation; `Tariff.spent` is what was
  counted.
* `Prices`: a tariff with the prices of user code, of running a payload and of completing it.
* `Prices.supply`: the weight that gives every part of a state its price.
* `Prices.Pays`: the step takes from the supply what it does.

There is one lemma for each rule of the machine that makes nothing: `Prices.pays_idle`,
`Prices.pays_completesPayload`, `Prices.pays_handsInline` and so on. Those about user code and about
invocations have as hypothesis what the prices of the programs have to be there.
-/

namespace Arcana.Tasks

open Function

variable {T U V E : Type*}

/-- The prices of a step, of the invocation of a callable, and of an observation. -/
structure Tariff where
  step : ℕ
  call : ℕ
  observation : ℕ

namespace Tariff

/-- The tariff that counts steps. -/
@[simps] def steps : Tariff := ⟨1, 0, 0⟩

/-- The tariff that counts invocations. -/
@[simps] def calls : Tariff := ⟨0, 1, 0⟩

/-- The tariff that counts observations. -/
@[simps] def observations : Tariff := ⟨0, 0, 1⟩

/-- What was done that is counted in the state. -/
def spent (r : Tariff) (s : State T U V E) : ℕ :=
  r.call * s.invoked.length + r.observation * s.emitted.length

@[simp] theorem spent_steps (s : State T U V E) : steps.spent s = 0 := by
  simp [spent, steps]

@[simp] theorem spent_calls (s : State T U V E) : calls.spent s = s.invoked.length := by
  simp [spent, calls]

@[simp] theorem spent_observations (s : State T U V E) :
    observations.spent s = s.emitted.length := by
  simp [spent, observations]

end Tariff

/-- The prices of going on with user code, of running a payload, and of the completion of a payload,
which everything that completes it pays for. -/
structure Prices (U : Type*) extends Tariff where
  code : U → ℕ
  run : ℕ → ℕ
  completion : ℕ → ℕ

namespace Prices

variable (P : Prices U)

/-- Running the continuations `cs`. -/
def runAll (cs : List Continuation) : ℕ :=
  (cs.map fun c => 2 * P.step + P.run c.continuation).sum

/-- Going on with a call. The numbers of steps leave room for the calls that a call makes; the
mutexes that are held on the way along the redirects cost nothing. -/
def frame : Frame U V E → ℕ
  | .user u => P.code u
  | .completing k => P.step + P.code (k (.ok ()))
  | .run p _ => P.run p
  | .doWork p => 2 * P.step + P.completion p
  | .unwrapping p => 3 * P.step + P.completion p
  | .doCompletion p => 2 * P.step + P.completion p
  | .runAll cs => P.step + P.runAll cs
  | .collapseLeftIntoRight left _ => 3 * P.step + P.completion left
  | .addContinuations _ cs => 2 * P.step + P.runAll cs
  | .holding _ => 0

/-- What the parts of a state will still do. A payload that is completed keeps the price of it. -/
@[simps] def supply : Weight U V E where
  payload p x := P.runAll x.continuation.span + if x.completed then P.completion p else 0
  frame f := P.frame f
  callable c := P.step + P.run c.1

/-- What the completions of `n` payloads cost. -/
def total (n : ℕ) : ℕ := ∑ p ∈ Finset.range n, P.completion p

@[simp] theorem runAll_nil : P.runAll [] = 0 := rfl

@[simp] theorem runAll_cons (c : Continuation) (cs : List Continuation) :
    P.runAll (c :: cs) = 2 * P.step + P.run c.continuation + P.runAll cs := by
  simp [runAll]

@[simp] theorem runAll_append (cs ds : List Continuation) :
    P.runAll (cs ++ ds) = P.runAll cs + P.runAll ds := by
  simp [runAll]

@[simp] theorem runAll_reparent (cs : List Continuation) (q : ℕ) :
    P.runAll (cs.map (·.reparent q)) = P.runAll cs := by
  simp [runAll, Function.comp_def]

theorem total_succ (n : ℕ) : P.total (n + 1) = P.total n + P.completion n :=
  Finset.sum_range_succ _ _

/-- Completions that cost nothing. -/
theorem total_of_free (h : P.completion = fun _ => 0) (n : ℕ) : P.total n = 0 := by
  simp [total, h]

variable {P} in
theorem runAll_congr {P' : Prices U} {cs : List Continuation} (step : P'.step = P.step)
    (run : ∀ c ∈ cs, P'.run c.continuation = P.run c.continuation) :
    P'.runAll cs = P.runAll cs := by
  refine congrArg List.sum (List.map_congr_left fun c hc => ?_)
  rw [step, run c hc]

variable [Fintype T] {s s' s₁ : State T U V E}

/-- **The account of a step**: it takes from the supply what it does, at the price of `n` steps; the
completion of what it allocates is still to come. -/
def Pays (n : ℕ) (s s' : State T U V E) : Prop :=
  s'.weight P.supply + (P.spent s' + n * P.step + P.total s.next) =
    s.weight P.supply + (P.spent s + P.total s'.next)

/-- A step that allocates nothing is paid for when completions are free. -/
theorem Pays.of_free {P : Prices U} {n : ℕ} (h : P.completion = fun _ => 0)
    (hpays : s'.weight P.supply + (P.spent s' + n * P.step) = s.weight P.supply + P.spent s) :
    P.Pays n s s' := by
  rw [Pays, P.total_of_free h, P.total_of_free h]
  omega

variable [DecidableEq T] {t : T} {rest : List (Frame U V E)}

/-! ### Steps of the task system -/

/-- A thread takes what is queued. -/
theorem pays_idle {i p : ℕ} {parent : Option ℕ} (hs : s.stack t = [])
    (hi : s.queue[i]? = some (p, parent)) :
    P.Pays 1 s ({ s with queue := s.queue.eraseIdx i }.setStack t [.run p parent]) := by
  refine State.Shifts.eq (State.weight_take _ hi rfl rfl rfl rfl) ?_
  simp [hs, frame, Tariff.spent]
  omega

/-- `complete` returns. -/
theorem pays_completed {k : Except RuntimeError Unit → U} (hs : s.stack t = .completing k :: rest) :
    P.Pays 1 s (s.setStack t (.user (k (.ok ())) :: rest)) := by
  refine State.Shifts.eq (State.weight_move _ rfl rfl rfl rfl) ?_
  simp [hs, frame, Tariff.spent]
  omega

/-- The continuation of `task_factory` has made the task to return complete. -/
theorem pays_unwrapped {p : ℕ} {r : Expected V E} (hs : s.stack t = .unwrapping p :: rest) :
    P.Pays 1 s ((s.setResult p r).setStack t (.doCompletion p :: rest)) := by
  refine State.Shifts.eq (State.weight_rewrite _ rfl rfl rfl rfl rfl) ?_
  simp [hs, frame, Tariff.spent]
  omega

/-- A payload is completed, and its continuations are to be run. -/
theorem pays_completesPayload {p : ℕ} (hp : p < s.next) (hs : s.stack t = .doCompletion p :: rest)
    (hdone : (s.heap p).completed = false) :
    P.Pays 1 s ((s.setPayload p ((s.heap p).cannibalized none)).setStack t
      (.runAll (s.heap p).continuation.span :: rest)) := by
  refine State.Shifts.eq (State.weight_write _ hp rfl rfl rfl rfl) ?_
  simp [hs, frame, Tariff.spent, Payload.cannibalized, hdone]
  omega

/-- A payload is completed by its redirect, and its continuations go along. -/
theorem pays_collapses {left right : ℕ} (hleft : left < s.next)
    (hs : s.stack t = .collapseLeftIntoRight left right :: rest)
    (hdone : (s.heap left).completed = false) :
    P.Pays 1 s ((s.setPayload left ((s.heap left).cannibalized (some right))).setStack t
      (.addContinuations right
        ((s.heap left).continuation.span.map (·.reparent right)) :: rest)) := by
  refine State.Shifts.eq (State.weight_write _ hleft rfl rfl rfl rfl) ?_
  simp [hs, frame, Tariff.spent, Payload.cannibalized, hdone]
  omega

/-- All continuations were run. -/
theorem pays_ranAll (hs : s.stack t = .runAll [] :: rest) : P.Pays 1 s (s.setStack t rest) := by
  refine State.Shifts.eq (State.weight_move _ rfl rfl rfl rfl) ?_
  simp [hs, frame, Tariff.spent]
  omega

/-- The first of the continuations is handed to the inline scheduler. -/
theorem pays_handsInline {c : Continuation} {cs : List Continuation}
    (hs : s.stack t = .runAll (c :: cs) :: rest) :
    P.Pays 2 s ({ s with handed := c.continuation :: s.handed }.setStack t
      (.run c.continuation (some c.parent) :: .runAll cs :: rest)) := by
  refine State.Shifts.eq (State.weight_move _ rfl rfl rfl rfl) ?_
  simp [hs, frame, Tariff.spent]
  omega

/-- The first of the continuations is queued. -/
theorem pays_handsDispatcher {c : Continuation} {cs : List Continuation}
    (hs : s.stack t = .runAll (c :: cs) :: rest) :
    P.Pays 1 s ({ s with
      handed := c.continuation :: s.handed
      queue := s.queue ++ [(c.continuation, some c.parent)] }.setStack t (.runAll cs :: rest)) := by
  refine State.Shifts.eq (State.weight_put _ rfl rfl rfl rfl) ?_
  simp [hs, frame, Tariff.spent]
  omega

/-- Nothing is to be added. -/
theorem pays_addsNothing {p : ℕ} (hs : s.stack t = .addContinuations p [] :: rest) :
    P.Pays 2 s (s.setStack t rest) := by
  refine State.Shifts.eq (State.weight_move _ rfl rfl rfl rfl) ?_
  simp [hs, frame, Tariff.spent]
  omega

/-- Continuations go along a redirect. -/
theorem pays_addsAlong {p q : ℕ} {cs : List Continuation}
    (hs : s.stack t = .addContinuations p cs :: rest) :
    P.Pays 0 s (s.setStack t (.addContinuations q (cs.map (·.reparent q)) :: .holding p ::
    rest)) := by
  refine State.Shifts.eq (State.weight_move _ rfl rfl rfl rfl) ?_
  simp [hs, frame, Tariff.spent]

/-- Continuations that come late are run at once. -/
theorem pays_addsLate {p : ℕ} {cs : List Continuation}
    (hs : s.stack t = .addContinuations p cs :: rest) :
    P.Pays 1 s (s.setStack t (.runAll cs :: rest)) := by
  refine State.Shifts.eq (State.weight_move _ rfl rfl rfl rfl) ?_
  simp [hs, frame, Tariff.spent]
  omega

/-- Continuations are stored. -/
theorem pays_stores {p : ℕ} {cs : List Continuation} (hp : p < s.next)
    (hs : s.stack t = .addContinuations p cs :: rest) :
    P.Pays 2 s ((s.setPayload p
      { s.heap p with continuation := (s.heap p).continuation.append cs }).setStack t rest) := by
  refine State.Shifts.eq (State.weight_write _ hp rfl rfl rfl rfl) ?_
  simp [hs, frame, Tariff.spent]
  omega

/-- The mutex is unlocked on the way back. -/
theorem pays_unlocks {p : ℕ} (hs : s.stack t = .holding p :: rest) :
    P.Pays 0 s (s.setStack t rest) := by
  refine State.Shifts.eq (State.weight_move _ rfl rfl rfl rfl) ?_
  simp [hs, frame, Tariff.spent]

/-! ### Steps of user code -/

variable {u k : U}

/-- The code of a thread returns. -/
theorem pays_mainReturns (hs : s.stack t = [.user u]) (hu : P.code u = P.step) :
    P.Pays 1 s (s.setStack t []) := by
  refine State.Shifts.eq (State.weight_move _ rfl rfl rfl rfl) ?_
  simp [hs, frame, Tariff.spent, hu]
  omega

/-- The code of a callable returns. -/
theorem pays_returns {p : ℕ} {r : Expected V E} (hs : s.stack t = .user u :: .doWork p :: rest)
    (hu : P.code u = P.step) :
    P.Pays 1 s ((s.setResult p r).setStack t (.doCompletion p :: rest)) := by
  refine State.Shifts.eq (State.weight_rewrite _ rfl rfl rfl rfl rfl) ?_
  simp [hs, frame, Tariff.spent, hu]
  omega

/-- The code reports something. -/
theorem pays_emits {r : Expected V E} (hs : s.stack t = .user u :: rest)
    (hu : P.code u = P.step + P.observation + P.code k) :
    P.Pays 1 s ({ s with emitted := s.emitted ++ [r] }.setStack t (.user k :: rest)) := by
  refine State.Shifts.eq (State.weight_move _ rfl rfl rfl rfl) ?_
  simp [hs, frame, Tariff.spent, hu, Nat.mul_succ]
  omega

/-- The code constructs a source. -/
theorem pays_constructs {k : ℕ → U} (hs : s.stack t = .user u :: rest)
    (hu : P.code u + P.completion s.next = P.step + P.code (k s.next)) :
    P.Pays 1 s (s.makeSource.setStack t (.user (k s.next) :: rest)) := by
  have hsource : s.makeSource.weight P.supply = s.weight P.supply := by
    rw [State.weight_makeSource]
    simp
  rw [Pays, ← hsource]
  refine State.Shifts.eq (State.weight_move _ rfl rfl rfl rfl) ?_
  simp [hs, frame, Tariff.spent, total_succ]
  omega

/-- The code completes a source. -/
theorem pays_completes {p : ℕ} {r : Expected V E} {k : Except RuntimeError Unit → U}
    (hs : s.stack t = .user u :: rest)
    (hu : P.code u = 4 * P.step + P.completion p + P.code (k (.ok ()))) :
    P.Pays 1 s ((s.setResult p r).setStack t (.doCompletion p :: .completing k :: rest)) := by
  refine State.Shifts.eq (State.weight_rewrite _ rfl rfl rfl rfl rfl) ?_
  simp [hs, frame, Tariff.spent, hu]
  omega

variable [ErrorTraits E]

/-- A payload whose result is known without its callable. -/
theorem pays_decides {p : ℕ} {parent : Option ℕ} {r : Expected V E}
    (hs : s.stack t = .run p parent :: rest) (hinput : WorkInput s p parent s₁ (.inl r))
    (hrun : P.run p = 3 * P.step + P.completion p) :
    P.Pays 1 s ((s₁.setResult p r).setStack t (.doCompletion p :: rest)) := by
  have same := hinput.sameRest
  have hnext := hinput.heap_next.2
  rw [← same.stack] at hs
  rw [Pays, ← hinput.weight]
  refine State.Shifts.eq (State.weight_rewrite _ rfl rfl rfl rfl rfl) ?_
  simp [hs, frame, Tariff.spent, same.invoked, same.emitted, hnext, hrun]
  omega

/-- A payload whose work invokes its callable. -/
theorem pays_invokes {p : ℕ} {parent : Option ℕ} (hs : s.stack t = .run p parent :: rest)
    (hinput : WorkInput s p parent s₁ (.inr u))
    (hrun : P.run p = 3 * P.step + P.call + P.completion p + P.code u) :
    P.Pays 1 s ({ s₁ with invoked := p :: s₁.invoked }.setStack t
      (.user u :: .doWork p :: rest)) := by
  have same := hinput.sameRest
  have hnext := hinput.heap_next.2
  rw [← same.stack] at hs
  rw [Pays, ← hinput.weight]
  refine State.Shifts.eq (State.weight_move _ rfl rfl rfl rfl) ?_
  simp [hs, frame, Tariff.spent, same.invoked, same.emitted, hnext, hrun, Nat.mul_succ]
  omega

/-! ### What is made

The parts that `make_task_factory` adds to a state have the price `m`, and the code that asks for
them has to pay for it. -/

omit [DecidableEq T] [ErrorTraits E]

variable {work : Work U V E} {unwrap : Bool} {toRun toReturn m n : ℕ}

/-- A step that goes on with what was made. -/
theorem Pays.of_made {P : Prices U} {before after : ℕ}
    (hf : Factory s work unwrap s₁ toRun toReturn)
    (hmade : s₁.weight P.supply = s.weight P.supply + m)
    (hmove : s₁.Shifts P.supply s' before after) (invoked : s'.invoked = s₁.invoked)
    (emitted : s'.emitted = s₁.emitted) (next : s'.next = s₁.next)
    (local_eq : m + after + n * P.step + P.total s.next = before + P.total s₁.next) :
    P.Pays n s s' := by
  have same := hf.sameRest
  rw [Pays, Tariff.spent, Tariff.spent, invoked, emitted, next, same.invoked, same.emitted]
  rw [State.Shifts] at hmove
  omega

variable [DecidableEq T]

/-- The code makes a task, and the thread runs it. -/
theorem pays_makeTaskInline (hs : s.stack t = .user u :: rest)
    (hf : Factory s work unwrap s₁ toRun toReturn)
    (hmade : s₁.weight P.supply = s.weight P.supply + m)
    (hu : m + P.run toRun + P.code k + n * P.step + P.total s.next =
      P.code u + P.total s₁.next) :
    P.Pays n s (s₁.setStack t (.run toRun none :: .user k :: rest)) := by
  rw [← hf.sameRest.stack] at hs
  refine .of_made hf hmade (State.weight_move _ rfl rfl rfl rfl) rfl rfl rfl ?_
  simp [hs, frame]
  omega

/-- The code makes a task on a dispatcher. -/
theorem pays_makeTaskDispatcher (hs : s.stack t = .user u :: rest)
    (hf : Factory s work unwrap s₁ toRun toReturn)
    (hmade : s₁.weight P.supply = s.weight P.supply + m)
    (hu : m + (P.step + P.run toRun) + P.code k + n * P.step + P.total s.next =
      P.code u + P.total s₁.next) :
    P.Pays n s ({ s₁ with queue := s₁.queue ++ [(toRun, none)] }.setStack t
      (.user k :: rest)) := by
  rw [← hf.sameRest.stack] at hs
  refine .of_made hf hmade (State.weight_put _ rfl rfl rfl rfl) rfl rfl rfl ?_
  simp [hs, frame]
  omega

/-- The code attaches a continuation to a task. -/
theorem pays_thenDo {p : ℕ} {scheduler : Scheduler} (hs : s.stack t = .user u :: rest)
    (hf : Factory s work unwrap s₁ toRun toReturn)
    (hmade : s₁.weight P.supply = s.weight P.supply + m)
    (hu : m + (4 * P.step + P.run toRun) + P.code k + n * P.step + P.total s.next =
      P.code u + P.total s₁.next) :
    P.Pays n s ({ s₁ with registered := toRun :: s₁.registered }.setStack t
      (.addContinuations p [⟨p, toRun, scheduler⟩] :: .user k :: rest)) := by
  rw [← hf.sameRest.stack] at hs
  refine .of_made hf hmade (State.weight_move _ rfl rfl rfl rfl) rfl rfl rfl ?_
  simp [hs, frame]
  omega

end Prices

end Arcana.Tasks
