import Mathlib.Data.Fintype.Basic
import Mathlib.Tactic.Simps.Basic
import Mathlib.Algebra.BigOperators.Group.Finset.Basic
import Arcana.Foundations.Transition
import Arcana.Tasks.Payload

/-!
# The task machine

The task system as a transition system over a heap of payloads. Every thread has a call stack whose
frames are the active calls of `task.h` and `internal_task.h`; one step runs the top frame of one
thread up to its next call or its next critical section, so that the interleavings of the threads
are those of the `m_mutex` critical sections of the payloads.

* User code is a parameter: `act u o` is the next call that the code `u` makes, where the oracle `o`
  stands for whatever it decides on, such as variables that other threads write. The main code of a
  thread, and every callable handed to `make_task` and `then`, is such code.
* `add_continuations` holds the mutex of a payload while it recurses along `m_taskRedirect`; the
  frame `holding p` stays on the stack for that time, and the other critical sections need `p` free
  (`State.mutexFree`). A call that needs a mutex held by its own stack has no step: it is stuck.
* `continuation_payload::run` hands a callable to a scheduler: the inline scheduler invokes it, a
  dispatcher queues it, and any idle thread, or user code that ticks the dispatcher, runs any queued
  callable.

Payloads are never freed. Exceptions out of `task_completion_source::complete` reach the user code
that called it; one that leaves any other frame would terminate the program and is no step.
-/

namespace Arcana.Tasks

open Function

variable {T O U V E : Type*}

/-- How a callable returns: with a value, with an expected, by throwing, or with a task. -/
inductive Return (V E : Type*)
  | value (v : Value V)
  | expected (r : Expected V E)
  | throws (e : E)
  | task (p : ℕ)

/-- The calls user code makes. -/
inductive Action (U V E : Type*)
  /-- The callable, or the main code of a thread, returns. -/
  | ret (r : Return V E)
  /-- Something observable: the code reports `r`. -/
  | emit (r : Expected V E) (k : U)
  /-- Constructs a `task_completion_source`. -/
  | source (k : ℕ → U)
  /-- `task_completion_source::complete`; `k` is told whether it threw. -/
  | complete (p : ℕ) (r : Expected V E) (k : Except RuntimeError Unit → U)
  /-- `make_task`. `unwrap` says that the return type of the callable is a task. -/
  | makeTask (scheduler : Scheduler) (cancelled unwrap : Bool) (callable : U) (k : ℕ → U)
  /-- `task::then` on the task with payload `p`. -/
  | thenDo (p : ℕ) (scheduler : Scheduler) (cancelled handlesExpected unwrap : Bool)
      (callable : Expected V E → U) (k : ℕ → U)
  /-- Runs the `i`-th queued callable, if there is one. -/
  | tick (i : ℕ) (k : U)

/-- The active calls of a thread. -/
inductive Frame (U V E : Type*)
  /-- User code that is about to act. -/
  | user (u : U)
  /-- User code inside `task_completion_source::complete`. -/
  | completing (k : Except RuntimeError Unit → U)
  /-- `base_task_payload::run`. -/
  | run (p : ℕ) (parent : Option ℕ)
  /-- `do_work`, inside the callable it invoked. -/
  | doWork (p : ℕ)
  /-- `do_work`, inside the callable of `task_factory`. -/
  | unwrapping (p : ℕ)
  /-- `do_completion`. -/
  | doCompletion (p : ℕ)
  /-- The loop over the continuations that are to be run. -/
  | runAll (cs : List Continuation)
  /-- `collapse_left_into_right`. -/
  | collapseLeftIntoRight (left right : ℕ)
  /-- `add_continuations`. -/
  | addContinuations (p : ℕ) (cs : List Continuation)
  /-- `add_continuations`, inside the call on `m_taskRedirect`: it holds the mutex of `p`. -/
  | holding (p : ℕ)

/-- The frame holds the mutex of `p`. -/
def Frame.holds (p : ℕ) : Frame U V E → Bool
  | .holding q => q == p
  | _ => false

/-- The state of the machine. The last four fields are histories, which no step reads except to
tell a source, which user code may complete, from other payloads. -/
structure State (T U V E : Type*) where
  heap : ℕ → Payload U V E
  next : ℕ
  stack : T → List (Frame U V E)
  queue : List (ℕ × Option ℕ)
  /-- The payloads of the `task_completion_source`s of user code. -/
  sources : List ℕ
  /-- The continuations registered by `create_continuation`. -/
  registered : List ℕ
  /-- The continuations handed to their scheduling function. -/
  handed : List ℕ
  /-- The results read by works: the parent, the payload that runs, and what it read. -/
  reads : List (ℕ × ℕ × Expected V E)
  /-- The callables invoked, by the payload they belong to. -/
  invoked : List ℕ
  emitted : List (Expected V E)

namespace State

/-- The heap with `x` at `p`. -/
@[simps] def setPayload (s : State T U V E) (p : ℕ) (x : Payload U V E) : State T U V E :=
  { s with heap := update s.heap p x }

/-- The call stack `fs` for the thread `t`. -/
@[simps] def setStack [DecidableEq T] (s : State T U V E) (t : T) (fs : List (Frame U V E)) :
    State T U V E :=
  { s with stack := update s.stack t fs }

/-- `Result = r` at the payload `p`. -/
@[simps!] def setResult (s : State T U V E) (p : ℕ) (r : Expected V E) : State T U V E :=
  s.setPayload p { s.heap p with result := some r }

/-- `*static_cast<payload_t*>(self)->Result`, with the parent it was read from. -/
def parentResult (s : State T U V E) (parent : Option ℕ) : Option (ℕ × Expected V E) :=
  parent.bind fun q => (s.heap q).result.map fun r => (q, r)

/-- Records that the work of `p` read `r` from its parent `q`. -/
@[simps] def read (s : State T U V E) (q p : ℕ) (r : Expected V E) : State T U V E :=
  { s with reads := (q, p, r) :: s.reads }

/-- No thread holds the mutex of `p`. -/
def mutexFree [Fintype T] (s : State T U V E) (p : ℕ) : Bool :=
  decide (∀ t, (s.stack t).all fun f => !f.holds p)

theorem mutexFree_iff [Fintype T] {s : State T U V E} {p : ℕ} :
    s.mutexFree p = true ↔ ∀ t, ∀ f ∈ s.stack t, f.holds p = false := by
  simp [mutexFree, List.all_eq_true]

/-- A fresh payload without work for a `task_completion_source` of user code. -/
@[simps] def makeSource (s : State T U V E) : State T U V E :=
  { s with
    heap := update s.heap s.next {}
    next := s.next + 1
    sources := s.next :: s.sources }

/-- `make_work_payload` and `make_task_factory`: the payload to run and the payload of the task to
return. For a callable that returns a task, `task_factory` makes a stand-in source and puts on the
payload to run the continuation that completes or collapses it. -/
def makeTaskFactory (s : State T U V E) (work : Work U V E) (unwrap : Bool) :
    State T U V E × ℕ × ℕ :=
  let toRun := s.next
  if unwrap then
    let source := s.next + 1
    let l := s.next + 2
    ({ s with
        heap := update (update (update s.heap toRun
            { work := some work
              continuation :=
                (ContinuationStorage.single none).append [⟨toRun, l, .inlineScheduler⟩] })
          source {}) l { work := some (.unwrap source) }
        next := s.next + 3
        registered := l :: s.registered }, toRun, source)
  else
    ({ s with heap := update s.heap toRun { work := some work }, next := s.next + 1 },
      toRun, toRun)

end State

/-- `output_wrapper::invoke`: what a payload holds after its callable returned, or `none` when the
exception terminates the program. -/
def outputWrapper [ErrorTraits E] : Return V E → Option (Expected V E)
  | .value v => some (.ok v)
  | .expected r => some r
  | .throws e => if ErrorTraits.catches E then some (.error e) else none
  | .task p => some (.ok (.task p))

/-- `input_output_wrapper::wrap_callable`: the result when the callable is not invoked, or the user
code that runs. -/
def wrapCallable [ErrorTraits E] (handlesExpected cancelled : Bool) (callable : Expected V E → U)
    (input : Expected V E) : Expected V E ⊕ U :=
  if handlesExpected then
    if cancelled then .inl (.error ErrorTraits.operationCanceled) else .inr (callable input)
  else
    match input with
    | .error e => .inl (.error e)
    | .ok v =>
      if cancelled then .inl (.error ErrorTraits.operationCanceled) else .inr (callable (.ok v))

section step

variable [DecidableEq T] [Fintype T] [ErrorTraits E] (act : U → O → Action U V E)

/-- User code acts. -/
def stepUser (s : State T U V E) (t : T) (rest : List (Frame U V E)) :
    Action U V E → Option (State T U V E)
  | .ret r =>
    match rest with
    | [] => some (s.setStack t [])
    | .doWork p :: rest => (outputWrapper r).map fun r =>
        (s.setResult p r).setStack t (.doCompletion p :: rest)
    | _ => none
  | .emit r k => some ({ s with emitted := s.emitted ++ [r] }.setStack t (.user k :: rest))
  | .source k => some (s.makeSource.setStack t (.user (k s.next) :: rest))
  | .complete p r k =>
    if p ∈ s.sources then
      some ((s.setResult p r).setStack t (.doCompletion p :: .completing k :: rest))
    else none
  | .makeTask scheduler cancelled unwrap callable k =>
    let (s, toRun, toReturn) := s.makeTaskFactory (.start cancelled callable) unwrap
    match scheduler with
    | .inlineScheduler => some (s.setStack t (.run toRun none :: .user (k toReturn) :: rest))
    | .dispatcher =>
      some ({ s with queue := s.queue ++ [(toRun, none)] }.setStack t (.user (k toReturn) :: rest))
  | .thenDo p scheduler cancelled handlesExpected unwrap callable k =>
    if p < s.next then
      let (s, toRun, toReturn) :=
        s.makeTaskFactory (.continuation handlesExpected cancelled callable) unwrap
      some ({ s with registered := toRun :: s.registered }.setStack t
        (.addContinuations p [⟨p, toRun, scheduler⟩] :: .user (k toReturn) :: rest))
    else none
  | .tick i k =>
    match s.queue[i]? with
    | none => some (s.setStack t (.user k :: rest))
    | some (p, parent) =>
      some ({ s with queue := s.queue.eraseIdx i }.setStack t (.run p parent :: .user k :: rest))

/-- `do_work` after its wrapper decided: the result is there, or the callable is invoked. -/
def stepWork (s : State T U V E) (t : T) (rest : List (Frame U V E)) (p : ℕ) :
    Expected V E ⊕ U → State T U V E
  | .inl r => (s.setResult p r).setStack t (.doCompletion p :: rest)
  | .inr u => { s with invoked := p :: s.invoked }.setStack t (.user u :: .doWork p :: rest)

/-- The callable of `task_factory`: an error completes the stand-in with the error, a task is what
the stand-in is collapsed into. -/
def stepUnwrap (s : State T U V E) (t : T) (rest : List (Frame U V E)) (p source : ℕ) :
    Expected V E → Option (State T U V E)
  | .error e => some ((s.setResult source (.error e)).setStack t
      (.doCompletion source :: .unwrapping p :: rest))
  | .ok (.task r) =>
    if r < s.next then
      some (s.setStack t (.collapseLeftIntoRight source r :: .unwrapping p :: rest))
    else none
  | .ok _ => none

/-- `run` with its `do_work`. -/
def stepRun (s : State T U V E) (t : T) (rest : List (Frame U V E)) (p : ℕ)
    (parent : Option ℕ) : Option (State T U V E) :=
  match (s.heap p).work with
  | none => some (s.setStack t (.doCompletion p :: rest))
  | some (.start cancelled callable) =>
    some (stepWork s t rest p (wrapCallable false cancelled (fun _ => callable) (.ok .void)))
  | some (.continuation handlesExpected cancelled callable) =>
    (s.parentResult parent).map fun (q, input) =>
      stepWork (s.read q p input) t rest p (wrapCallable handlesExpected cancelled callable input)
  | some (.unwrap source) =>
    (s.parentResult parent).bind fun (q, input) =>
      stepUnwrap (s.read q p input) t rest p source input

/-- `do_completion`: its critical section, after which the continuations taken are run. -/
def stepDoCompletion (s : State T U V E) (t : T) (rest : List (Frame U V E)) (p : ℕ) :
    Option (State T U V E) :=
  if s.mutexFree p then
    match (s.heap p).cannibalize none with
    | .ok (continuation, x) =>
      some ((s.setPayload p x).setStack t (.runAll continuation.span :: rest))
    | .error e =>
      match rest with
      | .completing k :: rest => some (s.setStack t (.user (k (.error e)) :: rest))
      | _ => none
  else none

/-- `collapse_left_into_right`: the critical section on the left, after which the continuations
taken are given the right as parent and added to it. -/
def stepCollapse (s : State T U V E) (t : T) (rest : List (Frame U V E)) (left right : ℕ) :
    Option (State T U V E) :=
  if s.mutexFree left then
    match (s.heap left).cannibalize (some right) with
    | .ok (continuation, x) => some ((s.setPayload left x).setStack t
        (.addContinuations right (continuation.span.map (·.reparent right)) :: rest))
    | .error _ => none
  else none

/-- `add_continuations`: its critical section, which goes on along `m_taskRedirect`, stores the
continuations, or leaves them to be run. -/
def stepAddContinuations (s : State T U V E) (t : T) (rest : List (Frame U V E)) (p : ℕ)
    (cs : List Continuation) : Option (State T U V E) :=
  if cs = [] then some (s.setStack t rest)
  else if s.mutexFree p then
    match (s.heap p).taskRedirect with
    | some q => some (s.setStack t
        (.addContinuations q (cs.map (·.reparent q)) :: .holding p :: rest))
    | none =>
      if (s.heap p).completed then some (s.setStack t (.runAll cs :: rest))
      else
        match (s.heap p).internalAddContinuations cs with
        | .ok x => some ((s.setPayload p x).setStack t rest)
        | .error _ => none
  else none

/-- The loop over continuations: `continuation_payload::run` on the first one hands it to its
scheduling function. -/
def stepRunAll (s : State T U V E) (t : T) (rest : List (Frame U V E)) :
    List Continuation → Option (State T U V E)
  | [] => some (s.setStack t rest)
  | c :: cs =>
    let s := { s with handed := c.continuation :: s.handed }
    match c.schedulingFunction with
    | .inlineScheduler => some
        (s.setStack t (.run c.continuation (some c.parent) :: .runAll cs :: rest))
    | .dispatcher =>
      some ({ s with queue := s.queue ++ [(c.continuation, some c.parent)] }.setStack t
        (.runAll cs :: rest))

/-- What decides a step: the thread, the oracle of its user code, and the queued callable that an
idle thread runs. -/
structure Label (T O : Type*) where
  thread : T
  oracle : O
  callable : ℕ

/-- An idle thread runs the `i`-th queued callable. -/
def stepIdle (s : State T U V E) (t : T) (i : ℕ) : Option (State T U V E) :=
  match s.queue[i]? with
  | none => none
  | some (p, parent) => some ({ s with queue := s.queue.eraseIdx i }.setStack t [.run p parent])

/-- One step of the thread `t` with the given call stack. -/
def stepThread (s : State T U V E) (t : T) (o : O) (i : ℕ) :
    List (Frame U V E) → Option (State T U V E)
  | [] => stepIdle s t i
  | .user u :: rest => stepUser s t rest (act u o)
  | .completing k :: rest => some (s.setStack t (.user (k (.ok ())) :: rest))
  | .run p parent :: rest => stepRun s t rest p parent
  | .doWork _ :: _ => none
  | .unwrapping p :: rest =>
    some ((s.setResult p (.ok .void)).setStack t (.doCompletion p :: rest))
  | .doCompletion p :: rest => stepDoCompletion s t rest p
  | .runAll cs :: rest => stepRunAll s t rest cs
  | .collapseLeftIntoRight left right :: rest => stepCollapse s t rest left right
  | .addContinuations p cs :: rest => stepAddContinuations s t rest p cs
  | .holding _ :: rest => some (s.setStack t rest)

/-- **The step function of the machine.** -/
def step (s : State T U V E) (l : Label T O) : Option (State T U V E) :=
  stepThread act s l.thread l.oracle l.callable (s.stack l.thread)

end step

/-- The initial state: no payload exists and every thread is about to run its main code. -/
def init (main : T → U) : State T U V E where
  heap _ := {}
  next := 0
  stack t := [.user (main t)]
  queue := []
  sources := []
  registered := []
  handed := []
  reads := []
  invoked := []
  emitted := []

end Arcana.Tasks
