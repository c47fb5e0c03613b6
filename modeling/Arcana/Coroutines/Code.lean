import Arcana.Tasks.Machine
import Arcana.Coroutines.Coroutine

/-!
# The code of a coroutine

User code of the task machine that runs coroutines, as the promise types and awaiters of
`coroutine.h` do. A call constructs the `task_completion_source` of the promise and runs the body at
once; `co_await` attaches a continuation to the task that resumes the body, and goes back to whoever
called or resumed it; the end of the body completes the source. `Activation` is what the frame of a
coroutine holds, and `Code.resume` goes back to the callers that are under way on the same thread.

The promise types are those of the branch without `__clang__`, where an exception that leaves a
coroutine goes to `set_exception`. With `__clang__` there is `unhandled_exception` in its place,
which terminates.

* `Activation`, `Bottom`: a coroutine that is under way, and where its thread goes back to.
* `Code`: the user code that calls, runs and resumes coroutines.
* `Code.act`: what it does next, with the calls that it makes into the task library.
-/

namespace Arcana.Coroutines

open Tasks

universe u v

variable {V : Type u} {X : Type v}

/-- A coroutine that is under way: the rest of its body, with its variables, and its promise. -/
structure Activation (V : Type u) (X : Type v) where
  kind : ErrorKind
  {n m : ℕ}
  body : Coroutine V X n m
  tasks : Fin n → ℕ
  held : Fin m → AwaiterResult V X
  promise : ℕ

/-- Where a thread goes back to when no caller is left: out of the continuation that resumed the
coroutine, or to the main code, which waits for the task. -/
inductive Bottom
  | resumed
  | main (scheduler : Scheduler) (task : ℕ)

/-- User code. -/
inductive Code (V : Type u) (X : Type v) : Type (max u v)
  /-- Calls the coroutine, and observes its task on the given scheduler. -/
  | start (kind : ErrorKind) (c : Coroutine V X 0 0) (scheduler : Scheduler)
  /-- Runs a coroutine, on top of those that called it. -/
  | active (a : Activation V X) (callers : List (Activation V X)) (bottom : Bottom)
  /-- `set_exception`. -/
  | setException (kind : ErrorKind) (promise : ℕ) (x : Exception X)
      (callers : List (Activation V X)) (bottom : Bottom)
  | attach (scheduler : Scheduler) (task : ℕ)
  | ret (r : Return V (Error X))
  /-- The continuation on the task of the coroutine. -/
  | observe (r : Expected V (Error X))
  /-- The program is terminated, or an exception leaves the coroutine by `set_exception`. -/
  | terminate

namespace Code

/-- Goes on where the coroutine was called or resumed. -/
def resume : List (Activation V X) → Bottom → Code V X
  | a :: callers, bottom => .active a callers bottom
  | [], .resumed => .ret (.value .void)
  | [], .main scheduler task => .attach scheduler task

/-- A callable that throws, for which the machine has no step. -/
def terminates : Action (Code V X) V (Error X) := .ret (.throws ErrorTraits.operationCanceled)

section

variable (kind : ErrorKind) (promise : ℕ) (callers : List (Activation V X)) (bottom : Bottom)

/-- The call that `set_exception` makes. -/
def handle (x : Exception X) : Action (Code V X) V (Error X) :=
  match handleCoroutineException kind x with
  | some e => .complete promise (.error e) fun
    | .ok () => resume callers bottom
    | .error _ => .terminate
  | none => terminates

/-- The end of a body after `co_return`, which may have thrown: its objects are destroyed, and an
exception that is in flight then is set. -/
def leave (held : List (AwaiterResult V X)) (returned : Except RuntimeError Unit) : Code V X :=
  let inFlight := match returned with
    | .ok () => none
    | .error e => some (.runtimeError e)
  match unwind inFlight held with
  | some none => resume callers bottom
  | some (some x) => .setException kind promise x callers bottom
  | none => .terminate

/-- The next call of a body. What it does with its results on the way is no call. -/
def run : {n m : ℕ} → Coroutine V X n m → (Fin n → ℕ) → (Fin m → AwaiterResult V X) →
    Action (Code V X) V (Error X)
  | _, _, .coReturn r, _, held =>
    .complete promise r (leave kind promise callers bottom (List.ofFn held))
  | _, _, .throws x, _, held =>
    match unwind (some x) (List.ofFn held) with
    | some (some x) => handle kind promise callers bottom x
    | _ => terminates
  | _, _, .coAwait scheduler i k, tasks, held =>
    .thenDo (tasks i) scheduler false true false
      (fun r => .active ⟨kind, k, tasks, push ⟨r, false⟩ held, promise⟩ [] .resumed)
      fun _ => resume callers bottom
  | _, _, .coAwaitValue scheduler i k, tasks, held =>
    .thenDo (tasks i) scheduler false true false
      (fun r => .active ⟨kind, k (r.mapError Error.raise), tasks, held, promise⟩ [] .resumed)
      fun _ => resume callers bottom
  | _, _, .toExpected j k, tasks, held =>
    run (k (held j).toExpected.1) tasks (Function.update held j (held j).toExpected.2)
  | _, _, .toValue j k, tasks, held =>
    run (k (held j).toValue.1) tasks (Function.update held j (held j).toValue.2)
  | _, _, .leaveScope unwinding k, tasks, held =>
    ((held newest).leave unwinding).elim terminates fun r => run (k r) tasks (Fin.tail held)
  | _, _, .switchTo scheduler k, tasks, held =>
    -- the call of a scheduler is modelled as that of `make_task`, whose task nobody reads
    .makeTask scheduler false false (.active ⟨kind, k, tasks, held, promise⟩ [] .resumed)
      fun _ => resume callers bottom
  | _, _, .call kind' c k, tasks, held =>
    .source fun q => .active ⟨kind', c, tasks, Fin.elim0, q⟩
      (⟨kind, k, push q tasks, held, promise⟩ :: callers) bottom
  | _, _, .makeTask scheduler r k, tasks, held =>
    .makeTask scheduler false false (.ret (.expected r))
      fun q => .active ⟨kind, k, push q tasks, held, promise⟩ callers bottom
  | _, _, .thenDo i scheduler callable k, tasks, held =>
    .thenDo (tasks i) scheduler false true false (fun r => .ret (.expected (callable r)))
      fun q => .active ⟨kind, k, push q tasks, held, promise⟩ callers bottom

end

/-- The next call of user code. -/
def act : Code V X → Unit → Action (Code V X) V (Error X)
  | .start kind c scheduler, _ =>
    .source fun q => .active ⟨kind, c, Fin.elim0, Fin.elim0, q⟩ [] (.main scheduler q)
  | .active a callers bottom, _ => run a.kind a.promise callers bottom a.body a.tasks a.held
  | .setException kind promise x callers bottom, _ => handle kind promise callers bottom x
  | .attach scheduler task, _ =>
    .thenDo task scheduler false true false .observe fun _ => .ret (.value .void)
  | .ret r, _ => .ret r
  | .observe r, _ => .emit r (.ret (.value .void))
  | .terminate, _ => terminates

end Code

section

variable {T : Type*} [DecidableEq T] (main : T) (kind : ErrorKind) (c : Coroutine V X 0 0)
  (scheduler : Scheduler)

/-- The thread `main` calls the coroutine and observes its task; the other threads are there to run
what is queued. -/
def threads (t : T) : Code V X :=
  if t = main then .start kind c scheduler else .ret (.value .void)

/-- The state in which the program begins. -/
def launch : State T (Code V X) V (Error X) := init (threads main kind c scheduler)

end

end Arcana.Coroutines
