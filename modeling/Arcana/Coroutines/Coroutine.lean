import Mathlib.Data.Fin.Tuple.Basic
import Arcana.Tasks.Payload

/-!
# Coroutines and what they mean

The coroutines of `coroutine.h`: functions that return a task and wait for tasks with `co_await`. A
body is a tree of what it does next; user code decides with ordinary functions of the values that it
has got. What `co_await configure_await(..)` yields for a `task<T, std::error_code>` is a
`task_awaiter_result`, an object that lives until its scope ends and that wants its error to be
observed (`AwaiterResult`); for a `task<T, std::exception_ptr>` it is the value, or the exception is
rethrown.

`Coroutine.eval` is the direct reading of a body: a call of a coroutine is a call, and `co_await`
yields the result of the task. It knows no schedulers, and it is `none` when an exception would
terminate the program. `Coroutine.count` counts what a body does on the way.

* `Exception` and `Error` are what is thrown and what a task fails with; `handleCoroutineException`
  leads from the one to the other.
* `AwaiterResult` is the object that `co_await` yields, and `unwind` is the end of the scope of some
  of them.
* `Coroutine` are the bodies, `Coroutine.eval` is the direct reading and `Coroutine.count` what is
  counted.
* `Coroutine.coAwaitDiscarded` is `co_await` as a statement of its own.
-/

namespace Arcana.Coroutines

open Tasks

universe u v

/-- An exception: an `unobserved_error`, the `std::runtime_error` of `base_task_payload`, or one of
another class. -/
inductive Exception (X : Type v)
  | unobservedError (error : ErrorCode)
  | runtimeError (error : RuntimeError)
  | other (x : X)
  deriving DecidableEq, Repr

/-- The error of a task: a `std::error_code` or a `std::exception_ptr`. -/
inductive Error (X : Type v)
  | errorCode (error : ErrorCode)
  | exceptionPtr (x : Exception X)
  deriving DecidableEq, Repr

/-- No token is cancelled here, and no callable throws while the program goes on, so that neither
entry is used. -/
instance (X : Type v) : ErrorTraits (Error X) := ⟨.errorCode .operationCanceled, false⟩

variable {V : Type u} {X : Type v}

/-- The exception that an error is thrown as: `unobserved_error`, or what the pointer points to. -/
def Error.raise : Error X → Exception X
  | errorCode error => .unobservedError error
  | exceptionPtr x => x

/-- `HandleCoroutineException`: the error that the coroutine's task is completed with, or `none`
when the program is terminated. -/
def handleCoroutineException : ErrorKind → Exception X → Option (Error X)
  | .errorCode, .unobservedError error => some (.errorCode error)
  | .errorCode, _ => none
  | .exceptionPtr, x => some (.exceptionPtr x)

/-! ## The result of `co_await` -/

/-- `base_task_awaiter_result`. -/
structure AwaiterResult (V : Type u) (X : Type v) where
  expected : Expected V (Error X)
  observed : Bool := false
  deriving DecidableEq

namespace AwaiterResult

/-- What a conversion or a move leaves: an object that need not be observed any more. -/
def observe (a : AwaiterResult V X) : AwaiterResult V X := { a with observed := true }

/-- `operator expected<ResultT, std::error_code>`. -/
def toExpected (a : AwaiterResult V X) : Expected V (Error X) × AwaiterResult V X :=
  (a.expected, a.observe)

/-- `operator ResultT`: an error is thrown. -/
def toValue (a : AwaiterResult V X) : Except (Exception X) (Value V) × AwaiterResult V X :=
  (a.expected.mapError Error.raise, a.observe)

/-- `~base_task_awaiter_result`: an error that was not observed is thrown. -/
def destroy (a : AwaiterResult V X) : Except (Exception X) Unit :=
  if a.observed then .ok ()
  else
    match a.expected with
    | .error e => .error e.raise
    | .ok _ => .ok ()

@[simp] theorem destroy_observe (a : AwaiterResult V X) : a.observe.destroy = .ok () := rfl

/-- The end of the scope: `none` when the destructor throws while an exception is in flight, which
terminates the program. -/
def leave (a : AwaiterResult V X) (unwinding : Bool) : Option (Except (Exception X) Unit) :=
  match a.destroy with
  | .ok () => some (.ok ())
  | .error x => if unwinding then none else some (.error x)

end AwaiterResult

/-- The end of a body: its objects are destroyed, the newest first, with an exception in flight or
without one. The program is terminated, `none`, when a destructor throws while an exception is in
flight; or else this is the exception in flight then. -/
def unwind : Option (Exception X) → List (AwaiterResult V X) → Option (Option (Exception X))
  | inFlight, [] => some inFlight
  | inFlight, a :: as =>
    match a.destroy, inFlight with
    | .ok (), inFlight => unwind inFlight as
    | .error x, none => unwind (some x) as
    | .error _, some _ => none

/-- A list of variables with a new one. -/
def push {α : Type*} {n : ℕ} (x : α) (f : Fin n → α) : Fin (n + 1) → α := Fin.cons x f

/-- The newest variable of a list. -/
abbrev newest {n : ℕ} : Fin (n + 1) := ⟨0, n.succ_pos⟩

@[simp] theorem push_zero {α : Type*} {n : ℕ} (x : α) (f : Fin n → α) : push x f 0 = x := rfl

@[simp] theorem push_succ {α : Type*} {n : ℕ} (x : α) (f : Fin n → α) (i : Fin n) :
    push x f i.succ = f i := rfl

/-- **A coroutine**, as the rest of a body with `n` tasks at hand and `m` objects of class
`task_awaiter_result` in scope; in both lists the newest comes first. -/
inductive Coroutine (V : Type u) (X : Type v) : ℕ → ℕ → Type (max u v)
  /-- `co_return`. -/
  | coReturn {n m : ℕ} (r : Expected V (Error X)) : Coroutine V X n m
  /-- An exception leaves the body. -/
  | throws {n m : ℕ} (x : Exception X) : Coroutine V X n m
  /-- `co_await configure_await(scheduler, task)`, on a `task<T, std::error_code>`. -/
  | coAwait {n m : ℕ} (scheduler : Scheduler) (i : Fin n) (k : Coroutine V X n (m + 1)) :
      Coroutine V X n m
  /-- `co_await configure_await(scheduler, task)`, on a `task<T, std::exception_ptr>`. -/
  | coAwaitValue {n m : ℕ} (scheduler : Scheduler) (i : Fin n)
      (k : Except (Exception X) (Value V) → Coroutine V X n m) : Coroutine V X n m
  /-- A result is converted to an expected. -/
  | toExpected {n m : ℕ} (j : Fin m) (k : Expected V (Error X) → Coroutine V X n m) :
      Coroutine V X n m
  /-- A result is converted to its value. -/
  | toValue {n m : ℕ} (j : Fin m) (k : Except (Exception X) (Value V) → Coroutine V X n m) :
      Coroutine V X n m
  /-- The scope of the newest result ends, on the way to a handler or in the normal course. -/
  | leaveScope {n m : ℕ} (unwinding : Bool) (k : Except (Exception X) Unit → Coroutine V X n m) :
      Coroutine V X n (m + 1)
  /-- `co_await switch_to(scheduler)`. -/
  | switchTo {n m : ℕ} (scheduler : Scheduler) (k : Coroutine V X n m) : Coroutine V X n m
  /-- The call of a coroutine, which gets the tasks at hand. -/
  | call {n m : ℕ} (kind : ErrorKind) (c : Coroutine V X n 0) (k : Coroutine V X (n + 1) m) :
      Coroutine V X n m
  /-- `make_task`, with a callable that returns `r`. -/
  | makeTask {n m : ℕ} (scheduler : Scheduler) (r : Expected V (Error X))
      (k : Coroutine V X (n + 1) m) : Coroutine V X n m
  /-- `task::then`, with a callable that handles an expected. -/
  | thenDo {n m : ℕ} (i : Fin n) (scheduler : Scheduler)
      (callable : Expected V (Error X) → Expected V (Error X)) (k : Coroutine V X (n + 1) m) :
      Coroutine V X n m

namespace Coroutine

/-- **The direct reading of a body**: the result of its task, given the results of the tasks at hand
and the objects in scope. -/
def eval : {n m : ℕ} → Coroutine V X n m → ErrorKind → (Fin n → Expected V (Error X)) →
    (Fin m → AwaiterResult V X) → Option (Expected V (Error X))
  | _, _, coReturn r, _, _, held =>
    match unwind none (List.ofFn held) with
    | some none => some r
    | _ => none
  | _, _, throws x, kind, _, held =>
    match unwind (some x) (List.ofFn held) with
    | some (some x) => (handleCoroutineException kind x).map .error
    | _ => none
  | _, _, coAwait _ i k, kind, values, held => k.eval kind values (push ⟨values i, false⟩ held)
  | _, _, coAwaitValue _ i k, kind, values, held =>
    (k ((values i).mapError Error.raise)).eval kind values held
  | _, _, toExpected j k, kind, values, held =>
    (k (held j).toExpected.1).eval kind values (Function.update held j (held j).toExpected.2)
  | _, _, toValue j k, kind, values, held =>
    (k (held j).toValue.1).eval kind values (Function.update held j (held j).toValue.2)
  | _, _, leaveScope unwinding k, kind, values, held =>
    ((held newest).leave unwinding).bind fun r => (k r).eval kind values (Fin.tail held)
  | _, _, switchTo _ k, kind, values, held => k.eval kind values held
  | _, _, call kind' c k, kind, values, held =>
    (c.eval kind' values Fin.elim0).bind fun r => k.eval kind (push r values) held
  | _, _, makeTask _ r k, kind, values, held => k.eval kind (push r values) held
  | _, _, thenDo i _ callable k, kind, values, held =>
    k.eval kind (push (callable (values i)) values) held

/-- What is counted of the things that a body does. -/
structure Counted where
  leaves : ℕ
  awaits : ℕ
  switches : ℕ
  calls : ℕ
  makes : ℕ
  continues : ℕ

/-- How much a body comes to, with the coroutines that it calls. -/
def count (w : Counted) : {n m : ℕ} → Coroutine V X n m → ErrorKind →
    (Fin n → Expected V (Error X)) → (Fin m → AwaiterResult V X) → ℕ
  | _, _, coReturn _, _, _, _ => w.leaves
  | _, _, throws _, _, _, _ => w.leaves
  | _, _, coAwait _ i k, kind, values, held =>
    w.awaits + k.count w kind values (push ⟨values i, false⟩ held)
  | _, _, coAwaitValue _ i k, kind, values, held =>
    w.awaits + (k ((values i).mapError Error.raise)).count w kind values held
  | _, _, toExpected j k, kind, values, held =>
    (k (held j).toExpected.1).count w kind values (Function.update held j (held j).toExpected.2)
  | _, _, toValue j k, kind, values, held =>
    (k (held j).toValue.1).count w kind values (Function.update held j (held j).toValue.2)
  | _, _, leaveScope unwinding k, kind, values, held =>
    ((held newest).leave unwinding).elim 0 fun r => (k r).count w kind values (Fin.tail held)
  | _, _, switchTo _ k, kind, values, held => w.switches + k.count w kind values held
  | _, _, call kind' c k, kind, values, held =>
    w.calls + c.count w kind' values Fin.elim0 +
      (c.eval kind' values Fin.elim0).elim 0 fun r => k.count w kind (push r values) held
  | _, _, makeTask _ r k, kind, values, held => w.makes + k.count w kind (push r values) held
  | _, _, thenDo i _ callable k, kind, values, held =>
    w.continues + k.count w kind (push (callable (values i)) values) held

/-- Counts the callables that are invoked for a body. -/
@[simps] def Counted.invocations : Counted := ⟨0, 1, 1, 0, 1, 1⟩

/-- Counts the tasks that are made for a body. -/
@[simps] def Counted.tasks : Counted := ⟨0, 0, 0, 1, 1, 1⟩

theorem count_eq_zero {n m : ℕ} (c : Coroutine V X n m) (kind : ErrorKind)
    (values : Fin n → Expected V (Error X)) (held : Fin m → AwaiterResult V X) :
    c.count ⟨0, 0, 0, 0, 0, 0⟩ kind values held = 0 := by
  induction c generalizing kind with
  | coReturn | throws => rfl
  | coAwait _ i k ih | thenDo i _ callable k ih => simp [count, ih]
  | coAwaitValue _ i k ih | toExpected j k ih | toValue j k ih => simp [count, ih]
  | leaveScope unwinding k ih =>
    simp only [count, ih]
    cases (held newest).leave unwinding <;> rfl
  | switchTo _ k ih | makeTask _ r k ih => simp [count, ih]
  | call kind' c k ihc ihk =>
    simp only [count, ihc, ihk]
    cases c.eval kind' values Fin.elim0 <;> rfl

/-! ## The three forms of `co_await` -/

/-- `co_await ..;`, where the result is not used. -/
def coAwaitDiscarded {n m : ℕ} (scheduler : Scheduler) (i : Fin n) (k : Coroutine V X n m) :
    Coroutine V X n m :=
  .coAwait scheduler i (.leaveScope false fun
    | .ok () => k
    | .error x => .throws x)

end Coroutine

end Arcana.Coroutines
