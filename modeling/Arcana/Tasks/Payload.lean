import Mathlib.Data.List.Basic
import Mathlib.Logic.Function.Basic
import Mathlib.Data.Option.Basic
import Arcana.Errors.ErrorCode

/-!
# Payloads and their continuations

The data of `internal_task.h`: `base_task_payload` with its list of continuations, which is stored
as a variant of a single `continuation_payload` and a vector of them, its completion flag and its
forwarding address `m_taskRedirect`, and the `Result` and `Work` that `task_payload_with_return` and
`task_payload_with_work` add. A `task`, a `task_completion_source` and a `shared_ptr` to a payload
are its address, a natural number. The functions here are the bodies of the critical sections on one
payload: `cannibalize` and `internal_add_continuations`. What a payload's owner sees of the variant
is `continuation_span`; `span_append` and `span_movedFrom` say what the two functions do to it.
-/

namespace Arcana.Tasks

/-- The scheduler a continuation is put on: `inline_scheduler`, which invokes the callable it is
handed, or a dispatcher, which queues it. -/
inductive Scheduler
  | inlineScheduler
  | dispatcher
  deriving DecidableEq, Repr

/-- The `std::runtime_error`s of `base_task_payload`. -/
inductive RuntimeError
  | completedTwice
  | alreadySpecified
  deriving DecidableEq, Repr

/-- The text a `RuntimeError` is thrown with. -/
def RuntimeError.what : RuntimeError → String
  | .completedTwice => "tried to complete a task twice"
  | .alreadySpecified => "already specified a continuation for the current task"

/-- What the task system needs of an error type: the error that `make_unexpected` makes of
`std::errc::operation_canceled`, and whether `output_wrapper` catches exceptions into it
(`std::exception_ptr`) or lets them terminate the program (`std::error_code`). -/
class ErrorTraits (E : Type*) where
  operationCanceled : E
  catches : Bool

/-- No exception is caught into an `std::error_code`. -/
instance : ErrorTraits ErrorCode := ⟨.operationCanceled, false⟩

/-- A value a payload can hold; the payload of a `task<task<T>>` holds a handle. -/
inductive Value (V : Type*)
  | void
  | val (v : V)
  | task (payload : ℕ)
  deriving DecidableEq, Repr

/-- `basic_expected<T, E>`. -/
abbrev Expected (V E : Type*) := Except E (Value V)

/-- `continuation_payload`: the task whose result is read, the payload to run, and the scheduler it
is handed to. -/
structure Continuation where
  parent : ℕ
  continuation : ℕ
  schedulingFunction : Scheduler
  deriving DecidableEq, Repr

/-- `continuation_payload::reparent`. -/
def Continuation.reparent (c : Continuation) (newParent : ℕ) : Continuation :=
  { c with parent := newParent }

@[simp] theorem Continuation.reparent_parent (c : Continuation) (q : ℕ) :
    (c.reparent q).parent = q := rfl

@[simp] theorem Continuation.reparent_continuation (c : Continuation) (q : ℕ) :
    (c.reparent q).continuation = c.continuation := rfl

@[simp] theorem Continuation.continuation_comp_reparent (q : ℕ) :
    Continuation.continuation ∘ (fun c => c.reparent q) = Continuation.continuation := rfl

/-- The variant `m_continuation`: one `continuation_payload`, which may be null, or a vector. -/
inductive ContinuationStorage
  | single (c : Option Continuation)
  | vector (cs : List Continuation)
  deriving DecidableEq, Repr

namespace ContinuationStorage

/-- `continuation_span`. -/
def span : ContinuationStorage → List Continuation
  | single none => []
  | single (some c) => [c]
  | vector cs => cs

/-- What `std::move` leaves behind: the alternative stays, its content is gone. -/
def movedFrom : ContinuationStorage → ContinuationStorage
  | single _ => single none
  | vector _ => vector []

/-- The variant after `internal_add_continuations`. -/
def append : ContinuationStorage → List Continuation → ContinuationStorage
  | vector ds, cs => vector (ds ++ cs)
  | single none, [c] => single (some c)
  | single none, cs => vector cs
  | single (some d), cs => vector (d :: cs)

@[simp] theorem span_single_none : (single none).span = [] := rfl

@[simp] theorem span_single_some (c : Continuation) : (single (some c)).span = [c] := rfl

@[simp] theorem span_movedFrom (st : ContinuationStorage) : st.movedFrom.span = [] := by
  cases st <;> rfl

/-- **The transitions of the variant do not show**: adding a batch appends it. -/
@[simp] theorem span_append (st : ContinuationStorage) (cs : List Continuation) :
    (st.append cs).span = st.span ++ cs := by
  rcases st with (_ | d) | ds
  · rcases cs with _ | ⟨c, _ | ⟨c', cs⟩⟩ <;> rfl
  · rfl
  · rfl

end ContinuationStorage

/-- The `Work` of a payload, as `make_task`, `task::then` and `task_factory` build it. `U` is the
type of user code that is about to run. -/
inductive Work (U V E : Type*)
  /-- The callable of `make_task`, wrapped. `cancelled` is what `cancel.cancelled()` answers when
  the work begins. -/
  | start (cancelled : Bool) (callable : U)
  /-- The callable of `then`, wrapped by `wrap_callable`. -/
  | continuation (handlesExpected cancelled : Bool) (callable : Expected V E → U)
  /-- The callable that `task_factory` puts on a task of a task, with the stand-in it completes. -/
  | unwrap (source : ℕ)

/-- `task_payload_with_work`, or a bare `task_payload_with_return` when it has no work. -/
structure Payload (U V E : Type*) where
  completed : Bool := false
  work : Option (Work U V E) := none
  continuation : ContinuationStorage := .single none
  taskRedirect : Option ℕ := none
  result : Option (Expected V E) := none

namespace Payload

variable {U V E : Type*}

/-- The payload that `cannibalize` leaves. -/
def cannibalized (x : Payload U V E) (taskRedirect : Option ℕ) : Payload U V E where
  completed := true
  work := x.work
  continuation := x.continuation.movedFrom
  taskRedirect := taskRedirect
  result := x.result

/-- `base_task_payload::cannibalize`: what it throws, or the continuations it takes and the payload
it leaves. -/
def cannibalize (x : Payload U V E) (taskRedirect : Option ℕ) :
    Except RuntimeError (ContinuationStorage × Payload U V E) :=
  if x.completed then .error .completedTwice
  else .ok (x.continuation, x.cannibalized taskRedirect)

/-- `base_task_payload::internal_add_continuations`. -/
def internalAddContinuations (x : Payload U V E) (cs : List Continuation) :
    Except RuntimeError (Payload U V E) :=
  if x.completed then .error .alreadySpecified
  else .ok { x with continuation := x.continuation.append cs }

theorem cannibalize_of_completed {x : Payload U V E} (h : x.completed = true) (q : Option ℕ) :
    x.cannibalize q = .error .completedTwice := by
  rw [cannibalize, if_pos h]

/-- What `cannibalize` does when it does not throw. -/
theorem cannibalize_eq_ok {x x' : Payload U V E} {q : Option ℕ} {st : ContinuationStorage}
    (h : x.cannibalize q = .ok (st, x')) :
    x.completed = false ∧ st = x.continuation ∧
      x' = x.cannibalized q := by
  rw [cannibalize] at h
  split at h
  · cases h
  · rename_i hx
    simp only [Except.ok.injEq, Prod.mk.injEq] at h
    exact ⟨by simpa using hx, h.1.symm, h.2.symm⟩

theorem cannibalize_eq_error {x : Payload U V E} {q : Option ℕ} {e : RuntimeError}
    (h : x.cannibalize q = .error e) : x.completed = true ∧ e = .completedTwice := by
  rw [cannibalize] at h
  split at h
  · rename_i hx
    cases h
    exact ⟨hx, rfl⟩
  · cases h

theorem internalAddContinuations_of_not_completed {x : Payload U V E} (h : x.completed = false)
    (cs : List Continuation) :
    x.internalAddContinuations cs = .ok { x with continuation := x.continuation.append cs } := by
  rw [internalAddContinuations, if_neg (by simp [h])]

end Payload

end Arcana.Tasks
