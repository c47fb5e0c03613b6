import Mathlib.Logic.Function.Basic
import Arcana.Tasks.Payload

/-!
# The state machine driver

`state_machine.h` and the listeners of `cancellation.h` as a transition system. Every call of
`move_to`, `on` and `cancellation_source::cancel` is an activity with a position; one step takes one
of them through its next critical section, its next completion of a source, or its next reaction to
one. Steps of different calls interleave freely, which covers all threads, all dispatchers and every
order of ticks.

* A completions object of `m_states` is a number. Its sources `StateEntered` and `StateExited` count
  how often they were completed: the first completion completes, a later one throws.
* A continuation of a source, such as the one that hands the work of `on` to its dispatcher, is a
  step of the call it belongs to that is possible once the source is completed.
* A listener is the number of the call that registered it: that of `move_to` is `cancel_exit`, that
  of `on` is `cancel_enter`. The token `none` is `cancellation::none()`.
* Where an assertion of the source fails there is no step.
-/

namespace Arcana.Scheduling

open Function

variable {S C D : Type*}

/-- A `task_completion_source`: how often it was completed, and its `Result`. -/
structure Source (R : Type*) where
  completions : ℕ := 0
  result : Option R := none

/-- `task_completion_source::completed`. -/
def Source.completed {R : Type*} (x : Source R) : Bool := decide (0 < x.completions)

/-- `task_completion_source::complete`, which writes the result before it finds out whether to
throw. -/
def Source.complete {R : Type*} (x : Source R) (r : R) : Source R where
  completions := x.completions + 1
  result := some r

/-- `completions`. -/
structure Completions (D : Type*) where
  StateEntered : Source (Except ErrorCode Unit) := {}
  StateExited : Source (Except ErrorCode D) := {}
  WorkPending : Bool := false

/-- Which source of the completions object `object` is about to be completed, and with what. -/
inductive Completion (D : Type*)
  | entered (object : ℕ) (r : Except ErrorCode Unit)
  | exited (object : ℕ) (r : Except ErrorCode D)

/-- How far a call of `move_to` is. -/
inductive MoveTo (D : Type*)
  /-- It is about to complete `StateEntered`. -/
  | fetched
  /-- It is about to add its listener. -/
  | entered
  /-- `add_listener` is about to call `cancel_exit`. -/
  | cancelling
  /-- `cancel_exit`, called by `add_listener`, is about to complete a source. -/
  | completing (c : Completion D)
  /-- It returned its task, which waits for `StateExited`. -/
  | awaiting
  /-- Its task is completed. -/
  | done
  /-- A completion threw. -/
  | threw

/-- How far a call of `on` is. -/
inductive On (D : Type*)
  /-- It is about to add its listener. -/
  | fetched
  /-- `add_listener` is about to call `cancel_enter`. -/
  | cancelling
  /-- `cancel_enter`, called by `add_listener`, is about to complete a source. -/
  | completing (c : Completion D)
  /-- The task of `enter` waits for `StateEntered`. -/
  | awaiting
  /-- The task of `enter` is completed, and the work is queued on the dispatcher. -/
  | queued
  /-- The callable is running. -/
  | working
  /-- `exit` is about to look for the entry. -/
  | exiting (data : D)
  /-- `exit` is about to complete a source. -/
  | leaving (c : Completion D)
  /-- The call has exited. -/
  | done
  /-- A completion threw. -/
  | threw

/-- How far a call of `cancel` is. -/
inductive Cancel (D : Type*)
  /-- `m_cancellationRequested` is set. -/
  | requested
  /-- `signal_cancelled` is about to call the next of the listeners it copied. -/
  | calling (listeners : List ℕ)
  /-- A callback is about to complete a source. -/
  | completing (listeners : List ℕ) (c : Completion D)
  /-- A completion threw. -/
  | threw

/-- A call, with its arguments, the completions object it fetched and its position. -/
inductive Call (S C D : Type*)
  | moveTo (state : S) (token : Option C) (object : ℕ) (position : MoveTo D)
  | on (state : S) (token : Option C) (object : ℕ) (position : On D)
  | cancel (token : C) (position : Cancel D)

/-- A `state_machine_driver`, with the completions objects it made. -/
structure Driver (S D : Type*) where
  /-- How many completions objects were made. -/
  objects : ℕ
  m_states : S → Option ℕ
  object : ℕ → Completions D
  /-- The key that an object was inserted with. -/
  home : ℕ → Option S

namespace Driver

variable [DecidableEq S]

/-- Inserts a fresh completions object. -/
@[simps] def insert (d : Driver S D) (state : S) : Driver S D where
  objects := d.objects + 1
  m_states := update d.m_states state (some d.objects)
  object := update d.object d.objects {}
  home := update d.home d.objects (some state)

/-- `fetch_state`. -/
def fetchState (d : Driver S D) (state : S) : Driver S D × ℕ :=
  match d.m_states state with
  | none => (d.insert state, d.objects)
  | some k => (d, k)

/-- `m_states.erase(found)`. -/
@[simps] def erase (d : Driver S D) (state : S) : Driver S D :=
  { d with m_states := update d.m_states state none }

/-- The completions object `k` becomes `x`. -/
@[simps] def setObject (d : Driver S D) (k : ℕ) (x : Completions D) : Driver S D :=
  { d with object := update d.object k x }

/-- `WorkPending = true`. -/
def setWorkPending (d : Driver S D) (k : ℕ) : Driver S D :=
  d.setObject k { d.object k with WorkPending := true }

/-- The completion: the driver it leaves, and whether it threw. -/
def complete (d : Driver S D) : Completion D → Driver S D × Bool
  | .entered k r =>
    (d.setObject k { d.object k with StateEntered := (d.object k).StateEntered.complete r },
      (d.object k).StateEntered.completed)
  | .exited k r =>
    (d.setObject k { d.object k with StateExited := (d.object k).StateExited.complete r },
      (d.object k).StateExited.completed)

/-- The critical section of `cancel_enter`: the entry it takes. -/
def cancelEnter (d : Driver S D) (state : S) : Option ℕ :=
  (d.m_states state).filter fun k => !(d.object k).StateEntered.completed

/-- The critical section of `cancel_exit`: the entry it takes. -/
def cancelExit (d : Driver S D) (state : S) : Option ℕ :=
  (d.m_states state).filter fun k => !(d.object k).StateExited.completed

/-- The critical section of `exit`: the entry it takes. -/
def exit (d : Driver S D) (state : S) : Option ℕ := d.m_states state

end Driver

/-- `operation_canceled`. -/
def canceled {R : Type*} : Except ErrorCode R := .error .operationCanceled

/-- The state of a driver, of the tokens, and of the calls. The last two fields are histories. -/
structure State (S C D : Type*) where
  driver : Driver S D
  /-- How many calls were made. -/
  calls : ℕ
  call : ℕ → Option (Call S C D)
  m_cancellationRequested : C → Bool
  m_signaled : C → Bool
  m_listeners : C → List ℕ
  /-- The works that ran, by the call of `on`, with the data they wrote. -/
  worked : List (ℕ × D)
  /-- The calls of `move_to` whose tasks completed, in that order. -/
  returned : List ℕ

namespace State

variable [DecidableEq C]

/-- The call `a` is at `x`. -/
@[simps] def setCall (s : State S C D) (a : ℕ) (x : Call S C D) : State S C D :=
  { s with call := update s.call a (some x) }

/-- A new call. -/
@[simps] def newCall (s : State S C D) (x : Call S C D) : State S C D :=
  { s with calls := s.calls + 1, call := update s.call s.calls (some x) }

/-- The driver becomes `d`. -/
@[simps] def setDriver (s : State S C D) (d : Driver S D) : State S C D := { s with driver := d }

/-- `internal_add_listener`: the listener is registered, and called when the token is signaled. -/
def addListener (s : State S C D) (a : ℕ) : Option C → State S C D × Bool
  | none => (s, false)
  | some c => ({ s with m_listeners := update s.m_listeners c (s.m_listeners c ++ [a]) },
      s.m_signaled c)

/-- `listener.reset()`. -/
def resetListener (s : State S C D) (a : ℕ) : Option C → State S C D
  | none => s
  | some c => { s with m_listeners := update s.m_listeners c ((s.m_listeners c).erase a) }

/-- `signal_cancelled` up to its loop: the listeners, in the order they are called. -/
def signalCancelled (s : State S C D) (c : C) : State S C D × List ℕ :=
  ({ s with m_signaled := update s.m_signaled c true }, (s.m_listeners c).reverse)

/-- `cancelled()`. -/
def cancelled (s : State S C D) : Option C → Bool
  | none => false
  | some c => s.m_cancellationRequested c

end State

section step

variable [DecidableEq S] [DecidableEq C] [Inhabited D]

/-- A step of the call `a` of `move_to`. -/
def stepMoveTo (s : State S C D) (a : ℕ) (state : S) (token : Option C) (k : ℕ) :
    MoveTo D → Option (State S C D)
  | .fetched =>
    let (d, threw) := s.driver.complete (.entered k (.ok ()))
    some ((s.setDriver d).setCall a (.moveTo state token k (if threw then .threw else .entered)))
  | .entered =>
    let (s, signaled) := s.addListener a token
    some (s.setCall a (.moveTo state token k (if signaled then .cancelling else .awaiting)))
  | .cancelling =>
    match s.driver.cancelExit state with
    | none => some (s.setCall a (.moveTo state token k .awaiting))
    | some k' => some ((s.setDriver (s.driver.erase state)).setCall a
        (.moveTo state token k (.completing (.exited k' canceled))))
  | .completing c =>
    let (d, threw) := s.driver.complete c
    some ((s.setDriver d).setCall a (.moveTo state token k (if threw then .threw else .awaiting)))
  | .awaiting =>
    if (s.driver.object k).StateExited.completed then
      some ({ s.resetListener a token with returned := s.returned ++ [a] }.setCall a
        (.moveTo state token k .done))
    else none
  | .done | .threw => none

/-- A step of the call `a` of `on`; `data` is what its callable writes. -/
def stepOn (s : State S C D) (a : ℕ) (data : D) (state : S) (token : Option C) (k : ℕ) :
    On D → Option (State S C D)
  | .fetched =>
    let (s, signaled) := s.addListener a token
    some (s.setCall a (.on state token k (if signaled then .cancelling else .awaiting)))
  | .cancelling =>
    match s.driver.cancelEnter state with
    | none => some (s.setCall a (.on state token k .awaiting))
    | some k' => some ((s.setDriver (s.driver.erase state)).setCall a
        (.on state token k (.completing (.entered k' canceled))))
  | .completing c =>
    let (d, threw) := s.driver.complete c
    some ((s.setDriver d).setCall a (.on state token k (if threw then .threw else .awaiting)))
  | .awaiting =>
    if (s.driver.object k).StateEntered.completed then
      some ((s.resetListener a token).setCall a (.on state token k .queued))
    else none
  | .queued =>
    match (s.driver.object k).StateEntered.result with
    | some (.ok ()) => some (s.setCall a
        (.on state token k (if s.cancelled token then .exiting default else .working)))
    | _ => some (s.setCall a (.on state token k (.exiting default)))
  | .working => some ({ s with worked := s.worked ++ [(a, data)] }.setCall a
      (.on state token k (.exiting data)))
  | .exiting data =>
    match s.driver.exit state with
    | none => some (s.setCall a (.on state token k .done))
    | some k' => some ((s.setDriver (s.driver.erase state)).setCall a
        (.on state token k (.leaving (.exited k' (.ok data)))))
  | .leaving c =>
    let (d, threw) := s.driver.complete c
    some ((s.setDriver d).setCall a (.on state token k (if threw then .threw else .done)))
  | .done | .threw => none

/-- The critical section of the listener of `owner`: the state it looks up, and the completion it
goes on to when it takes an entry. -/
def listener (s : State S C D) (owner : ℕ) : Option (S × Completion D) :=
  match s.call owner with
  | some (.moveTo state _ _ _) =>
    (s.driver.cancelExit state).map fun k => (state, .exited k canceled)
  | some (.on state _ _ _) =>
    (s.driver.cancelEnter state).map fun k => (state, .entered k canceled)
  | _ => none

/-- A step of the call `a` of `cancel`. -/
def stepCancel (s : State S C D) (a : ℕ) (token : C) : Cancel D → Option (State S C D)
  | .requested =>
    let (s, listeners) := s.signalCancelled token
    some (s.setCall a (.cancel token (.calling listeners)))
  | .calling [] => none
  | .calling (owner :: listeners) =>
    match listener s owner with
    | none => some (s.setCall a (.cancel token (.calling listeners)))
    | some (state, c) => some ((s.setDriver (s.driver.erase state)).setCall a
        (.cancel token (.completing listeners c)))
  | .completing listeners c =>
    let (d, threw) := s.driver.complete c
    some ((s.setDriver d).setCall a (.cancel token (if threw then .threw else .calling listeners)))
  | .threw => none

/-- What decides a step. -/
inductive Label (S C D : Type*)
  | moveTo (state : S) (token : Option C)
  | on (state : S) (token : Option C)
  | cancel (token : C)
  /-- The call goes on; `data` is what a callable writes. -/
  | proceed (call : ℕ) (data : D)

/-- **The step function of the driver.** -/
def step (s : State S C D) : Label S C D → Option (State S C D)
  | .moveTo state token =>
    let (d, k) := s.driver.fetchState state
    some ((s.setDriver d).newCall (.moveTo state token k .fetched))
  | .on state token =>
    let (d, k) := s.driver.fetchState state
    -- assert(!completion.WorkPending)
    if (d.object k).WorkPending then none
    else some ((s.setDriver (d.setWorkPending k)).newCall (.on state token k .fetched))
  | .cancel token =>
    if s.m_cancellationRequested token then some s
    else some ({ s with
      m_cancellationRequested := update s.m_cancellationRequested token true }.newCall
        (.cancel token .requested))
  | .proceed a data =>
    match s.call a with
    | some (.moveTo state token k position) => stepMoveTo s a state token k position
    | some (.on state token k position) => stepOn s a data state token k position
    | some (.cancel token position) => stepCancel s a token position
    | none => none

end step

/-- No state has an entry, no token is cancelled and no call was made. -/
def init : State S C D where
  driver :=
    { objects := 0, m_states := fun _ => none, object := fun _ => {}, home := fun _ => none }
  calls := 0
  call _ := none
  m_cancellationRequested _ := false
  m_signaled _ := false
  m_listeners _ := []
  worked := []
  returned := []

end Arcana.Scheduling
