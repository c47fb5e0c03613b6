import Arcana.Foundations.Reached
import Arcana.Tasks.Machine

/-!
# The memory of the task machine

The machine never frees a payload. Here it is told which payloads are owned, by the `shared_ptr`s of
the source: those of the user code, which are its tasks and sources (`handles`), those among the
locals of the calls under way (`Scope`), those in the callables that dispatchers hold and in the
continuations that are moved from one call to another, and those inside of payloads
(`Payload.references`). The pointer of a continuation to its parent is a `weak_ptr`, and no
reference. A payload that is not `Alive`, which is not reached from these, is destroyed, or left
over on a cycle of references.

`Memory.step` is a step of the machine, with what begins and ends to be owned. User code uses only
what it has a handle to, and it may drop any handle at any time.

* `Payload.references`, `Scope`, `Frame.carries` and the handles are the owners; `Frame.borrows` are
  the payloads that a call uses without owning them.
* `opened` is the scope of a call that has begun, and `adjust` what a step does to the scopes of a
  stack.
* `Memory.Alive` says that a payload is owned, and `Memory.Outlived` that the objects of user code
  whose member functions are under way are not destroyed.
* `used` and `granted` are the handles that a step of user code uses and gets.
-/

namespace Arcana.Tasks

open Function Foundations

variable {T O U V E : Type*}

/-! ## References -/

/-- The tasks in a result. -/
def resultTasks : Expected V E → List ℕ
  | .ok (.task p) => [p]
  | _ => []

/-- The tasks in what a callable returns. -/
def Return.tasks : Return V E → List ℕ
  | .value v => resultTasks (.ok v : Expected V E)
  | .expected r => resultTasks r
  | .task p => [p]
  | .throws _ => []

namespace Payload

/-- The source in the callable of `task_factory`, until `do_work` clears `Work`. -/
def captured (x : Payload U V E) : List ℕ :=
  match x.work, x.result with
  | some (.unwrap source), none => [source]
  | _, _ => []

/-- **The `shared_ptr`s inside of a payload.** -/
def references (x : Payload U V E) : List ℕ :=
  x.continuation.span.map Continuation.continuation ++ x.taskRedirect.toList ++
    x.result.toList.flatMap resultTasks ++ x.captured

end Payload

namespace Frame

/-- The payloads in the continuations that a call has taken over. -/
def carries : Frame U V E → List ℕ
  | .runAll cs | .addContinuations _ cs => cs.map Continuation.continuation
  | _ => []

/-- The payloads that a call reads or writes through a plain pointer or a `weak_ptr`. -/
def borrows : Frame U V E → List ℕ
  | .user _ | .completing _ => []
  | .run p parent => p :: parent.toList
  | .doWork p | .unwrapping p | .doCompletion p | .holding p => [p]
  | .runAll cs => cs.map Continuation.parent
  | .collapseLeftIntoRight left right => [left, right]
  | .addContinuations p _ => [p]

end Frame

/-- What a call that is under way keeps: the `shared_ptr`s among its locals. If it is a member
function of a task or source of user code, `object` is the payload of it. -/
structure Scope where
  locals : List ℕ := []
  object : Option ℕ := none

/-- **The scope of the call that has begun**, given the stack. -/
def opened : List (Frame U V E) → Scope
  -- the callable that was handed to a scheduler
  | .run p parent :: _ => { locals := p :: parent.toList }
  -- `task_completion_source::complete` and `task::then`
  | .doCompletion p :: .completing _ :: _ => { object := some p }
  | .addContinuations p _ :: .user _ :: _ => { object := some p }
  -- the source in the callable of `task_factory`, and the argument of `cannibalize`
  | .doCompletion source :: .unwrapping _ :: _ => { locals := [source] }
  | .collapseLeftIntoRight source right :: _ => { locals := [source, right] }
  | _ => {}

/-- The scopes after a step: a call has begun, has ended, or goes on. -/
def adjust (scopes : List Scope) (stack stack' : List (Frame U V E)) : List Scope :=
  if stack.length < stack'.length then opened stack' :: scopes
  else if stack'.length < stack.length then scopes.tail
  else scopes

/-! ## The states -/

/-- The machine, with the scopes of the calls on each stack and the handles of user code. -/
structure Memory (T U V E : Type*) where
  state : State T U V E
  scopes : T → List Scope
  handles : List ℕ

namespace Memory

variable (m : Memory T U V E)

/-- Something else than a payload owns the payload. -/
inductive Root (p : ℕ) : Prop
  | handle : p ∈ m.handles → Root p
  | scope {t : T} {c : Scope} : c ∈ m.scopes t → p ∈ c.locals → Root p
  | queue {c : ℕ × Option ℕ} : c ∈ m.state.queue → p ∈ c.1 :: c.2.toList → Root p
  | frame {t : T} {f : Frame U V E} : f ∈ m.state.stack t → p ∈ f.carries → Root p

/-- **The payload is owned.** -/
def Alive (p : ℕ) : Prop := Reached m.Root (fun q p => p ∈ (m.state.heap q).references) p

/-- The objects of user code whose member functions are under way are not destroyed. -/
def Outlived : Prop := ∀ t, ∀ c ∈ m.scopes t, ∀ p ∈ c.object, p ∈ m.handles

end Memory

section

variable (act : U → O → Action U V E) (s : State T U V E) (l : Label T O)

/-- The handles that user code uses. -/
def used : List ℕ :=
  match s.stack l.thread with
  | .user u :: _ =>
    match act u l.oracle with
    | .complete p r _ => p :: resultTasks r
    | .thenDo p .. => [p]
    | .ret r => r.tasks
    | _ => []
  | _ => []

/-- The handles that user code gets: sources and tasks that are made, and the tasks in the result
that a callable is given. -/
def granted : List ℕ :=
  match s.stack l.thread with
  | .user u :: _ =>
    match act u l.oracle with
    | .source _ => [s.next]
    | .makeTask _ _ unwrap _ _ | .thenDo _ _ _ _ unwrap _ _ =>
      [if unwrap then s.next + 1 else s.next]
    | _ => []
  | .run p (some q) :: _ =>
    match (s.heap p).work with
    | some (.continuation ..) => (s.heap q).result.toList.flatMap resultTasks
    | _ => []
  | _ => []

end

namespace Memory

variable [DecidableEq T] [Fintype T] [ErrorTraits E]

/-- **One step**, after which user code has the given handles. -/
def step (act : U → O → Action U V E) (m : Memory T U V E) (l : Label T O × List ℕ) :
    Option (Memory T U V E) :=
  if (∀ p ∈ used act m.state l.1, p ∈ m.handles) ∧
      ∀ p ∈ l.2, p ∈ m.handles ∨ p ∈ granted act m.state l.1 then
    (Tasks.step act m.state l.1).map fun s =>
      { state := s
        scopes := update m.scopes l.1.thread
          (adjust (m.scopes l.1.thread) (m.state.stack l.1.thread) (s.stack l.1.thread))
        handles := l.2 }
  else none

/-- User code destroys no task or source while a member function of it is under way. -/
def Outlives (act : U → O → Action U V E) (m : Memory T U V E) (l : Label T O × List ℕ) : Prop :=
  ∀ m', m.step act l = some m' → m'.Outlived

omit [DecidableEq T] [Fintype T] [ErrorTraits E] in
/-- The beginning: no payload exists. -/
def init (main : T → U) : Memory T U V E where
  state := Tasks.init main
  scopes _ := [{}]
  handles := []

end Memory

end Arcana.Tasks
