import Arcana.Coroutines.Meaning

/-!
# Coroutines that are written like functions

What `coroutine.h` is for: a coroutine calls another one, awaits its task, and uses the value or
handles the exception, as a function that calls a function does. `Routine` is such code.
`Routine.run` reads it as functions that call each other, where only the errors that the tasks can
carry may leave a function; and `Routine.body` writes it as coroutines: a result is converted to its
value and its temporary is destroyed, or it is discarded, or it is kept as an expected. In every run
the task of a routine that has a meaning as a function is completed with it
(`routines_run_as_functions`).

* `Routine` is the code, `Routine.run` the function and `Routine.coroutine` the coroutine that are
  read from it.
* `Routine.useResult` is a `co_await` whose result is converted at once.
* `Routine.eval_body` says, by induction on the code, that a body comes to what the routine does as
  a function.
* `routines_run_as_functions` is the result about runs. It is about the promise types of the branch
  of the source without `__clang__`, as those of the other modules are.
-/

namespace Arcana.Coroutines

open Function Foundations Tasks

universe u v

variable {V : Type u} {X : Type v}

/-- **Code that awaits the tasks of other routines.** A handler does not await. -/
inductive Routine (V : Type u) (X : Type v) : Type (max u v)
  | ret (v : Value V)
  | throw (x : Exception X)
  /-- `T v = co_await configure_await(scheduler, f())`, or without the variable when it is
  discarded. -/
  | await (kind : ErrorKind) (f : Routine V X) (scheduler : Scheduler) (discarded : Bool)
  /-- `expected<T, std::error_code> r = co_await configure_await(scheduler, f())`. -/
  | inspect (f : Routine V X) (scheduler : Scheduler) (k : Expected V (Error X) → Routine V X)
  /-- `co_await switch_to(scheduler)`. -/
  | switchTo (scheduler : Scheduler)
  /-- `try { .. } catch (..) { .. }`. -/
  | tryCatch (f : Routine V X) (handler : Exception X → Except (Exception X) (Value V))
  /-- The value of `f` is used by what comes after. -/
  | bind (f : Routine V X) (k : Value V → Routine V X)

/-- What a function returns or throws. -/
abbrev Outcome (V : Type u) (X : Type v) := Except (Exception X) (Value V)

/-- What the task of a coroutine is completed with, or `none` when the program is terminated. -/
def completion (kind : ErrorKind) : Outcome V X → Option (Expected V (Error X))
  | .ok v => some (.ok v)
  | .error x => (handleCoroutineException kind x).map .error

/-- The exceptions that may leave a function: all of them, or only an `unobserved_error`. -/
def ErrorKind.admits : ErrorKind → Outcome V X → Bool
  | .exceptionPtr, _ | .errorCode, .ok _ | .errorCode, .error (.unobservedError _) => true
  | .errorCode, .error _ => false

/-- What is left of a value that is not used. -/
def discard (discarded : Bool) (v : Value V) : Value V := if discarded then .void else v

namespace Routine

/-- **The routine as a function**: what it returns or throws, or `none` when the program is
terminated. -/
def run : Routine V X → Option (Outcome V X)
  | ret v => some (.ok v)
  | throw x => some (.error x)
  | await kind f _ discarded =>
    f.run.bind fun y => if ErrorKind.admits kind y then some (y.map (discard discarded)) else none
  | inspect f _ k => f.run.bind fun
    | .ok v => (k (.ok v)).run
    | .error (.unobservedError error) => (k (.error (.errorCode error))).run
    | .error _ => none
  | switchTo _ => some (.ok .void)
  | tryCatch f handler => f.run.map fun
    | .ok v => .ok v
    | .error x => handler x
  | bind f k => f.run.bind fun
    | .ok v => (k v).run
    | .error x => some (.error x)

/-- What comes after a part of a body, whatever tasks are at hand. -/
abbrev Rest (V : Type u) (X : Type v) (α : Type*) := (n : ℕ) → α → Coroutine V X n 0

/-- `T v = co_await ..`, on a `task<T, std::error_code>`: the result is converted and its temporary
is destroyed, or it is destroyed only. -/
def useResult {n : ℕ} (discarded : Bool) (k : Value V → Coroutine V X n 0)
    (handler : Exception X → Coroutine V X n 0) : Coroutine V X n 1 :=
  if discarded then
    .leaveScope false fun
      | .ok () => k .void
      | .error x => handler x
  else
    .toValue newest fun
      | .ok v => .leaveScope false fun
        | .ok () => k v
        | .error x => handler x
      | .error x => .leaveScope true fun _ => handler x

/-- The body, with what comes after it and what handles its exceptions. -/
def body : Routine V X → Rest V X (Value V) → Rest V X (Exception X) → (n : ℕ) → Coroutine V X n 0
  | ret v, k, _, n => k n v
  | throw x, _, handler, n => handler n x
  | await .errorCode f scheduler discarded, k, handler, n =>
    .call .errorCode (f.body (fun _ v => .coReturn (.ok v)) (fun _ x => .throws x) n)
      (.coAwait scheduler newest (useResult discarded (k (n + 1)) (handler (n + 1))))
  | await .exceptionPtr f scheduler discarded, k, handler, n =>
    .call .exceptionPtr (f.body (fun _ v => .coReturn (.ok v)) (fun _ x => .throws x) n)
      (.coAwaitValue scheduler newest fun
        | .ok v => k (n + 1) (discard discarded v)
        | .error x => handler (n + 1) x)
  | inspect f scheduler k', k, handler, n =>
    .call .errorCode (f.body (fun _ v => .coReturn (.ok v)) (fun _ x => .throws x) n)
      (.coAwait scheduler newest (.toExpected newest fun r => .leaveScope false fun
        | .ok () => (k' r).body k handler (n + 1)
        | .error x => handler (n + 1) x))
  | switchTo scheduler, k, _, n => .switchTo scheduler (k n .void)
  | tryCatch f handler', k, handler, n =>
    f.body k (fun n x => match handler' x with
      | .ok v => k n v
      | .error x => handler n x) n
  | bind f k', k, handler, n => f.body (fun n v => (k' v).body k handler n) handler n

/-- **The routine as a coroutine.** -/
def coroutine (f : Routine V X) (n : ℕ) : Coroutine V X n 0 :=
  f.body (fun _ v => .coReturn (.ok v)) (fun _ x => .throws x) n

/-- How a body goes on after a part that has ended so. -/
def goOn {α : Type*} (k : Value V → Option α) (handler : Exception X → Option α) :
    Outcome V X → Option α
  | .ok v => k v
  | .error x => handler x

section

variable {kind : ErrorKind} {k : Rest V X (Value V)} {handler : Rest V X (Exception X)}
  {K : Value V → Option (Expected V (Error X))} {H : Exception X → Option (Expected V (Error X))}

/-- The rest of a body that comes to the same whatever tasks are at hand. -/
def Rest.Means {α : Type*} (kind : ErrorKind) (k : Rest V X α)
    (K : α → Option (Expected V (Error X))) : Prop :=
  ∀ n values a, (k n a).eval kind values Fin.elim0 = K a

theorem Rest.Means.eq {α : Type*} {k : Rest V X α} {K : α → Option (Expected V (Error X))}
    (h : Rest.Means kind k K) {n : ℕ} (values : Fin n → Expected V (Error X))
    (held : Fin 0 → AwaiterResult V X) (a : α) : (k n a).eval kind values held = K a :=
  Subsingleton.elim Fin.elim0 held ▸ h n values a

theorem means_coReturn (kind : ErrorKind) :
    Rest.Means (V := V) (X := X) kind (fun _ v => .coReturn (.ok v)) fun v => some (.ok v) :=
  fun _ _ _ => rfl

theorem means_throws (kind : ErrorKind) : Rest.Means (V := V) (X := X) kind (fun _ x => .throws x)
    fun x => (handleCoroutineException kind x).map .error :=
  fun _ _ _ => rfl

/-- The task of a coroutine that ends so. -/
theorem completion_eq (y : Outcome V X) :
    completion kind y =
      goOn (fun v => some (.ok v)) (fun x => (handleCoroutineException kind x).map .error) y := by
  cases y <;> rfl

/-- A result is used, or it is thrown. -/
theorem eval_useResult (discarded : Bool) (hk : Rest.Means kind k K)
    (hh : Rest.Means kind handler H) {n : ℕ} (values : Fin n → Expected V (Error X))
    (r : Expected V (Error X)) :
    (useResult discarded (k n) (handler n)).eval kind values (push ⟨r, false⟩ Fin.elim0) =
      goOn (K ∘ discard discarded) H (r.mapError Error.raise) := by
  cases discarded with
  | true =>
    cases r with
    | ok v => exact hk.eq values _ .void
    | error e => exact hh.eq values _ e.raise
  | false =>
    cases r with
    | ok v => exact hk.eq values _ v
    | error e => exact hh.eq values _ e.raise

/-- **A body comes to what the routine does as a function.** -/
theorem eval_body (f : Routine V X) (hk : Rest.Means kind k K) (hh : Rest.Means kind handler H) :
    Rest.Means kind (fun n (_ : Unit) => f.body k handler n) fun _ => f.run.bind (goOn K H) := by
  induction f generalizing kind k handler K H with
  | ret v => exact fun n values _ => hk n values v
  | throw x => exact fun n values _ => hh n values x
  | await kind' f scheduler discarded ih =>
    intro n values _
    have hcall := ih (means_coReturn kind') (means_throws kind') n values ()
    cases kind' with
    | errorCode =>
      simp only [body, Coroutine.eval, hcall, run]
      obtain _ | (x | v) := f.run
      · rfl
      · cases x with
        | unobservedError error => exact eval_useResult discarded hk hh _ _
        | runtimeError | other => rfl
      · exact eval_useResult discarded hk hh _ _
    | exceptionPtr =>
      simp only [body, Coroutine.eval, hcall, run]
      obtain _ | (x | v) := f.run
      · rfl
      · exact hh (n + 1) _ x
      · exact hk (n + 1) _ (discard discarded v)
  | inspect f scheduler k' ihf ihk =>
    intro n values _
    have hcall := ihf (means_coReturn .errorCode) (means_throws .errorCode) n values ()
    simp only [body, Coroutine.eval, hcall, run]
    obtain _ | (x | v) := f.run
    · rfl
    · cases x with
      | unobservedError error =>
        exact Rest.Means.eq (ihk (.error (.errorCode error)) hk hh) _ _ ()
      | runtimeError | other => rfl
    · exact Rest.Means.eq (ihk (.ok v) hk hh) _ _ ()
  | switchTo scheduler => exact fun n values _ => hk n values .void
  | tryCatch f handler' ih =>
    intro n values _
    have hhandler : Rest.Means kind (fun n x => match handler' x with
        | .ok v => k n v
        | .error x => handler n x) fun x => goOn K H (handler' x) := by
      intro n values x
      cases hx : handler' x with
      | ok v => simpa only [hx, goOn] using hk n values v
      | error x => simpa only [hx, goOn] using hh n values x
    refine (ih hk hhandler n values ()).trans ?_
    simp only [run]
    obtain _ | (x | v) := f.run <;> rfl
  | bind f k' ihf ihk =>
    intro n values _
    have hrest : Rest.Means kind (fun n v => (k' v).body k handler n)
        fun v => (k' v).run.bind (goOn K H) := fun n values v => ihk v hk hh n values ()
    refine (ihf hrest hh n values ()).trans ?_
    simp only [run]
    obtain _ | (x | v) := f.run <;> rfl

/-- **A coroutine completes its task with what the routine does as a function.** -/
theorem eval_coroutine (f : Routine V X) (kind : ErrorKind) (n : ℕ)
    (values : Fin n → Expected V (Error X)) :
    (f.coroutine n).eval kind values Fin.elim0 = f.run.bind (completion kind) := by
  have hbody := eval_body f (means_coReturn kind) (means_throws kind) n values ()
  refine hbody.trans (congrArg f.run.bind ?_)
  funext y
  exact (completion_eq y).symm

end

end Routine

/-- **Routines run as functions, whatever the schedulers do.** In every run of the coroutine of a
routine that returns or throws as a function something that its task can carry: the program is never
terminated, the continuation on the task sees this or nothing yet, no run goes on for ever, and
where it ends nothing is under way or queued, the result was seen, and every task is completed. -/
theorem routines_run_as_functions {T : Type*} [DecidableEq T] [Fintype T] {t₀ : T}
    {kind : ErrorKind} {f : Routine V X} {scheduler : Scheduler} {r : Expected V (Error X)}
    (hr : f.run.bind (completion kind) = some r) {s : State T (Code V X) V (Error X)}
    (h : Reach (step Code.act) anyStep (launch t₀ kind (f.coroutine 0) scheduler) s) :
    (∀ t u, .user u ∈ s.stack t → Code.act u () ≠ Code.terminates) ∧
      (s.emitted = [] ∨ s.emitted = [r]) ∧
      Acc (fun b a => ∃ l, step Code.act a l = some b) s ∧
      ((∀ l, step Code.act s l = none) → (∀ t, s.stack t = []) ∧ s.queue = [] ∧
        s.emitted = [r] ∧ ∀ p < s.next, (s.heap p).completed = true) := by
  have : Nonempty T := ⟨t₀⟩
  have heval := (f.eval_coroutine kind 0 Fin.elim0).trans hr
  obtain ⟨hsafe, hseen, hends, hfinished⟩ :=
    answers_of_outcome ((discipline_sound r).outcome (threads_launches heval) h)
  exact ⟨hsafe, hseen, hends, hfinished⟩

/-- A failure that goes through two routines to the handler of a third one. -/
def handled : Routine ℕ Empty :=
  .bind
    (.tryCatch
      (.await .errorCode
        (.await .exceptionPtr (.throw (.unobservedError .operationCanceled)) .dispatcher false)
        .inlineScheduler true)
      fun _ => .ok (.val 1))
    fun v => .bind (.switchTo .dispatcher) fun _ => .ret v

/-- The run of `handled` on one thread. -/
theorem routines_run_as_functions_handled :
    ∃ s : State Unit (Code ℕ Empty) ℕ (Error Empty),
      Reach (step Code.act) anyStep
        (launch () .errorCode (handled.coroutine 0) .inlineScheduler) s ∧
        (∀ l, step Code.act s l = none) ∧ s.emitted = [.ok (.val 1)] := by
  have hrun : (run (step Code.act) (launch () .errorCode (handled.coroutine 0) .inlineScheduler)
      (List.replicate 46 ⟨(), (), 0⟩)).map (fun s => ((s.stack ()).length, s.queue)) =
      some (0, []) := by decide
  obtain ⟨s, hreach, h⟩ := exists_reach_of_run hrun
  have hstack : s.stack () = [] := List.length_eq_zero_iff.1 (Prod.mk.inj h).1
  have hqueue : s.queue = [] := (Prod.mk.inj h).2
  have hstuck (l : Label Unit Unit) : step Code.act s l = none := by
    simp [step, hstack, stepThread, stepIdle, hqueue]
  have hmeans : handled.run.bind (completion .errorCode) = some (.ok (.val 1)) := by decide +kernel
  obtain ⟨-, -, hemitted, -⟩ := (routines_run_as_functions hmeans hreach).2.2.2 hstuck
  exact ⟨s, hreach, hstuck, hemitted⟩

end Arcana.Coroutines
