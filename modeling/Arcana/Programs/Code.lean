import Arcana.Programs.Program

/-!
# The code of a program

User code of the task machine that builds a program: the calls of `task_from_result`,
`task_from_error`, `make_task` and `then` in the order in which the expression makes them, and the
callables that are handed to them. `Code.act` is the next call of a piece of code, and `launch` puts
the code of a program on one thread; it ends with the continuation on the final task that observes
the result. `Code.acts` says once what call which piece of code makes.

* `Attachment` is a call of `then` that is still to come, and `Program.attach` a program with such
  calls.
* `Code` is the user code, `Code.act` its next call, and `launch` the threads of a run.
* `Code.Acts` lists the calls, and `Code.acts` says that every piece of code makes the one that the
  list says.
* `Program.Reassociates` says that a program may be cut anywhere into a base and what is attached.
-/

namespace Arcana.Programs

open Tasks

universe u v

variable {V : Type u} {E : Type v} [ErrorTraits E]

/-- A `then` that is still to be called, with its callable and its choices. -/
structure Attachment (V : Type u) (E : Type v) [ErrorTraits E] where
  scheduler : Scheduler
  cancelled : Bool
  handlesExpected : Bool
  unwrap : Bool
  callable : Expected V E → Outcome V E unwrap

namespace Program

/-- The program with one more step. -/
def andThen (p : Program V E) (a : Attachment V E) : Program V E :=
  .thenDo p a.scheduler a.cancelled a.handlesExpected a.unwrap a.callable

/-- The program with more steps. -/
def attach (p : Program V E) (as : List (Attachment V E)) : Program V E := as.foldl andThen p

/-- The part of the cost of `p.attach as` that comes from `as`. -/
def attachCost (p : Program V E) : List (Attachment V E) → ℕ
  | [] => 0
  | a :: as => 14 + (p.andThen a).price + (p.andThen a).attachCost as

@[simp] theorem attach_nil (p : Program V E) : p.attach [] = p := rfl

@[simp] theorem attach_cons (p : Program V E) (a : Attachment V E) (as : List (Attachment V E)) :
    p.attach (a :: as) = (p.andThen a).attach as := rfl

end Program

/-- What a program is built for: its task is returned by a callable, or the result is observed by a
continuation that is put on the given scheduler. -/
inductive Purpose
  | returned
  | observed (scheduler : Scheduler)

/-- User code. -/
inductive Code (V : Type u) (E : Type v) [ErrorTraits E] : Type (max u v)
  /-- Builds `p` and attaches `as` to it. -/
  | build (p : Program V E) (as : List (Attachment V E)) (purpose : Purpose)
  /-- In `task_from_result` or `task_from_error`: completes the source and goes on. -/
  | complete (source : ℕ) (r : Expected V E) (as : List (Attachment V E)) (purpose : Purpose)
  /-- Attaches `as` to a task. -/
  | built (task : ℕ) (as : List (Attachment V E)) (purpose : Purpose)
  | ret (r : Return V E)
  /-- The continuation on the final task. -/
  | observe (r : Expected V E)

/-- The code of a callable. -/
def Outcome.code {unwrap : Bool} : Outcome V E unwrap → Code V E
  | .value v => .ret (.value v)
  | .expected r => .ret (.expected r)
  | .program p => .build p [] .returned
  | .throws e _ => .ret (.throws e)

/-- The first call of the code that builds a program. -/
def Program.begin : Program V E → List (Attachment V E) → Purpose → Action (Code V E) V E
  | .taskFromResult v, as, purpose => .source fun q => .complete q (.ok v) as purpose
  | .taskFromError e, as, purpose => .source fun q => .complete q (.error e) as purpose
  | .makeTask scheduler cancelled unwrap callable, as, purpose =>
    .makeTask scheduler cancelled unwrap callable.code fun q => .built q as purpose
  | .thenDo p scheduler cancelled handlesExpected unwrap callable, as, purpose =>
    p.begin (⟨scheduler, cancelled, handlesExpected, unwrap, callable⟩ :: as) purpose

/-- The next call of user code. -/
def Code.act : Code V E → Unit → Action (Code V E) V E
  | .build p as purpose, _ => p.begin as purpose
  | .complete q r as purpose, _ => .complete q r fun _ => .built q as purpose
  | .built q (a :: as) purpose, _ =>
    .thenDo q a.scheduler a.cancelled a.handlesExpected a.unwrap (fun r => (a.callable r).code)
      fun q => .built q as purpose
  | .built q [] .returned, _ => .ret (.task q)
  | .built q [] (.observed scheduler), _ =>
    .thenDo q scheduler false true false .observe fun _ => .ret (.value .void)
  | .ret r, _ => .ret r
  | .observe r, _ => .emit r (.ret (.value .void))

/-- The thread `main` builds `p` and observes its result; the other threads are there to run what is
queued. -/
def launch {T : Type*} [DecidableEq T] (main : T) (p : Program V E) (scheduler : Scheduler) :
    State T (Code V E) V E :=
  init fun t => if t = main then .build p [] (.observed scheduler) else .ret (.value .void)

/-! ## What code does -/

namespace Program

/-- The work of the last step. -/
def work : Program V E → Option (Work (Code V E) V E)
  | makeTask _ cancelled _ callable => some (.start cancelled callable.code)
  | thenDo _ _ cancelled handlesExpected _ callable =>
    some (.continuation handlesExpected cancelled fun r => (callable r).code)
  | _ => none

/-- The work of `make_task` comes to what the last step does. -/
theorem fate_of_start (p : Program V E) {cancelled : Bool} {u : Code V E}
    (h : p.work = some (.start cancelled u)) :
    wrapCallable false cancelled (fun _ => u) (.ok .void) = p.fate.map id Outcome.code := by
  cases p with
  | makeTask =>
    cases h
    rw [wrapCallable_eq, fate]
    cases gate false cancelled (.ok .void : Expected V E) <;> rfl
  | taskFromResult | taskFromError | thenDo => cases h

/-- The work of `then`, on the value of the antecedent, comes to what the last step does. -/
theorem fate_of_continuation (p : Program V E) {q : Program V E} {handlesExpected cancelled : Bool}
    {u : Expected V E → Code V E} (h : p.work = some (.continuation handlesExpected cancelled u))
    (hq : p.antecedent = some q) :
    wrapCallable handlesExpected cancelled u q.eval = p.fate.map id Outcome.code := by
  cases p with
  | thenDo =>
    cases h
    cases hq
    rw [wrapCallable_eq, fate]
    cases gate handlesExpected cancelled q.eval <;> rfl
  | taskFromResult | taskFromError | makeTask => cases h

/-- `p` with `as` attached is the program `b` with `as'` attached. -/
structure Reassociates (p : Program V E) (as : List (Attachment V E)) (b : Program V E)
    (as' : List (Attachment V E)) : Prop where
  attach : p.attach as = b.attach as'
  cost : p.cost + p.attachCost as = b.cost + b.attachCost as'

end Program

/-- The call that a piece of code makes. -/
inductive Code.Acts : Code V E → Action (Code V E) V E → Prop
  | source {p b : Program V E} {as as' : List (Attachment V E)} {purpose : Purpose}
      {r : Expected V E} : p.Reassociates as b as' → b.fate = .inl r → b.work = none →
      Acts (.build p as purpose) (.source fun q => .complete q r as' purpose)
  | makeTask {p : Program V E} {as as' : List (Attachment V E)} {purpose : Purpose}
      {scheduler : Scheduler} {cancelled unwrap : Bool} {callable : Outcome V E unwrap} :
      p.Reassociates as (.makeTask scheduler cancelled unwrap callable) as' →
      Acts (.build p as purpose)
        (.makeTask scheduler cancelled unwrap callable.code fun q => .built q as' purpose)
  | complete (q : ℕ) (r : Expected V E) (as : List (Attachment V E)) (purpose : Purpose) :
      Acts (.complete q r as purpose) (.complete q r fun _ => .built q as purpose)
  | thenDo (q : ℕ) (a : Attachment V E) (as : List (Attachment V E)) (purpose : Purpose) :
      Acts (.built q (a :: as) purpose)
        (.thenDo q a.scheduler a.cancelled a.handlesExpected a.unwrap
          (fun r => (a.callable r).code) fun q => .built q as purpose)
  | observer (q : ℕ) (scheduler : Scheduler) :
      Acts (.built q [] (.observed scheduler))
        (.thenDo q scheduler false true false .observe fun _ => .ret (.value .void))
  | returned (q : ℕ) : Acts (.built q [] .returned) (.ret (.task q))
  | ret (r : Return V E) : Acts (.ret r) (.ret r)
  | observe (r : Expected V E) : Acts (.observe r) (.emit r (.ret (.value .void)))

/-- The code of `p` makes the call that the leftmost part of `p` begins with. -/
theorem Program.begin_acts {p : Program V E} {as : List (Attachment V E)} (purpose : Purpose) :
    (q : Program V E) → {as' : List (Attachment V E)} → p.Reassociates as q as' →
      Code.Acts (.build p as purpose) (q.begin as' purpose)
  | .taskFromResult _, _, h => .source h rfl rfl
  | .taskFromError _, _, h => .source h rfl rfl
  | .makeTask _ _ _ _, _, h => .makeTask h
  | .thenDo q scheduler cancelled handlesExpected unwrap callable, as', h => by
    let a : Attachment V E := ⟨scheduler, cancelled, handlesExpected, unwrap, callable⟩
    have hcost : p.cost + p.attachCost as = q.cost + q.attachCost (a :: as') := by
      rw [h.cost, cost_thenDo, attachCost, ← add_assoc, ← add_assoc]
      rfl
    exact begin_acts purpose q ⟨h.attach, hcost⟩

/-- **Every piece of code makes the call that the list says.** -/
theorem Code.acts (u : Code V E) : u.Acts (u.act ()) := by
  cases u with
  | build p as purpose => exact Program.begin_acts purpose p ⟨rfl, rfl⟩
  | complete q r as purpose => exact .complete q r as purpose
  | built q as purpose =>
    cases as with
    | cons a as => exact .thenDo q a as purpose
    | nil =>
      cases purpose with
      | returned => exact .returned q
      | observed scheduler => exact .observer q scheduler
  | ret r => exact .ret r
  | observe r => exact .observe r

theorem Code.act_ne_tick (u : Code V E) (i : ℕ) (k : Code V E) : u.act () ≠ .tick i k := by
  intro h
  have hacts := u.acts
  rw [h] at hacts
  cases hacts

/-- The code of a callable whose return type is no task returns what the callable yields. -/
theorem Outcome.code_returns {unwrap : Bool} (o : Outcome V E unwrap) (h : unwrap = false) :
    ∃ r, o.code = .ret r ∧ outputWrapper r = some o.eval := by
  cases o with
  | value v => exact ⟨_, rfl, rfl⟩
  | expected r => exact ⟨_, rfl, rfl⟩
  | program p => cases h
  | throws e catches => exact ⟨_, rfl, if_pos catches⟩

/-- The code of a callable whose return type is a task builds a program, or throws. -/
theorem Outcome.code_unwraps {unwrap : Bool} (o : Outcome V E unwrap) (h : unwrap = true) :
    (∃ p, o.code = .build p [] .returned ∧ o.eval = p.eval ∧ p.cost < o.cost) ∨
      ∃ e, o.code = .ret (.throws e) ∧ o.eval = .error e ∧ ErrorTraits.catches E = true := by
  cases o with
  | value | expected => cases h
  | program p => exact .inl ⟨p, rfl, rfl, Nat.lt_succ_self _⟩
  | throws e catches => exact .inr ⟨e, rfl, rfl, catches⟩

end Arcana.Programs
