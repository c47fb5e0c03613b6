import Arcana.Tasks.Machine

/-!
# Task programs and what they mean

The language of programs that are built from `task_from_result`, `task_from_error`, `make_task` and
`task::then`, whose callables are pure: they return a value, an expected or a freshly built program
of the language, or throw. A program carries the choices that its run depends on, the scheduler of
every step and whether the step finds its token cancelled when it begins; a program that a callable
returns carries its own.

`Program.eval` is the reference evaluator, which knows no schedulers, payloads or redirects. `gate`
is its rule for a step: what the step comes to when its callable is not invoked, or what the
callable is invoked on. `Program.cost` bounds the work of a program; it goes along the evaluation,
and makes the program that a callable returns smaller than the program of the callable.

* `Program` and `Outcome` are the programs, and what their callables do.
* `Program.eval` and `Outcome.eval` are the reference evaluator, `Program.cost` and `Program.calls`
  go along it.
* `Program.fate` and `Program.antecedent` take a program apart at its last step:
  `Program.eval_eq_fate` says what it comes to, and `cost_of_invoked` and `cost_lt_of_antecedent`
  that the parts cost less.
* `Program.Replaces` and `Program.Unfolds` relate a program to those that its callables return.
-/

namespace Arcana.Programs

open Tasks

universe u v

mutual

/-- A program. The callable of `makeTask` takes nothing, and is given by its outcome. The callable
of `thenDo` is an expected-handler or, when `handlesExpected` is not set, a value-handler, which is
only invoked on values. `unwrap` says that the return type of the callable is a task. -/
inductive Program (V : Type u) (E : Type v) [ErrorTraits E] : Type (max u v)
  | taskFromResult (v : Value V)
  | taskFromError (e : E)
  | makeTask (scheduler : Scheduler) (cancelled unwrap : Bool) (callable : Outcome V E unwrap)
  | thenDo (p : Program V E) (scheduler : Scheduler) (cancelled handlesExpected unwrap : Bool)
      (callable : Expected V E → Outcome V E unwrap)

/-- What a callable does, by whether its return type is a task. It throws only when the error type
is one that exceptions are caught into. -/
inductive Outcome (V : Type u) (E : Type v) [ErrorTraits E] : Bool → Type (max u v)
  | value (v : Value V) : Outcome V E false
  | expected (r : Expected V E) : Outcome V E false
  | program (p : Program V E) : Outcome V E true
  | throws {unwrap : Bool} (e : E) (catches : ErrorTraits.catches E = true) : Outcome V E unwrap

end

variable {V : Type u} {E : Type v} [ErrorTraits E]

/-- What a step with the given input comes to when its callable is not invoked, on the left, or what
the callable is invoked on. A value-handler lets an error pass, even when the step is cancelled; any
other step that is cancelled yields `operation_canceled`. -/
def gate (handlesExpected cancelled : Bool) (input : Expected V E) :
    Expected V E ⊕ Expected V E :=
  match handlesExpected, input with
  | false, .error e => .inl (.error e)
  | _, input => if cancelled then .inl (.error ErrorTraits.operationCanceled) else .inr input

mutual

/-- **The reference evaluator**: the result of the final task. -/
def Program.eval : Program V E → Expected V E
  | .taskFromResult v => .ok v
  | .taskFromError e => .error e
  | .makeTask _ cancelled _ callable =>
    match gate false cancelled (.ok .void : Expected V E) with
    | .inl r => r
    | .inr _ => callable.eval
  | .thenDo p _ cancelled handlesExpected _ callable =>
    match gate handlesExpected cancelled p.eval with
    | .inl r => r
    | .inr input => (callable input).eval

/-- What a callable yields; a program that it returns is flattened. -/
def Outcome.eval {unwrap : Bool} : Outcome V E unwrap → Expected V E
  | .value v => .ok v
  | .expected r => r
  | .program p => p.eval
  | .throws e _ => .error e

end

mutual

/-- A bound on the work of building and running a program. -/
def Program.cost : Program V E → ℕ
  | .taskFromResult _ => 5
  | .taskFromError _ => 5
  | .makeTask _ cancelled _ callable =>
    match gate false cancelled (.ok .void : Expected V E) with
    | .inl _ => 14
    | .inr _ => 14 + callable.cost
  | .thenDo p _ cancelled handlesExpected _ callable =>
    match gate handlesExpected cancelled p.eval with
    | .inl _ => p.cost + 17
    | .inr input => p.cost + 17 + (callable input).cost

/-- A bound on the work of a callable. -/
def Outcome.cost {unwrap : Bool} : Outcome V E unwrap → ℕ
  | .program p => p.cost + 1
  | _ => 1

end

mutual

/-- How many callables the evaluator invokes. -/
def Program.calls : Program V E → ℕ
  | .taskFromResult _ => 0
  | .taskFromError _ => 0
  | .makeTask _ cancelled _ callable =>
    match gate false cancelled (.ok .void : Expected V E) with
    | .inl _ => 0
    | .inr _ => 1 + callable.calls
  | .thenDo p _ cancelled handlesExpected _ callable =>
    match gate handlesExpected cancelled p.eval with
    | .inl _ => p.calls
    | .inr input => p.calls + (1 + (callable input).calls)

/-- How many callables the evaluator invokes to flatten what a callable returns. -/
def Outcome.calls {unwrap : Bool} : Outcome V E unwrap → ℕ
  | .program p => p.calls
  | _ => 0

end

example :
    (Program.thenDo (.taskFromError ⟨5, .generic⟩ : Program ℕ ErrorCode) .dispatcher true
      false false fun _ => .value .void).eval = .error ⟨5, .generic⟩ := rfl

example :
    (Program.thenDo (.taskFromError ⟨5, .generic⟩ : Program ℕ ErrorCode) .dispatcher true
      true false fun _ => .value .void).eval = .error .operationCanceled := rfl

example : (Program.makeTask .dispatcher false true (.program (.thenDo (.taskFromResult (.val 1))
    .inlineScheduler false true false fun r => .expected r)) : Program ℕ ErrorCode).eval =
      .ok (.val 1) := rfl

/-- A step that does not invoke its callable settles for an error. -/
theorem exists_error_of_gate {handlesExpected cancelled : Bool} {input r : Expected V E}
    (h : gate handlesExpected cancelled input = .inl r) : ∃ e, r = .error e := by
  unfold gate at h
  split at h
  · cases h
    exact ⟨_, rfl⟩
  · split at h
    · cases h
      exact ⟨_, rfl⟩
    · cases h

/-- `wrap_callable` does as the rule says. -/
theorem wrapCallable_eq {U : Type*} (handlesExpected cancelled : Bool) (callable : Expected V E → U)
    (input : Expected V E) : wrapCallable handlesExpected cancelled callable input =
      (gate handlesExpected cancelled input).map id callable := by
  rcases input with e | v <;> cases handlesExpected <;> cases cancelled <;> rfl

namespace Program

/-- The return type of the callable of the last step is a task. -/
def unwraps : Program V E → Bool
  | taskFromResult _ => false
  | taskFromError _ => false
  | makeTask _ _ unwrap _ => unwrap
  | thenDo _ _ _ _ unwrap _ => unwrap

/-- What the last step comes to: its result, when no callable is invoked, or what its callable
does. -/
def fate : (p : Program V E) → Expected V E ⊕ Outcome V E p.unwraps
  | taskFromResult v => .inl (.ok v)
  | taskFromError e => .inl (.error e)
  | makeTask _ cancelled _ callable =>
    (gate false cancelled (.ok .void : Expected V E)).map id fun _ => callable
  | thenDo p _ cancelled handlesExpected _ callable =>
    (gate handlesExpected cancelled p.eval).map id callable

/-- The program whose result the last step reads. -/
def antecedent : Program V E → Option (Program V E)
  | thenDo p _ _ _ _ _ => some p
  | _ => none

/-- A bound on the work of the last step, once its input is there. -/
def price (p : Program V E) : ℕ := 3 + p.fate.elim (fun _ => 0) Outcome.cost

/-- How many callables the last step invokes, with those that its own callable leads to. -/
def lastCalls (p : Program V E) : ℕ := p.fate.elim (fun _ => 0) fun o => 1 + o.calls

theorem eval_eq_fate (p : Program V E) : p.eval = p.fate.elim id Outcome.eval := by
  cases p with
  | taskFromResult | taskFromError => rfl
  | makeTask _ cancelled =>
    simp only [eval, fate]
    cases gate false cancelled (.ok .void : Expected V E) <;> rfl
  | thenDo p _ cancelled handlesExpected =>
    simp only [eval, fate]
    cases gate handlesExpected cancelled p.eval <;> rfl

theorem eval_of_settled {p : Program V E} {r : Expected V E} (h : p.fate = .inl r) :
    p.eval = r := by
  rw [eval_eq_fate, h]
  rfl

theorem eval_of_invoked {p : Program V E} {o : Outcome V E p.unwraps} (h : p.fate = .inr o) :
    p.eval = o.eval := by
  rw [eval_eq_fate, h]
  rfl

theorem cost_makeTask (scheduler : Scheduler) (cancelled unwrap : Bool)
    (callable : Outcome V E unwrap) :
    (makeTask scheduler cancelled unwrap callable).cost =
      11 + (makeTask scheduler cancelled unwrap callable).price := by
  simp only [cost, price, fate]
  cases gate false cancelled (.ok .void : Expected V E) with
  | inl => rfl
  | inr =>
    show 14 + callable.cost = 11 + (3 + callable.cost)
    omega

theorem cost_thenDo (p : Program V E) (scheduler : Scheduler)
    (cancelled handlesExpected unwrap : Bool) (callable : Expected V E → Outcome V E unwrap) :
    (thenDo p scheduler cancelled handlesExpected unwrap callable).cost =
      p.cost + 14 + (thenDo p scheduler cancelled handlesExpected unwrap callable).price := by
  simp only [cost, price, fate]
  cases gate handlesExpected cancelled p.eval with
  | inl => rfl
  | inr input =>
    show p.cost + 17 + (callable input).cost = p.cost + 14 + (3 + (callable input).cost)
    omega

theorem calls_makeTask (scheduler : Scheduler) (cancelled unwrap : Bool)
    (callable : Outcome V E unwrap) :
    (makeTask scheduler cancelled unwrap callable).calls =
      (makeTask scheduler cancelled unwrap callable).lastCalls := by
  simp only [calls, lastCalls, fate]
  cases gate false cancelled (.ok .void : Expected V E) <;> rfl

theorem calls_thenDo (p : Program V E) (scheduler : Scheduler)
    (cancelled handlesExpected unwrap : Bool) (callable : Expected V E → Outcome V E unwrap) :
    (thenDo p scheduler cancelled handlesExpected unwrap callable).calls =
      p.calls + (thenDo p scheduler cancelled handlesExpected unwrap callable).lastCalls := by
  simp only [calls, lastCalls, fate]
  cases gate handlesExpected cancelled p.eval <;> rfl

theorem cost_of_invoked {p : Program V E} {o : Outcome V E p.unwraps} (h : p.fate = .inr o) :
    o.cost < p.cost := by
  have hprice : p.price = 3 + o.cost := by
    rw [price, h]
    rfl
  cases p with
  | taskFromResult | taskFromError => cases h
  | makeTask =>
    rw [cost_makeTask, hprice]
    omega
  | thenDo =>
    rw [cost_thenDo, hprice]
    omega

/-- The antecedent costs less than the program. -/
theorem cost_lt_of_antecedent {p q : Program V E} (h : p.antecedent = some q) :
    q.cost < p.cost := by
  cases p with
  | thenDo p scheduler cancelled handlesExpected unwrap callable =>
    cases h
    rw [cost_thenDo]
    omega
  | _ => cases h

/-- A task of a task that the callable did not make holds an error. -/
theorem exists_error_of_settled {p : Program V E} (hp : p.unwraps = true) {r : Expected V E}
    (h : p.fate = .inl r) : ∃ e, r = .error e := by
  cases p with
  | taskFromResult | taskFromError => cases hp
  | makeTask _ cancelled =>
    cases ha : gate false cancelled (.ok .void : Expected V E) with
    | inl =>
      simp only [fate, ha] at h
      cases h
      exact exists_error_of_gate ha
    | inr =>
      simp only [fate, ha] at h
      cases h
  | thenDo p _ cancelled handlesExpected =>
    cases ha : gate handlesExpected cancelled p.eval with
    | inl =>
      simp only [fate, ha] at h
      cases h
      exact exists_error_of_gate ha
    | inr =>
      simp only [fate, ha] at h
      cases h

/-! ## Programs that stand for each other -/

/-- `p` can stand for `q`: it has the same value and costs no more. -/
structure Replaces (p q : Program V E) : Prop where
  eval : p.eval = q.eval
  cost : p.cost ≤ q.cost

/-- `q` comes down to `p`, which its callable returned. -/
structure Unfolds (p q : Program V E) : Prop where
  eval : p.eval = q.eval
  cost : p.cost < q.cost

theorem Replaces.refl (p : Program V E) : p.Replaces p := ⟨rfl, le_rfl⟩

theorem Unfolds.replaces {p q r : Program V E} (h : p.Unfolds q) (hq : q.Replaces r) :
    p.Replaces r :=
  ⟨h.eval.trans hq.eval, h.cost.le.trans hq.cost⟩

end Program

end Arcana.Programs
