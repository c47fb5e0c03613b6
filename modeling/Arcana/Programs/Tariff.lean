import Mathlib.Tactic.Ring
import Arcana.Tasks.Prices
import Arcana.Programs.Completion

/-!
# What is left to do

How much of the run of a program is still to come: steps, invocations of callables, and observations
of the result, each at the price that a tariff gives it. The price of user code and of a payload
that is to be run depends on the roles of the payloads, since a payload is run for a program, and
code that goes on with a task attaches steps to it. With a price on steps alone the supply bounds
the length of a run; with a price on invocations or observations alone it stays what it is, together
with those that were made.

* `Program.Agrees`: two programs whose last steps come to the same.
* `Tariff.worth`, `Tariff.last`, `Tariff.attached`: the price of a program, of its last step, and of
  what is still to be attached to it.
* `Tariff.code` and `Tariff.run`: the price of user code and of running a payload, by the roles.
* `Tariff.prices`: these as the prices of the machine; completions are free.
* `Tariff.worth_add_attached`: a program may be cut anywhere into a base and what is attached.
* `Tariff.role_of_settled` and `Tariff.role_of_invoked`: what running a payload comes to, by its
  fate.
-/

namespace Arcana.Programs

open Function Tasks

universe u v

variable {V : Type u} {E : Type v} [ErrorTraits E]

/-! ## Programs that come to the same -/

/-- What a callable yields, costs and invokes shows in its code. -/
theorem Outcome.eq_of_code {unwrap unwrap' : Bool} {o : Outcome V E unwrap}
    {o' : Outcome V E unwrap'} (h : o.code = o'.code) :
    o.eval = o'.eval ∧ o.cost = o'.cost ∧ o.calls = o'.calls := by
  cases o <;> cases o' <;> cases h <;> exact ⟨rfl, rfl, rfl⟩

namespace Program

/-- The last steps of the two programs come to the same. -/
structure Agrees (p q : Program V E) : Prop where
  eval : p.eval = q.eval
  price : p.price = q.price
  lastCalls : p.lastCalls = q.lastCalls

theorem agrees_of_fate {p q : Program V E}
    (h : p.fate.map id Outcome.code = q.fate.map id Outcome.code) : p.Agrees q := by
  cases hp : p.fate with
  | inl r =>
    cases hq : q.fate with
    | inl r' =>
      obtain rfl : r = r' := by simpa [hp, hq] using h
      exact ⟨by rw [eval_of_settled hp, eval_of_settled hq], by rw [price, price, hp, hq]; rfl,
        by rw [lastCalls, lastCalls, hp, hq]; rfl⟩
    | inr o' => simp [hp, hq] at h
  | inr o =>
    cases hq : q.fate with
    | inl r' => simp [hp, hq] at h
    | inr o' =>
      have hcode : o.code = o'.code := by simpa [hp, hq] using h
      obtain ⟨heval, hcost, hcalls⟩ := Outcome.eq_of_code hcode
      refine ⟨?_, ?_, ?_⟩
      · rw [eval_of_invoked hp, eval_of_invoked hq, heval]
      · rw [price, price, hp, hq, Sum.elim_inr, Sum.elim_inr, hcost]
      · rw [lastCalls, lastCalls, hp, hq, Sum.elim_inr, Sum.elim_inr, hcalls]

/-- The same step on tasks of the same value. -/
theorem agrees_andThen {p q : Program V E} (h : p.eval = q.eval) (a : Attachment V E) :
    (p.andThen a).Agrees (q.andThen a) := by
  refine agrees_of_fate ?_
  simp only [andThen, fate, h]
  rfl

theorem agrees_of_start {p q : Program V E} {cancelled : Bool} {u : Code V E}
    (hp : p.work = some (.start cancelled u)) (hq : q.work = some (.start cancelled u)) :
    p.Agrees q :=
  agrees_of_fate ((p.fate_of_start hp).symm.trans (q.fate_of_start hq))

theorem agrees_of_continuation {p q p' q' : Program V E} {handlesExpected cancelled : Bool}
    {u : Expected V E → Code V E} (hp : p.work = some (.continuation handlesExpected cancelled u))
    (hp' : p.antecedent = some p') (hq : q.work = some (.continuation handlesExpected cancelled u))
    (hq' : q.antecedent = some q') (h : p'.eval = q'.eval) : p.Agrees q := by
  have hfate := p.fate_of_continuation hp hp'
  rw [h, q.fate_of_continuation hq hq'] at hfate
  exact agrees_of_fate hfate.symm

/-- How many callables the evaluator invokes for `as`, which are attached to `p`. -/
def attachCalls (p : Program V E) : List (Attachment V E) → ℕ
  | [] => 0
  | a :: as => (p.andThen a).lastCalls + (p.andThen a).attachCalls as

theorem calls_attach (p : Program V E) (as : List (Attachment V E)) :
    (p.attach as).calls = p.calls + p.attachCalls as := by
  induction as generalizing p with
  | nil => rfl
  | cons a as ih =>
    have hcalls : (p.andThen a).calls = p.calls + (p.andThen a).lastCalls := calls_thenDo ..
    rw [attach_cons, ih, attachCalls, hcalls, add_assoc]

theorem attachCost_congr {p q : Program V E} (h : p.eval = q.eval) (as : List (Attachment V E)) :
    p.attachCost as = q.attachCost as := by
  induction as generalizing p q with
  | nil => rfl
  | cons a as ih =>
    have hagree := agrees_andThen h a
    rw [attachCost, attachCost, hagree.price, ih hagree.eval]

theorem attachCalls_congr {p q : Program V E} (h : p.eval = q.eval) (as : List (Attachment V E)) :
    p.attachCalls as = q.attachCalls as := by
  induction as generalizing p q with
  | nil => rfl
  | cons a as ih =>
    have hagree := agrees_andThen h a
    rw [attachCalls, attachCalls, hagree.lastCalls, ih hagree.eval]

end Program

/-! ## The supply -/

/-- The prices of what is counted in the run of a program. -/
abbrev Tariff := Tasks.Tariff

namespace Tariff

variable (r : Tariff)

/-- Building and running a program. -/
def worth (p : Program V E) : ℕ := r.step * p.cost + r.call * p.calls

/-- Running the last step of a program. -/
def last (p : Program V E) : ℕ := r.step * p.price + r.call * p.lastCalls

/-- Attaching `as` to the task of a program, and running them. -/
def attached (p : Program V E) (as : List (Attachment V E)) : ℕ :=
  r.step * p.attachCost as + r.call * p.attachCalls as

/-- What follows when the program is built. -/
def purpose : Purpose → ℕ
  | .returned => r.step
  | .observed _ => 11 * r.step + r.call + r.observation

/-- Running a payload with the role. -/
def role : Role V E → ℕ
  | .task p => r.last p
  | .outer p _ => r.last p
  | .link _ => 7 * r.step
  | .observer _ => 5 * r.step + r.call + r.observation

theorem worth_of_bare {p : Program V E} (h : p.work = none) : r.worth p = 5 * r.step := by
  cases p with
  | taskFromResult | taskFromError =>
    simp [worth, Program.cost, Program.calls, mul_comm]
  | makeTask | thenDo => cases h

theorem worth_makeTask (scheduler : Scheduler) (cancelled unwrap : Bool)
    (callable : Outcome V E unwrap) :
    r.worth (.makeTask scheduler cancelled unwrap callable) =
      11 * r.step + r.last (.makeTask scheduler cancelled unwrap callable) := by
  rw [worth, last, Program.cost_makeTask, Program.calls_makeTask]
  ring

theorem attached_cons (p : Program V E) (a : Attachment V E) (as : List (Attachment V E)) :
    r.attached p (a :: as) =
      14 * r.step + r.last (p.andThen a) + r.attached (p.andThen a) as := by
  rw [attached, attached, last, Program.attachCost, Program.attachCalls]
  ring

theorem worth_add_attached {p b : Program V E} {as as' : List (Attachment V E)}
    (h : p.Reassociates as b as') :
    r.worth p + r.attached p as = r.worth b + r.attached b as' := by
  have hcalls : p.calls + p.attachCalls as = b.calls + b.attachCalls as' := by
    rw [← Program.calls_attach, ← Program.calls_attach, h.attach]
  calc r.worth p + r.attached p as
      = r.step * (p.cost + p.attachCost as) + r.call * (p.calls + p.attachCalls as) := by
        rw [worth, attached]
        ring
    _ = r.step * (b.cost + b.attachCost as') + r.call * (b.calls + b.attachCalls as') := by
        rw [h.cost, hcalls]
    _ = r.worth b + r.attached b as' := by
        rw [worth, attached]
        ring

theorem last_congr {p q : Program V E} (h : p.Agrees q) : r.last p = r.last q := by
  rw [last, last, h.price, h.lastCalls]

theorem attached_congr {p q : Program V E} (h : p.eval = q.eval) (as : List (Attachment V E)) :
    r.attached p as = r.attached q as := by
  rw [attached, attached, Program.attachCost_congr h, Program.attachCalls_congr h]

end Tariff

section supply

variable (r : Tariff) (ρ : List (Role V E))

namespace Tariff

/-- Attaching `as` to the task with payload `q`, and running them. -/
def pending (q : ℕ) (as : List (Attachment V E)) : ℕ :=
  match ρ[q]? with
  | some (.task b) => r.attached b as
  | _ => 0

/-- Running the payload `x`. -/
def run (x : ℕ) : ℕ := (ρ[x]?).elim 0 r.role

/-- Going on with user code. -/
def code : Code V E → ℕ
  | .build p as purpose => r.worth p + r.attached p as + r.purpose purpose
  | .complete q _ as purpose => 4 * r.step + r.pending ρ q as + r.purpose purpose
  | .built q as purpose => r.pending ρ q as + r.purpose purpose
  | .ret _ => r.step
  | .observe _ => 2 * r.step + r.observation

/-- The prices of the machine. -/
@[simps toTariff code run completion] def prices : Prices (Code V E) where
  toTariff := r
  code := r.code ρ
  run := r.run ρ
  completion _ := 0

variable {ρ}

theorem pending_of_task {q : ℕ} {b : Program V E} (h : ρ[q]? = some (.task b))
    (as : List (Attachment V E)) : r.pending ρ q as = r.attached b as := by
  rw [pending, h]

theorem run_of_role {x : ℕ} {R : Role V E} (h : ρ[x]? = some R) : r.run ρ x = r.role R := by
  rw [run, h]
  rfl

@[simp] theorem prices_total (n : ℕ) : (r.prices ρ).total n = 0 :=
  (r.prices ρ).total_of_free rfl n

theorem pending_nil (q : ℕ) : r.pending ρ q [] = 0 := by
  unfold pending
  split <;> rfl

/-- Code that returns. -/
theorem code_of_returns {u : Code V E} {x : Return V E} (h : u.Acts (.ret x)) :
    r.code ρ u = r.step := by
  cases h with
  | returned q => rw [code, pending_nil, zero_add, purpose]
  | ret => rfl

/-- A work that invokes no callable. -/
theorem role_of_settled {R : Role V E} {y : Expected V E} (h : R.fate = .inl y)
    (hwork : R.work.bind Work.standIn = none) : r.role R = 3 * r.step := by
  cases R with
  | task p | outer p hp =>
    cases hf : p.fate with
    | inl y' => simp [role, last, Program.price, Program.lastCalls, hf, mul_comm]
    | inr o => simp [Role.fate, hf] at h
  | link => simp [Role.work, Work.standIn] at hwork
  | observer => cases h

theorem code_of_outcome {unwrap : Bool} (o : Outcome V E unwrap) :
    r.code ρ o.code = r.step * o.cost + r.call * o.calls := by
  cases o with
  | program p =>
    simp only [Outcome.code, code, worth, attached, purpose, Program.attachCost,
      Program.attachCalls, Outcome.cost, Outcome.calls]
    ring
  | value | expected | throws => simp [Outcome.code, code, Outcome.cost, Outcome.calls]

/-- A work that invokes its callable. -/
theorem role_of_invoked {R : Role V E} {u : Code V E} (h : R.fate = .inr u) :
    r.role R = 3 * r.step + r.call + r.code ρ u := by
  cases R with
  | task p | outer p hp =>
    cases hf : p.fate with
    | inl y' => simp [Role.fate, hf] at h
    | inr o =>
      obtain rfl : o.code = u := by simpa [Role.fate, hf] using h
      rw [code_of_outcome, role, last, Program.price, Program.lastCalls, hf, Sum.elim_inr,
        Sum.elim_inr]
      ring
  | link => cases h
  | observer p =>
    cases h
    simp only [role, code]
    ring

end Tariff

end supply

end Arcana.Programs
