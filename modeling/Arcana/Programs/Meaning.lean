import Arcana.Programs.Progress
import Arcana.Tasks.Once

/-!
# Programs mean what the evaluator says

The runs of a program. Every run comes to an end (`Coherent.terminates`), and where it ends every
task is completed (`Coherent.task_completed`): a task waits for the task of a smaller program or for
its own last step, so that no tasks wait for each other. Then no continuation is left, and the one
on the final task has observed the value of the program (`programs_mean_eval`).

* `Role.rank` is the place of a task in the order in which tasks are completed.
* `Coherent.task_completed` and `Coherent.observed` say what holds where a run ends.
* `Coherent.terminates` says that every run ends.
* `programs_mean_eval` is the result about runs.
-/

namespace Arcana.Programs

open Function Foundations Tasks

universe u v

variable {T : Type*} {V : Type u} {E : Type v} [ErrorTraits E] {ρ : List (Role V E)}
  {main : Program V E} {s s' : State T (Code V E) V E} {t : T}

/-! ## Where a run ends -/

/-- The place of a task in the order in which tasks are completed. -/
def Role.rank : Role V E → ℕ
  | task p => 2 * p.cost + 1
  | outer p _ => 2 * p.cost
  | _ => 0

/-- The payload of a task, or of a task of a task. -/
def Role.IsTask (R : Role V E) : Prop := ∃ p, R = .task p ∨ ∃ hp, R = .outer p hp

/-- Continuations wait at tasks. -/
theorem Reads.isTask {x q : ℕ} (h : Reads ρ x q) : ∃ R, ρ[q]? = some R ∧ R.IsTask := by
  cases h with
  | step _ _ hq => exact ⟨_, hq, _, .inl rfl⟩
  | link _ hq => exact ⟨_, hq, _, .inr ⟨_, rfl⟩⟩

/-- A task reads the result of a task that comes before it. -/
theorem Reads.rank_lt {x q : ℕ} {R R' : Role V E} (h : Reads ρ x q) (hx : ρ[x]? = some R)
    (hR : R.IsTask) (hq : ρ[q]? = some R') : R'.rank < R.rank := by
  cases h with
  | @step _ p p' hx' ha hq' hrep =>
    cases hx.symm.trans hx'
    cases hq.symm.trans hq'
    have hcost := hrep.cost
    obtain ⟨b, rfl | ⟨hb, rfl⟩⟩ := hR
    · have hlt := Program.cost_lt_of_antecedent (p := b) ha
      simp only [Role.rank]
      omega
    · have hlt := Program.cost_lt_of_antecedent (p := b) ha
      simp only [Role.rank]
      omega
  | link hl =>
    cases hx.symm.trans hl
    obtain ⟨b, e | ⟨hb, e⟩⟩ := hR <;> cases e

/-- The task of a task comes before the stand-in that is completed with it. -/
theorem Reads.rank_lt_standIn {l q source : ℕ} {R R' : Role V E} (h : Reads ρ l q)
    (hl : ρ[l]? = some (.link source)) (hs : ρ[source]? = some R) (hq : ρ[q]? = some R') :
    R'.rank < R.rank := by
  cases h with
  | step hx ha =>
    cases hl.symm.trans hx
    cases ha
  | link hl' hq' hs' =>
    cases hl.symm.trans hl'
    cases hs.symm.trans hs'
    cases hq.symm.trans hq'
    exact Nat.lt_succ_self _

section

variable [Fintype T]

/-- A source of user code is completed when nothing is under way. -/
theorem Claimed.completed (hc : Claimed s) (hw : WellFormed s) (hstack : ∀ t, s.stack t = [])
    (hqueue : s.queue = []) {p : ℕ} (hp : p ∈ s.sources) : (s.heap p).completed = true := by
  by_contra hnot
  have hsum := hc p (.inl hp)
  have hzero (q : ℕ) : (completers p).supply.payload q (s.heap q) = 0 := by
    simp only [Prices.supply_payload, runAll_completers, completers_completion, zero_add]
    split_ifs with hdone e
    · exact absurd (e ▸ hdone) hnot
    · rfl
    · rfl
  rw [State.weight_eq_zero hstack hqueue fun q _ => hzero q, if_pos (hw.sources p hp)] at hsum
  cases hsum

namespace Coherent

/-- **Where a run ends every task is completed.** -/
theorem task_completed (h : Coherent ρ main s) (hstack : ∀ t, s.stack t = [])
    (hqueue : s.queue = []) {p : ℕ} {R : Role V E} (hp : ρ[p]? = some R) (hR : R.IsTask) :
    (s.heap p).completed = true := by
  induction hn : R.rank using Nat.strong_induction_on generalizing p R with
  | _ n ih =>
    have hw := h.settled.wellFormed
    by_cases hs : p ∈ s.sources
    · exact h.claimed.completed hw hstack hqueue hs
    · by_contra hnot
      have hnot' : (s.heap p).completed = false := by simpa using hnot
      obtain ⟨q, c, hc, hwaits⟩ := h.settled.owned.stored hstack hqueue (h.lt_of_role hp) hs hnot'
      have hreads : Reads ρ c.continuation q := by
        have hq : q < s.next := by
          by_contra hq
          rw [hw.blank q (by omega)] at hc
          cases hc
        obtain ⟨Rq, hRq, hfits⟩ := h.labelled.payload q hq
        exact hfits.stored c hc
      obtain ⟨R', hq, hR'⟩ := hreads.isTask
      have hlt : R'.rank < R.rank := by
        rcases hwaits with rfl | hstandIn
        · exact hreads.rank_lt hp hR hq
        · obtain ⟨work, hwork, hsource⟩ := Option.bind_eq_some_iff.1 hstandIn
          have hunwrap : work = .unwrap p := by
            cases work <;> cases hsource
            rfl
          have hrun : s.Runnable c.continuation := ((hw.payload q).stored c hc).2.2
          have hlink := h.labelled.role_link hrun.lt (hunwrap ▸ hwork)
          exact hreads.rank_lt_standIn hlink hp hq
      have hdone := ih R'.rank (hn ▸ hlt) hq hR' rfl
      rw [((hw.payload q).stored c hc).1] at hdone
      cases hdone

/-- Where a run ends no continuation is left. -/
theorem nothing_stored (h : Coherent ρ main s) (hstack : ∀ t, s.stack t = [])
    (hqueue : s.queue = []) (p : ℕ) : (s.heap p).continuation.span = [] := by
  refine List.eq_nil_iff_forall_not_mem.2 fun c hc => ?_
  have hw := h.settled.wellFormed
  by_cases hp : p < s.next
  · obtain ⟨R, hR, hfits⟩ := h.labelled.payload p hp
    obtain ⟨R', hR', htask⟩ := (hfits.stored c hc).isTask
    have hdone := h.task_completed hstack hqueue hR' htask
    rw [((hw.payload p).stored c hc).1] at hdone
    cases hdone
  · rw [hw.blank p (by omega)] at hc
    cases hc

/-- No more callables are invoked than the evaluator invokes, with the observer. -/
theorem invoked_le (h : Coherent ρ main s) : s.invoked.length ≤ main.calls + 1 := by
  have hbalance := h.balance .calls rfl
  simp at hbalance
  omega

/-- At most the value of the program has been observed, once. -/
theorem emitted_eq (h : Coherent ρ main s) : s.emitted = [] ∨ s.emitted = [main.eval] := by
  have hbalance := h.balance .observations rfl
  simp at hbalance
  rcases hs : s.emitted with _ | ⟨r, _ | ⟨r', rs⟩⟩
  · exact .inl rfl
  · rw [h.labelled.emitted r (by simp [hs])]
    exact .inr rfl
  · rw [hs] at hbalance
    simp only [List.length_cons] at hbalance
    omega

/-- **Where a run ends the result has been observed**, and the callables that the evaluator invokes
have been. -/
theorem observed (h : Coherent ρ main s) (hstack : ∀ t, s.stack t = []) (hqueue : s.queue = []) :
    s.emitted = [main.eval] ∧ s.invoked.length = main.calls + 1 := by
  have hspent (r : Tariff) (hr : r.step = 0) :
      r.spent s = r.call * (main.calls + 1) + r.observation := by
    have hbalance := h.balance r hr
    have hstored := h.nothing_stored hstack hqueue
    simpa [State.weight, State.stackWeight, Weight.payloads, hstack, hqueue, hstored] using hbalance
  have hlength : s.emitted.length = 1 := by
    simpa using hspent .observations rfl
  refine ⟨h.emitted_eq.resolve_left fun hnone => ?_, ?_⟩
  · rw [hnone] at hlength
    cases hlength
  · simpa using hspent .calls rfl

end Coherent

end

/-! ## Every run ends -/

section

variable [DecidableEq T] [Fintype T]

/-- **Every run comes to an end.** -/
theorem Coherent.terminates (h : Coherent ρ main s) :
    Acc (fun b a => ∃ l, Tasks.step Code.act a l = some b) s := by
  have wf : WellFounded (Prod.Lex (· < ·) (· < ·) : ℕ × ℕ → ℕ × ℕ → Prop) :=
    WellFounded.prod_lex wellFounded_lt wellFounded_lt
  refine acc_of_decreasing wf
    (n := (s.weight (Tariff.prices .steps ρ).supply, s.weight (along s.next)))
    (I := fun n a => ∃ ρ, Coherent ρ main a ∧
      n = (a.weight (Tariff.prices .steps ρ).supply, a.weight (along a.next))) ?_ ⟨ρ, h, rfl⟩
  rintro _ a l b ⟨ρ, ha, rfl⟩ hstep
  obtain ⟨ρ', hρ, hb⟩ := ha.step (step_sound hstep)
  refine ⟨_, ?_, ρ', hb, rfl⟩
  have hw := ha.settled.wellFormed
  obtain ⟨n, hpays, hfree⟩ := Step.pays .steps (ha.labelled.mono hρ) hb.labelled
    (ha.ordered.mono hρ ha.labelled hw) ha.settled ha.claimed (step_sound hstep)
  rw [Prices.Pays, ha.labelled.supply_mono .steps hρ hw] at hpays
  simp at hpays
  rcases Nat.eq_zero_or_pos n with hzero | hpos
  · have heq : b.weight (Tariff.prices .steps ρ').supply =
        a.weight (Tariff.prices .steps ρ).supply := by omega
    rw [heq]
    exact .right _ (hfree hzero)
  · exact .left _ _ (by omega)

/-- **Programs mean what the evaluator says, whatever the schedulers do.** In every state of every
run of a program, with any number of threads that run what is queued in any order: no callable was
invoked twice, and no more of them than the evaluator invokes, with the observer; the observer saw
nothing yet, or the value of the program. No run goes on for ever; and where it ends nothing is
under way or queued, the observer has seen the value, and every callable that the evaluator invokes
was. -/
theorem programs_mean_eval {t₀ : T} {p : Program V E} {scheduler : Scheduler}
    (h : Reach (step Code.act) anyStep (launch t₀ p scheduler) s) :
    s.invoked.Nodup ∧ s.invoked.length ≤ p.calls + 1 ∧
      (s.emitted = [] ∨ s.emitted = [p.eval]) ∧
      Acc (fun b a => ∃ l, step Code.act a l = some b) s ∧
      ((∀ l, step Code.act s l = none) → (∀ t, s.stack t = []) ∧ s.queue = [] ∧
        s.emitted = [p.eval] ∧ s.invoked.length = p.calls + 1) := by
  obtain ⟨ρ, hc⟩ := Coherent.of_reach h
  refine ⟨invoked_nodup h, hc.invoked_le, hc.emitted_eq, hc.terminates, fun hstuck => ?_⟩
  obtain ⟨hstack, hqueue⟩ := hc.finished t₀ hstuck
  exact ⟨hstack, hqueue, hc.observed hstack hqueue⟩

end

/-- A callable on a dispatcher, which returns a program of two steps. -/
def nested : Program ℕ ErrorCode :=
  .makeTask .dispatcher false true (.program
    (.thenDo (.taskFromResult (.val 1)) .inlineScheduler false true false fun r => .expected r))

/-- The run of `nested` on one thread, with the observer queued as well. -/
theorem programs_mean_eval_nested : ∃ s : State Unit (Code ℕ ErrorCode) ℕ ErrorCode,
    Reach (step Code.act) anyStep (launch () nested .dispatcher) s ∧
      (∀ l, step Code.act s l = none) ∧ s.emitted = [.ok (.val 1)] ∧ s.invoked.length = 3 := by
  have hrun : (run (step Code.act) (launch () nested .dispatcher)
      (List.replicate 37 ⟨(), (), 0⟩)).map (fun s => ((s.stack ()).length, s.queue)) =
      some (0, []) := by decide
  obtain ⟨s, hreach, h⟩ := exists_reach_of_run hrun
  have hstack : s.stack () = [] := List.length_eq_zero_iff.1 (Prod.mk.inj h).1
  have hqueue : s.queue = [] := (Prod.mk.inj h).2
  have hstuck (l : Label Unit Unit) : step Code.act s l = none := by
    simp [step, hstack, stepThread, stepIdle, hqueue]
  obtain ⟨-, -, hemitted, hinvoked⟩ := (programs_mean_eval hreach).2.2.2.2 hstuck
  exact ⟨s, hreach, hstuck, hemitted, hinvoked⟩

end Arcana.Programs
