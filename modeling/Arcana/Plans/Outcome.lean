import Mathlib.Algebra.BigOperators.Group.Finset.Piecewise
import Arcana.Plans.Account

/-!
# What comes of planned code

`Kept` collects what holds in every state of a run whose code follows plans. In such a state every
payload has one part of the state that completes it, or is completed (`Kept.completions`); a thread
that has a call under way can make a step (`Kept.progress`), since no mutex is ever waited for;
every step is paid for, so that the run comes to an end; and where it ends every payload is
completed, because a payload waits for one of a lower rank. `Discipline.Sound.outcome` puts this
together.

* `Discipline.Launches` is what is asked of the code that the threads begin with, and
  `Discipline.budget` what it pays for.
* `Discipline.Kept` is the invariant, and `Kept.step` its step lemma.
* `Kept.completions`, `Kept.progress`, `Kept.terminates` and `Kept.all_completed` are its
  consequences.
* `Discipline.Outcome` is what comes of a run, and `Discipline.Sound.outcome` says so of every run.
-/

namespace Arcana.Plans

open Function Foundations Tasks

variable {T U V E : Type*}

/-- The tariff `r`, with completions that are free. -/
@[simps toTariff completion] def Tariff.free (r : Tasks.Tariff) : Tariff where
  toTariff := r
  completion _ := 0

@[simp] theorem Tariff.total_free (r : Tasks.Tariff) (n : ℕ) : (Tariff.free r).total n = 0 := by
  simp [Tariff.total]

theorem Tariff.total_completing (q n : ℕ) :
    (Tariff.completing q).total n = if q < n then 1 else 0 := by
  simp [Tariff.total, Finset.sum_ite_eq']

namespace Discipline

/-- Code that a thread can begin with: it completes nothing that it does not construct. -/
structure Launches (D : Discipline U V E) (u : U) : Prop where
  fits : D.Fits [] u
  bare : ∀ q, D.price (.completing q) [] u = 0

variable [Fintype T] {D : Discipline U V E} {ρ ρ' : List (Plan U V E)} {main : T → U}
  {s s' : State T U V E} {t : T}

/-- What the code of all threads pays for. -/
def budget (D : Discipline U V E) (main : T → U) (τ : Tariff) : ℕ := ∑ t, D.price τ [] (main t)

/-- **What holds in every state of a run.** -/
structure Kept (D : Discipline U V E) (main : T → U) (ρ : List (Plan U V E))
    (s : State T U V E) : Prop where
  planned : D.Planned ρ s
  settled : Settled s
  working : Working s
  bare : ∀ q, D.budget main (.completing q) = 0
  balance : ∀ τ : Tariff, τ.step = 0 →
    s.weight (D.prices τ ρ).supply + τ.spent s = D.budget main τ + τ.total s.next

namespace Kept

theorem init (h : ∀ t, D.Launches (main t)) : D.Kept main [] (init main) where
  planned := {
    length := rfl
    keeps := nofun
    payload := nofun
    bases := nofun
    frames := fun t f hf => by
      obtain rfl := List.mem_singleton.1 hf
      exact (h t).fits
    calls := fun _ => .singleton _
    queue := nofun
    emitted := nofun }
  settled := .init _
  working _ _ _ hs := by cases hs
  bare q := Finset.sum_eq_zero fun t _ => (h t).bare q
  balance τ _ := by
    simp [State.weight, State.stackWeight, Weight.payloads, Tasks.init, Tariff.spent, Tariff.total,
      budget, Prices.frame]

/-- **Everything completes once**: every payload has one part of the state that completes it, until
it is completed. -/
theorem completions (h : D.Kept main ρ s) (q : ℕ) :
    s.weight (D.prices (.completing q) ρ).supply = if q < s.next then 1 else 0 := by
  have hbalance := h.balance (.completing q) rfl
  simpa [h.bare q, Tariff.spent, Tariff.total_completing] using hbalance

/-- A payload that a call is about to complete is not completed. -/
theorem not_completed (h : D.Kept main ρ s) {p : ℕ} {rest : List (Frame U V E)}
    (hs : s.stack t = .doCompletion p :: rest) : (s.heap p).completed = false := by
  by_contra hdone
  have hlt := (h.settled.wellFormed.top hs).1
  have hone := h.completions p
  rw [if_pos hlt] at hone
  have hle := s.payload_add_frame_le (D.prices (.completing p) ρ).supply hlt (t := t)
    (f := .doCompletion p) (by rw [hs]; exact .head _)
  have hdone' : (s.heap p).completed = true := by simpa using hdone
  simp [Prices.frame, hdone'] at hle
  omega

variable [DecidableEq T] [ErrorTraits E] {act : U → Unit → Action U V E}

/-- **Every step keeps it**, with plans for what it allocates, and costs something. -/
theorem step (h : D.Kept main ρ s) (hD : D.Sound act) (hstep : Step act s t () s') :
    ∃ ρ', D.Kept main ρ' s' ∧ s'.weight (D.prices (.free .steps) ρ').supply <
      s.weight (D.prices (.free .steps) ρ).supply := by
  obtain ⟨ρ', hadv⟩ := h.planned.advances hD h.settled.wellFormed
    (fun p k rest hs => h.not_completed hs) hstep
  have hpays (τ : Tariff) : ∃ n, 1 ≤ n ∧
      s'.weight (D.prices τ ρ').supply + (τ.spent s' + n * τ.step + τ.total s.next) =
        s.weight (D.prices τ ρ).supply + (τ.spent s + τ.total s'.next) := by
    rw [← supply_mono hD hadv.more h.planned]
    exact hadv.pays τ
  refine ⟨ρ', ⟨hadv.planned, h.settled.step hstep, h.working.step h.settled.stacked hstep, h.bare,
    fun τ hτ => ?_⟩, ?_⟩
  · obtain ⟨n, -, hpays⟩ := hpays τ
    have hbalance := h.balance τ hτ
    rw [hτ, mul_zero, add_zero] at hpays
    omega
  · obtain ⟨n, hn, hpays⟩ := hpays (.free .steps)
    simp at hpays
    omega

theorem of_reach (h : Reach (Tasks.step act) anyStep (Tasks.init main) s) (hD : D.Sound act)
    (hmain : ∀ t, D.Launches (main t)) : ∃ ρ, D.Kept main ρ s := by
  refine h.invariant (I := fun s => ∃ ρ, D.Kept main ρ s) ⟨[], init hmain⟩
    fun a l b ha _ hstep => ?_
  obtain ⟨ρ, ha⟩ := ha
  obtain ⟨ρ', hb, -⟩ := ha.step hD (step_sound hstep)
  exact ⟨ρ', hb⟩

/-- **Every run comes to an end.** -/
theorem terminates (h : D.Kept main ρ s) (hD : D.Sound act) :
    Acc (fun b a => ∃ l, Tasks.step act a l = some b) s := by
  refine acc_of_decreasing wellFounded_lt (n := s.weight (D.prices (.free .steps) ρ).supply)
    (I := fun n a => ∃ ρ, D.Kept main ρ a ∧ n = a.weight (D.prices (.free .steps) ρ).supply) ?_
    ⟨ρ, h, rfl⟩
  rintro _ a l b ⟨ρ, ha, rfl⟩ hstep
  obtain ⟨ρ', hb, hlt⟩ := ha.step hD (step_sound hstep)
  exact ⟨_, hlt, ρ', hb, rfl⟩

/-! ## Nothing waits -/

omit [DecidableEq T] [ErrorTraits E] in
/-- No mutex is held between two steps. -/
theorem mutexFree (h : D.Kept main ρ s) (p : ℕ) : s.mutexFree p = true := by
  apply State.mutexFree_iff.2
  intro t f hf
  have hfits := h.planned.frames t f hf
  cases f with
  | holding => exact hfits.elim
  | _ => rfl

/-- User code can go on. -/
theorem user_steps (h : D.Kept main ρ s) (hD : D.Sound act) {u : U} {rest : List (Frame U V E)}
    (hs : s.stack t = .user u :: rest) : ∃ s', Tasks.step act s ⟨t, (), 0⟩ = some s' := by
  have hfollows := hD.follows (h.planned.top hs)
  generalize ha : act u () = a at hfollows
  cases hfollows with
  | ret hout =>
    cases rest with
    | nil => simp [Tasks.step, hs, stepThread, stepUser, ha]
    | cons g rest =>
      have hc := h.settled.stacked t
      rw [hs] at hc
      have hg := (List.isChain_cons_cons.1 hc).1
      cases g with
      | doWork x => simp [Tasks.step, hs, stepThread, stepUser, ha, hout]
      | _ => exact hg.elim
  | emit | source => simp [Tasks.step, hs, stepThread, stepUser, ha]
  | complete hp hpl =>
    have hsource := h.planned.bases _ _ hp hpl
    simp [Tasks.step, hs, stepThread, stepUser, ha, hsource]
  | @makeTask scheduler =>
    cases scheduler <;> simp [Tasks.step, hs, stepThread, stepUser, ha]
  | thenDo rank hp =>
    have hlt := h.planned.lt hp
    simp [Tasks.step, hs, stepThread, stepUser, ha, hlt]

/-- A work finds the result that it reads. -/
theorem run_steps (h : D.Kept main ρ s) {x : ℕ} {parent : Option ℕ} {rest : List (Frame U V E)}
    (hs : s.stack t = .run x parent :: rest) : ∃ s', Tasks.step act s ⟨t, (), 0⟩ = some s' := by
  obtain ⟨-, hparent⟩ := h.settled.wellFormed.top hs
  obtain ⟨pl, u, hpl, hu⟩ := h.planned.top hs
  have hworks := (h.planned.payload x pl hpl).work
  generalize hwork : (s.heap x).work = work at hworks
  cases hworks with
  | bare hnone =>
    rw [hnone] at hu
    cases hu
  | start => simp [Tasks.step, hs, stepThread, stepRun, hwork]
  | continuation hq hu' =>
    cases hu.symm.trans hu'
    obtain ⟨input, hinput⟩ := Option.isSome_iff_exists.1 (hparent _ rfl).result
    simp [Tasks.step, hs, stepThread, stepRun, hwork, State.parentResult, hinput]

/-- **A call under way never gets stuck.** -/
theorem progress (h : D.Kept main ρ s) (hD : D.Sound act) (ht : s.stack t ≠ []) :
    ∃ s', Tasks.step act s ⟨t, (), 0⟩ = some s' := by
  obtain ⟨f, rest, hs⟩ := List.exists_cons_of_ne_nil ht
  have hw := h.settled.wellFormed
  cases f with
  | user u => exact h.user_steps hD hs
  | run x parent => exact h.run_steps hs
  | doWork x => exact absurd hs (h.working t x rest)
  | completing => simp [Tasks.step, hs, stepThread]
  | unwrapping | collapseLeftIntoRight | holding => exact (h.planned.top hs).elim
  | doCompletion p =>
    have hp := h.not_completed hs
    simp [Tasks.step, hs, stepThread, stepDoCompletion, h.mutexFree, Payload.cannibalize, hp]
  | runAll cs =>
    cases cs with
    | nil => simp [Tasks.step, hs, stepThread, stepRunAll]
    | cons c cs =>
      cases hc : c.schedulingFunction <;> simp [Tasks.step, hs, stepThread, stepRunAll, hc]
  | addContinuations q cs =>
    obtain ⟨pl, hpl⟩ := h.planned.exists_plan (hw.top hs).1
    have hr := (h.planned.payload q pl hpl).redirect
    by_cases hcs : cs = []
    · simp [Tasks.step, hs, stepThread, stepAddContinuations, hcs]
    · cases hdone : (s.heap q).completed <;>
        simp [Tasks.step, hs, stepThread, stepAddContinuations, hcs, h.mutexFree, hr, hdone,
          Payload.internalAddContinuations]

/-- A state without a step has nothing left to run. -/
theorem finished [Nonempty T] (h : D.Kept main ρ s) (hD : D.Sound act)
    (hstuck : ∀ l, Tasks.step act s l = none) : (∀ t, s.stack t = []) ∧ s.queue = [] := by
  have hstack (t : T) : s.stack t = [] := by
    by_contra ht
    obtain ⟨s', hstep⟩ := h.progress hD ht
    rw [hstuck] at hstep
    cases hstep
  refine ⟨hstack, ?_⟩
  cases hq : s.queue with
  | nil => rfl
  | cons c cs =>
    have hidle := hstuck ⟨Classical.arbitrary T, (), 0⟩
    simp [Tasks.step, hstack, stepThread, stepIdle, hq] at hidle

/-! ## Where a run ends -/

omit [DecidableEq T] [ErrorTraits E] in
/-- A payload that is not completed waits for one of a lower rank. -/
theorem waits (h : D.Kept main ρ s) (hstack : ∀ t, s.stack t = []) (hqueue : s.queue = []) {p : ℕ}
    {pl : Plan U V E} (hp : ρ[p]? = some pl) (hdone : (s.heap p).completed = false) :
    ∃ q pl', ρ[q]? = some pl' ∧ pl'.rank < pl.rank ∧ (s.heap q).completed = false := by
  -- one continuation that is stored completes `p` when it is run
  obtain ⟨q, hq, c, hc, hone⟩ : ∃ q < s.next, ∃ c ∈ (s.heap q).continuation.span,
      1 ≤ D.run (.completing p) ρ c.continuation := by
    by_contra hnone
    push Not at hnone
    have hzero (q : ℕ) (hq : q < s.next) :
        (D.prices (.completing p) ρ).runAll (s.heap q).continuation.span = 0 := by
      refine List.sum_eq_zero fun n hn => ?_
      obtain ⟨c, hc, rfl⟩ := List.mem_map.1 hn
      have hrun := hnone q hq c hc
      simp
      omega
    have hpayload (q : ℕ) (hq : q < s.next) :
        (D.prices (.completing p) ρ).supply.payload q (s.heap q) = 0 := by
      simp only [Prices.supply_payload, hzero q hq, zero_add, prices_completion,
        Tariff.completing_completion]
      split_ifs with hdone' e
      · rw [e, hdone] at hdone'
        cases hdone'
      · rfl
      · rfl
    have hsum := h.completions p
    rw [if_pos (h.planned.lt hp), State.weight_eq_zero hstack hqueue hpayload] at hsum
    cases hsum
  obtain ⟨hq', -, -⟩ := (h.settled.wellFormed.payload q).stored c hc
  obtain ⟨plq, hplq⟩ := h.planned.exists_plan hq
  obtain ⟨plx, u, hplx, hu⟩ := (h.planned.payload q plq hplq).stored c hc
  obtain ⟨pl', hpl', hrank, hafter⟩ := (h.planned.keeps _ plx _ u hplx hu).after q rfl
  refine ⟨q, pl', hpl', ?_, hq'⟩
  rw [run_of_plan D _ hplx hu] at hone
  by_cases hx : c.continuation = p
  · rw [hx, hp] at hplx
    cases hplx
    exact hrank
  · obtain ⟨pl₂, hpl₂, hlt⟩ := hafter p (by simpa [hx] using hone)
    cases hp.symm.trans hpl₂
    exact hlt

omit [DecidableEq T] [ErrorTraits E] in
/-- **Where a run ends every payload is completed.** -/
theorem all_completed (h : D.Kept main ρ s) (hstack : ∀ t, s.stack t = []) (hqueue : s.queue = [])
    {p : ℕ} {pl : Plan U V E} (hp : ρ[p]? = some pl) : (s.heap p).completed = true := by
  induction hn : pl.rank using Nat.strong_induction_on generalizing p pl with
  | _ n ih =>
    by_contra hdone
    obtain ⟨q, pl', hq, hlt, hdone'⟩ := h.waits hstack hqueue hp (by simpa using hdone)
    have hq' := ih pl'.rank (hn ▸ hlt) hq rfl
    rw [hdone'] at hq'
    cases hq'

omit [DecidableEq T] [ErrorTraits E] in
/-- Where a run ends everything has been spent. -/
theorem spent_eq (h : D.Kept main ρ s) (hstack : ∀ t, s.stack t = []) (hqueue : s.queue = [])
    (r : Tasks.Tariff) (hstep : r.step = 0) : r.spent s = D.budget main (.free r) := by
  have hpayload (p : ℕ) (hp : p < s.next) :
      (D.prices (.free r) ρ).supply.payload p (s.heap p) = 0 := by
    obtain ⟨pl, hpl⟩ := h.planned.exists_plan hp
    have hdone := h.all_completed hstack hqueue hpl
    have hnil : (s.heap p).continuation.span = [] := by
      apply List.eq_nil_iff_forall_not_mem.2
      intro c hc
      rw [((h.settled.wellFormed.payload p).stored c hc).1] at hdone
      cases hdone
    simp [hnil]
  have hbalance := h.balance (.free r) hstep
  rw [State.weight_eq_zero hstack hqueue hpayload] at hbalance
  simpa using hbalance

omit [DecidableEq T] [ErrorTraits E] in
/-- No more is ever spent than the code pays for. -/
theorem spent_le (h : D.Kept main ρ s) (r : Tasks.Tariff) (hstep : r.step = 0) :
    r.spent s ≤ D.budget main (.free r) := by
  have hbalance := h.balance (.free r) hstep
  simp at hbalance
  omega

end Kept

/-- What comes of a run, in a state `s` of it: code under way fits the plans; what may be observed
is, as often as it is paid for; every run goes on to an end; and there nothing is under way or
queued, every payload is completed with the result that was planned, and everything was invoked and
observed. -/
structure Outcome [DecidableEq T] [ErrorTraits E] (D : Discipline U V E)
    (act : U → Unit → Action U V E) (main : T → U) (s : State T U V E) : Prop where
  fits : ∃ ρ, ∀ t u, .user u ∈ s.stack t → D.Fits ρ u
  observable : ∀ r ∈ s.emitted, D.Observable r
  observations : s.emitted.length ≤ D.budget main (.free .observations)
  calls : s.invoked.length ≤ D.budget main (.free .calls)
  terminates : Acc (fun b a => ∃ l, Tasks.step act a l = some b) s
  finished : (∀ l, Tasks.step act s l = none) → (∀ t, s.stack t = []) ∧ s.queue = [] ∧
    (∀ p < s.next, (s.heap p).completed = true) ∧
    s.emitted.length = D.budget main (.free .observations) ∧
    s.invoked.length = D.budget main (.free .calls)

/-- **Code that follows plans does what is planned**, in every run and whatever the schedulers
do. -/
theorem Sound.outcome [DecidableEq T] [Nonempty T] [ErrorTraits E] {act : U → Unit → Action U V E}
    (hD : D.Sound act) (hmain : ∀ t, D.Launches (main t))
    (h : Reach (Tasks.step act) anyStep (Tasks.init main) s) : D.Outcome act main s := by
  obtain ⟨ρ, hkept⟩ := Kept.of_reach h hD hmain
  refine ⟨⟨ρ, fun t u => hkept.planned.frames t (.user u)⟩, hkept.planned.emitted, ?_, ?_,
    hkept.terminates hD, fun hstuck => ?_⟩
  · simpa using hkept.spent_le .observations rfl
  · simpa using hkept.spent_le .calls rfl
  · obtain ⟨hstack, hqueue⟩ := hkept.finished hD hstuck
    refine ⟨hstack, hqueue, fun p hp => ?_, ?_, ?_⟩
    · obtain ⟨pl, hpl⟩ := hkept.planned.exists_plan hp
      exact hkept.all_completed hstack hqueue hpl
    · simpa using hkept.spent_eq hstack hqueue .observations rfl
    · simpa using hkept.spent_eq hstack hqueue .calls rfl

end Discipline

end Arcana.Plans
