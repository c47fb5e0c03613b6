import Arcana.Tasks.Prices
import Arcana.Programs.Order

/-!
# Every source is completed once

The code of a program constructs a source in `task_from_result` or `task_from_error`, and completes
it with its next call. So from its construction on there is one place that completes a source, which
is the code that is about to, the call that does, or its completion flag. This is an account: a
price is put on the completion of the source and on nothing else.

* `Code.completes`: how often the code completes a source with its next call.
* `completers`: the prices that count what completes a source.
* `Claimed`: every source of user code has one completer.
* `Claimed.not_refused`: no completion is refused.
* `Claimed.count`: every step passes the completion of a source on.
* `Claimed.step`: every step keeps the sources claimed.
-/

namespace Arcana.Programs

open Function Tasks

universe u v

variable {T : Type*} {V : Type u} {E : Type v} [ErrorTraits E] {ρ : List (Role V E)}
  {main : Program V E} {s s' s₁ : State T (Code V E) V E} {t : T} {q : ℕ}

/-- How often the code completes the source `q` with its next call. -/
def Code.completes (q : ℕ) : Code V E → ℕ
  | complete p _ _ _ => if p = q then 1 else 0
  | _ => 0

/-- The prices that count what completes `q`, and its completion. -/
@[simps toTariff code run completion] def completers (q : ℕ) : Prices (Code V E) where
  step := 0
  call := 0
  observation := 0
  code := Code.completes q
  run _ := 0
  completion p := if p = q then 1 else 0

/-- **Every source of user code is completed by one call**, and no payload that is not there is. -/
def Claimed [Fintype T] (s : State T (Code V E) V E) : Prop :=
  ∀ q, q ∈ s.sources ∨ s.next ≤ q → s.weight (completers q).supply = if q < s.next then 1 else 0

theorem Code.completes_of_handle {u : Code V E} (h : u.handle = none) : u.completes q = 0 := by
  cases u with
  | complete => cases h
  | _ => rfl

/-- Code that returns completes nothing. -/
theorem Code.Acts.completes {u : Code V E} {r : Return V E} (h : u.Acts (.ret r)) :
    u.completes q = 0 := by
  cases h <;> rfl

theorem total_completers (q n : ℕ) :
    (completers q : Prices (Code V E)).total n = if q < n then 1 else 0 := by
  simp [Prices.total]

/-- Continuations complete nothing but by calls. -/
@[simp] theorem runAll_completers (cs : List Continuation) :
    (completers q : Prices (Code V E)).runAll cs = 0 := by
  simp [Prices.runAll]

section

variable [Fintype T]

/-- What the account of a step says about `q`. -/
theorem pays_completers {n : ℕ} : (completers q).Pays n s s' ↔
    s'.weight (completers q).supply + (if q < s.next then 1 else 0) =
      s.weight (completers q).supply + if q < s'.next then 1 else 0 := by
  simp [Prices.Pays, Tariff.spent, total_completers]

theorem Factory.completers {work : Work (Code V E) V E} {unwrap : Bool} {toRun toReturn : ℕ}
    (hf : Factory s work unwrap s₁ toRun toReturn) (q : ℕ) :
    s₁.weight (completers q).supply = s.weight (completers q).supply := by
  have hlt (p : ℕ) (hp : p < s.next) : s₁.heap p = s.heap p := hf.heap_of_lt hp
  cases hf with
  | plain =>
    rw [State.weight_alloc _ 1 rfl hlt rfl rfl]
    simp
  | unwrap =>
    rw [State.weight_alloc _ 3 rfl hlt rfl rfl]
    simp only [Finset.sum_range_succ, Finset.sum_range_zero]
    simp

/-- A payload that a call completes is not completed. -/
theorem Claimed.not_completed (hc : Claimed s) (hw : WellFormed s) (hq : q ∈ s.sources)
    {f : Frame (Code V E) V E} (hf : f ∈ s.stack t) (hfq : 1 ≤ (completers q).frame f) :
    (s.heap q).completed = false := by
  have hlt := hw.sources q hq
  have hsum := hc q (.inl hq)
  have hle := s.payload_add_frame_le (completers q).supply hlt hf
  rw [if_pos hlt] at hsum
  by_contra hdone
  have hdone' : (s.heap q).completed = true := by simpa using hdone
  simp [hdone'] at hle
  omega

/-- No completion of a source is refused. -/
theorem Claimed.not_refused (hc : Claimed s) (hset : Settled s) {p : ℕ}
    {k : Except RuntimeError Unit → Code V E} {rest : List (Frame (Code V E) V E)}
    (hs : s.stack t = .doCompletion p :: .completing k :: rest) : (s.heap p).completed = false := by
  have hchain := hset.stacked t
  rw [hs] at hchain
  have hp : p ∈ s.sources := (List.isChain_cons_cons.1 hchain).1
  exact hc.not_completed hset.wellFormed hp (t := t) (f := .doCompletion p) (by rw [hs]; simp)
    (by simp [Prices.frame])

variable [DecidableEq T] {u : Code V E} {rest : List (Frame (Code V E) V E)}

/-! ## The steps of user code -/

/-- Code that constructs a source is to complete it with its next call. -/
theorem counts_constructs {k : ℕ → Code V E} (hs : s.stack t = .user u :: rest)
    (hacts : u.Acts (.source k)) :
    (completers q).Pays 1 s (s.makeSource.setStack t (.user (k s.next) :: rest)) := by
  refine (completers q).pays_constructs hs ?_
  cases hacts
  simp [Code.completes, eq_comm]

/-- Code that completes a source does so with the call that it makes. -/
theorem counts_completes {p : ℕ} {r : Expected V E} {k : Except RuntimeError Unit → Code V E}
    (hs : s.stack t = .user u :: rest) (hacts : u.Acts (.complete p r k)) :
    (completers q).Pays 1 s
      ((s.setResult p r).setStack t (.doCompletion p :: .completing k :: rest)) := by
  refine (completers q).pays_completes hs ?_
  cases hacts
  simp [Code.completes]

variable {unwrap cancelled : Bool} {toRun toReturn : ℕ}

/-- Code that makes a task completes nothing, and what it makes is not `q`. -/
theorem counts_makeTaskInline {callable : Code V E} {k : ℕ → Code V E}
    (hs : s.stack t = .user u :: rest)
    (hacts : u.Acts (.makeTask .inlineScheduler cancelled unwrap callable k))
    (hf : Factory s (.start cancelled callable) unwrap s₁ toRun toReturn)
    (hnext : q < s.next ↔ q < s₁.next) :
    (completers q).Pays 0 s (s₁.setStack t (.run toRun none :: .user (k toReturn) :: rest)) := by
  refine (completers q).pays_makeTaskInline hs hf (m := 0) (Factory.completers hf q) ?_
  cases hacts
  simp [Code.completes, total_completers, hnext]

theorem counts_makeTaskDispatcher {callable : Code V E} {k : ℕ → Code V E}
    (hs : s.stack t = .user u :: rest)
    (hacts : u.Acts (.makeTask .dispatcher cancelled unwrap callable k))
    (hf : Factory s (.start cancelled callable) unwrap s₁ toRun toReturn)
    (hnext : q < s.next ↔ q < s₁.next) :
    (completers q).Pays 0 s ({ s₁ with queue := s₁.queue ++ [(toRun, none)] }.setStack t
      (.user (k toReturn) :: rest)) := by
  refine (completers q).pays_makeTaskDispatcher hs hf (m := 0) (Factory.completers hf q) ?_
  cases hacts
  simp [Code.completes, total_completers, hnext]

theorem counts_thenDo {p : ℕ} {scheduler : Scheduler} {handlesExpected : Bool}
    {callable : Expected V E → Code V E} {k : ℕ → Code V E} (hs : s.stack t = .user u :: rest)
    (hacts : u.Acts (.thenDo p scheduler cancelled handlesExpected unwrap callable k))
    (hf : Factory s (.continuation handlesExpected cancelled callable) unwrap s₁ toRun toReturn)
    (hnext : q < s.next ↔ q < s₁.next) :
    (completers q).Pays 0 s ({ s₁ with registered := toRun :: s₁.registered }.setStack t
      (.addContinuations p [⟨p, toRun, scheduler⟩] :: .user (k toReturn) :: rest)) := by
  refine (completers q).pays_thenDo hs hf (m := 0) (Factory.completers hf q) ?_
  cases hacts <;> simp [Code.completes, total_completers, hnext]

/-! ## The steps of payloads that are run -/

/-- The continuation of `task_factory` completes the stand-in, which is not `q`. -/
theorem counts_unwrapsError {l p source : ℕ} {e : E} (hs : s.stack t = .run l (some p) :: rest)
    (hl : l ≠ q) (hsource : source ≠ q) :
    (completers q).Pays 0 s (((s.read p l (.error e)).setResult source (.error e)).setStack t
      (.doCompletion source :: .unwrapping l :: rest)) := by
  refine State.Shifts.eq (State.weight_rewrite _ rfl rfl rfl rfl rfl) ?_
  simp [hs, Prices.frame, Tariff.spent, hl, hsource]

theorem counts_unwrapsTask {l p source r : ℕ} (hs : s.stack t = .run l (some p) :: rest)
    (hl : l ≠ q) (hsource : source ≠ q) :
    (completers q).Pays 0 s ((s.read p l (.ok (.task r))).setStack t
      (.collapseLeftIntoRight source r :: .unwrapping l :: rest)) := by
  refine State.Shifts.eq (State.weight_move _ rfl rfl rfl rfl) ?_
  simp [hs, Prices.frame, Tariff.spent, hl, hsource]

/-- **Every step passes the completion of a source on.** -/
theorem Claimed.count (hc : Claimed s) (hset : Settled s) (h : Labelled ρ main s)
    (hstep : Step Code.act s t () s') (hq : q ∈ s'.sources ∨ s'.next ≤ q) :
    s'.weight (completers q).supply + (if q < s.next then 1 else 0) =
      s.weight (completers q).supply + if q < s'.next then 1 else 0 := by
  have hw := hset.wellFormed
  have he := hstep.extends
  -- a payload with work, or the stand-in of one, is no source
  have apart {p : ℕ} (hp : p < s.next) (hs : p ∉ s.sources) : p ≠ q := by
    rintro rfl
    rcases hq with hq | hq
    · rcases hstep.mem_sources hq with hq | hq
      · exact hs hq
      · omega
    · have hle := he.next_le
      omega
  have runs {p : ℕ} (hp : s.Runnable p) : p ≠ q :=
    apart hp.lt fun hs => hp.work (hset.apart.bare p hs)
  have fresh {n : ℕ} (hle : s.next ≤ n) (hq : q ∈ s.sources ∨ n ≤ q) : q < s.next ↔ q < n := by
    rcases hq with hq | hq
    · have hlt := hw.sources q hq
      omega
    · omega
  have standIn {l source : ℕ} (hwork : (s.heap l).work = some (.unwrap source)) : source ≠ q :=
    apart ((hw.payload l).unwraps source hwork) (hset.apart.standIn l source hwork)
  let P : Prices (Code V E) := completers q
  cases hstep with
  | idle hs hi => exact pays_completers.1 (P.pays_idle hs hi)
  | ticksNothing _ ha | ticks _ ha => exact absurd ha (Code.act_ne_tick _ _ _)
  | @mainReturns u r hs ha =>
    have hu : u.completes q = 0 := (ha ▸ u.acts : u.Acts (.ret r)).completes
    exact pays_completers.1 (P.pays_mainReturns hs hu)
  | @returns u x rest r y hs ha =>
    have hu : u.completes q = 0 := (ha ▸ u.acts : u.Acts (.ret r)).completes
    exact pays_completers.1 (P.pays_returns hs hu)
  | @emits u rest r k hs ha =>
    have hacts : u.Acts (.emit r k) := ha ▸ u.acts
    cases hacts
    exact pays_completers.1 (P.pays_emits hs rfl)
  | @constructs u rest k hs ha => exact pays_completers.1 (counts_constructs hs (ha ▸ u.acts))
  | @completes u rest p r k hs ha => exact pays_completers.1 (counts_completes hs (ha ▸ u.acts))
  | @makeTaskInline u rest cancelled unwrap callable k s₁ toRun toReturn hs ha hf =>
    exact pays_completers.1 (counts_makeTaskInline hs (ha ▸ u.acts) hf
      (fresh hf.extends.next_le (hf.sameRest.sources ▸ hq)))
  | @makeTaskDispatcher u rest cancelled unwrap callable k s₁ toRun toReturn hs ha hf =>
    exact pays_completers.1 (counts_makeTaskDispatcher hs (ha ▸ u.acts) hf
      (fresh hf.extends.next_le (hf.sameRest.sources ▸ hq)))
  | @thenDo u rest p scheduler cancelled handlesExpected unwrap callable k s₁ toRun toReturn hs ha _
      hf =>
    exact pays_completers.1 (counts_thenDo hs (ha ▸ u.acts) hf
      (fresh hf.extends.next_le (hf.sameRest.sources ▸ hq)))
  | completed hs => exact pays_completers.1 (P.pays_completed hs)
  | runBare hs hwork => exact absurd hwork (hw.top hs).1.work
  | decides hs hinput =>
    have hx := runs (hw.top hs).1
    exact pays_completers.1 (P.pays_decides hs hinput (by simp [P, hx]))
  | @invokes x parent rest s₁ u hs hinput =>
    have hx := runs (hw.top hs).1
    obtain ⟨R, -, -, hfate⟩ := h.of_input hw hs hinput
    have hu : u.completes q = 0 := Code.completes_of_handle (Role.handle_of_invoked hfate)
    exact pays_completers.1 (P.pays_invokes hs hinput (by simp [P, hx, hu]))
  | unwrapsError hs hwork =>
    exact pays_completers.1 (counts_unwrapsError hs (runs (hw.top hs).1) (standIn hwork))
  | unwrapsTask hs hwork =>
    exact pays_completers.1 (counts_unwrapsTask hs (runs (hw.top hs).1) (standIn hwork))
  | unwrapped hs => exact pays_completers.1 (P.pays_unwrapped hs)
  | completesPayload hs _ hdone =>
    exact pays_completers.1 (P.pays_completesPayload (hw.top hs).1 hs hdone)
  | collapses hs _ hdone => exact pays_completers.1 (P.pays_collapses (hw.top hs).1 hs hdone)
  | refuses hs _ hdone =>
    rw [hc.not_refused hset hs] at hdone
    cases hdone
  | ranAll hs => exact pays_completers.1 (P.pays_ranAll hs)
  | handsInline hs => exact pays_completers.1 (P.pays_handsInline hs)
  | handsDispatcher hs => exact pays_completers.1 (P.pays_handsDispatcher hs)
  | addsNothing hs => exact pays_completers.1 (P.pays_addsNothing hs)
  | addsAlong hs => exact pays_completers.1 (P.pays_addsAlong hs)
  | addsLate hs => exact pays_completers.1 (P.pays_addsLate hs)
  | stores hs => exact pays_completers.1 (P.pays_stores (hw.top hs).1 hs)
  | unlocks hs => exact pays_completers.1 (P.pays_unlocks hs)

/-- **Every step keeps the sources claimed.** -/
theorem Claimed.step (hc : Claimed s) (hset : Settled s) (h : Labelled ρ main s)
    (hstep : Step Code.act s t () s') : Claimed s' := by
  intro q hq
  have hq₀ : q ∈ s.sources ∨ s.next ≤ q := by
    rcases hq with hq | hq
    · exact hstep.mem_sources hq
    · exact .inr (hstep.extends.next_le.trans hq)
  have hsum := hc q hq₀
  have hcount := hc.count hset h hstep hq
  omega

end

end Arcana.Programs
