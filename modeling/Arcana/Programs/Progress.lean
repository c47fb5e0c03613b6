import Mathlib.Algebra.BigOperators.Group.Finset.Piecewise
import Arcana.Programs.Account

/-!
# No run gets stuck

`Coherent` collects what holds in every state of a run of a program. In such a state a thread that
has a call under way can make a step (`Coherent.progress`): works find the results that they read,
no completion is refused, and the only call that may have to wait is `add_continuations`, for the
mutex of a payload whose redirect another thread follows. That thread has newer payloads in hand, so
that the chain of threads that wait for each other comes to an end.

* `Coherent.step` and `Coherent.of_reach` say that every step keeps what it collects.
* `Coherent.user_steps`, `Coherent.run_steps` and `Coherent.top_steps` say which calls have a step
  for certain.
* `Coherent.holder_steps` is about the calls that wait, by induction on how many payloads are newer.
* `Coherent.progress` says that some thread can make a step, and `Coherent.finished` what is there
  when none can.
-/

namespace Arcana.Programs

open Function Foundations Tasks

universe u v

variable {T : Type*} {V : Type u} {E : Type v} [ErrorTraits E] {ρ ρ' : List (Role V E)}
  {main : Program V E} {s s' : State T (Code V E) V E} {t : T}

/-- **What holds in every state of a run of `main`**, with the roles of its payloads. -/
structure Coherent [Fintype T] (ρ : List (Role V E)) (main : Program V E)
    (s : State T (Code V E) V E) : Prop where
  length : ρ.length = s.next
  labelled : Labelled ρ main s
  ordered : Ordered ρ s
  settled : Settled s
  claimed : Claimed s
  working : Working s
  /-- The invocations and the observations that were made and that will be. -/
  balance : ∀ r : Tariff, r.step = 0 →
    s.weight (r.prices ρ).supply + r.spent s = r.call * (main.calls + 1) + r.observation

namespace Coherent

variable [DecidableEq T] [Fintype T]

theorem launch (t₀ : T) (main : Program V E) (scheduler : Scheduler) :
    Coherent [] main (launch t₀ main scheduler) where
  length := rfl
  labelled := {
    payload := fun p hp => by cases hp
    bases := fun p hp => by cases hp
    observers := fun p hp => by cases hp
    frames := fun t f hf => by
      obtain rfl := List.mem_singleton.1 hf
      show Code.Fits [] main (if t = t₀ then _ else _)
      split
      · exact .makes (p := main) rfl fun _ _ => rfl
      · exact .ret _
    calls := fun _ => .singleton _
    queue := fun c hc => by cases hc
    emitted := fun r hr => by cases hr }
  ordered := {
    calls := fun _ => List.pairwise_singleton _ _
    inner := fun p r hi => by cases hi.2
    upward := fun t f hf => by
      obtain rfl := List.mem_singleton.1 hf
      trivial
    redirects := fun p q hq => by cases hq }
  settled := .init _
  claimed q _ := by
    have hzero (t : T) : (completers q).frame
        (.user (if t = t₀ then .build main [] (.observed scheduler) else .ret (.value .void)) :
          Frame (Code V E) V E) = 0 := by
      split <;> rfl
    simp [State.weight, State.stackWeight, Weight.payloads, Programs.launch, Tasks.init, hzero]
  working t p rest h := by cases h
  balance r hr := by
    have hcode (t : T) : (r.prices []).frame
        (.user (if t = t₀ then .build main [] (.observed scheduler) else .ret (.value .void)) :
          Frame (Code V E) V E) =
        if t = t₀ then r.call * (main.calls + 1) + r.observation else 0 := by
      split
      · simp only [Prices.frame, Tariff.prices_code, Tariff.code, Tariff.worth, Tariff.attached,
          Tariff.purpose, hr, Program.attachCost, Program.attachCalls]
        ring
      · exact hr
    simp [State.weight, State.stackWeight, Weight.payloads, Programs.launch, Tasks.init, hcode,
      Tariff.spent]

/-- **Every step keeps it**, with roles for what it allocates. -/
theorem step (h : Coherent ρ main s) (hstep : Step Code.act s t () s') :
    ∃ ρ', ρ <+: ρ' ∧ Coherent ρ' main s' := by
  have hw := h.settled.wellFormed
  obtain ⟨ρ', hρ, hlen, h'⟩ := h.labelled.step hw h.length hstep
  have hordered := h.ordered.mono hρ h.labelled hw
  have hlabelled := h.labelled.mono hρ
  refine ⟨ρ', hρ, hlen, h', hordered.step hlabelled h.settled hstep, h.settled.step hstep,
    h.claimed.step h.settled h.labelled hstep, h.working.step h.settled.stacked hstep,
    fun r hr => ?_⟩
  obtain ⟨n, hpays, -⟩ := Step.pays r hlabelled h' hordered h.settled h.claimed hstep
  have hbalance := h.balance r hr
  rw [Prices.Pays, h.labelled.supply_mono r hρ hw] at hpays
  simp [hr] at hpays
  rw [hpays, hbalance]

theorem of_reach {t₀ : T} {scheduler : Scheduler}
    (h : Reach (Tasks.step Code.act) anyStep (Programs.launch t₀ main scheduler) s) :
    ∃ ρ, Coherent ρ main s := by
  refine h.invariant (I := fun s => ∃ ρ, Coherent ρ main s) ⟨[], launch t₀ main scheduler⟩
    fun a l b ha _ hstep => ?_
  obtain ⟨ρ, ha⟩ := ha
  exact (ha.step (step_sound hstep)).imp fun _ => And.right

/-! ## What the calls find -/

omit [DecidableEq T] in
/-- The mutex of a payload that is not completed is free. -/
theorem mutexFree (h : Coherent ρ main s) {p : ℕ} (hp : (s.heap p).completed = false) :
    s.mutexFree p = true := by
  refine State.mutexFree_iff.2 fun t f hf => ?_
  cases f with
  | holding q =>
    have hne : q ≠ p := by
      rintro rfl
      obtain ⟨r, hr⟩ := Option.ne_none_iff_exists'.1 (h.ordered.upward t (.holding q) hf)
      rw [((h.settled.wellFormed.payload q).redirect r hr).1] at hp
      cases hp
    simpa [Frame.holds] using hne
  | _ => rfl

omit [DecidableEq T] in
/-- A payload that a call is about to complete is not completed. -/
theorem not_completed (h : Coherent ρ main s) {p : ℕ} (hp : p < s.next)
    {f : Frame (Code V E) V E} (hf : f ∈ s.stack t) (hclaims : 1 ≤ (completers p).frame f)
    (howes : 1 ≤ f.owes (fun q => (s.heap q).work) p) : (s.heap p).completed = false := by
  by_cases hs : p ∈ s.sources
  · exact h.claimed.not_completed h.settled.wellFormed hs hf hclaims
  · exact h.settled.not_completed hp hf howes hs

omit [DecidableEq T] in
theorem lt_of_role (h : Coherent ρ main s) {p : ℕ} {R : Role V E} (hp : ρ[p]? = some R) :
    p < s.next :=
  h.length ▸ (List.getElem?_eq_some_iff.1 hp).1

omit [DecidableEq T] in
/-- The code of a callable returns what the payload can hold. -/
theorem returns (h : Coherent ρ main s) {u : Code V E} {x : ℕ} {r : Return V E}
    {rest : List (Frame (Code V E) V E)} (hs : s.stack t = .user u :: .doWork x :: rest)
    (hu : u.Acts (.ret r)) : ∃ y, outputWrapper r = some y := by
  have hc := h.labelled.calls t
  rw [hs] at hc
  have hans : Answers ρ x u := (List.isChain_cons_cons.1 hc).1
  cases hans with
  | returns _ e hout =>
    subst e
    cases hu
    exact ⟨_, hout⟩
  | throws _ e _ hcatches =>
    subst e
    cases hu
    exact ⟨_, if_pos hcatches⟩
  | program _ _ hpurpose =>
    cases hu with
    | returned q => exact ⟨_, rfl⟩
    | ret => cases hpurpose
  | observes _ e =>
    subst e
    cases hu
  | observed _ e =>
    subst e
    cases hu
    exact ⟨_, rfl⟩

/-! ## What the calls do -/

/-- User code can go on. -/
theorem user_steps (h : Coherent ρ main s) {u : Code V E} {rest : List (Frame (Code V E) V E)}
    (hs : s.stack t = .user u :: rest) : ∃ s', Tasks.step Code.act s ⟨t, (), 0⟩ = some s' := by
  have hacts := u.acts
  have hfits : u.Fits ρ main := h.labelled.top hs
  have goes {q : ℕ} {as : List (Attachment V E)} {purpose : Purpose}
      (hu : (Code.built q as purpose).Fits ρ main) : q < s.next := by
    cases hu with
    | makes hmakes => exact h.lt_of_role hmakes.choose_spec.1
  have back {r : Return V E} (hu : u.Acts (.ret r)) (ha : u.act () = .ret r) :
      ∃ s', Tasks.step Code.act s ⟨t, (), 0⟩ = some s' := by
    cases rest with
    | nil => simp [Tasks.step, hs, stepThread, stepUser, ha]
    | cons g rest =>
      have hc := h.settled.stacked t
      rw [hs] at hc
      have hg := (List.isChain_cons_cons.1 hc).1
      cases g with
      | doWork x =>
        obtain ⟨y, hy⟩ := h.returns hs hu
        simp [Tasks.step, hs, stepThread, stepUser, ha, hy]
      | _ => exact hg.elim
  generalize ha : u.act () = a at hacts
  cases hacts with
  | source | observe => simp [Tasks.step, hs, stepThread, stepUser, ha]
  | @makeTask _ _ _ _ scheduler =>
    cases scheduler <;> simp [Tasks.step, hs, stepThread, stepUser, ha]
  | complete q r as purpose =>
    have hq : q ∈ s.sources := by
      cases hfits with
      | makes hmakes =>
        obtain ⟨b, hb, -, hwork, -⟩ := hmakes
        exact h.labelled.bases q (h.lt_of_role hb) b hb hwork
    simp [Tasks.step, hs, stepThread, stepUser, ha, hq]
  | thenDo q a as purpose =>
    simp [Tasks.step, hs, stepThread, stepUser, ha, goes hfits]
  | observer q scheduler =>
    simp [Tasks.step, hs, stepThread, stepUser, ha, goes hfits]
  | returned q => exact back (.returned q) ha
  | ret r => exact back (.ret r) ha

/-- A work finds the result that it reads, and `task_factory` finds a task in a task of a task. -/
theorem run_steps (h : Coherent ρ main s) {x : ℕ} {parent : Option ℕ}
    {rest : List (Frame (Code V E) V E)} (hs : s.stack t = .run x parent :: rest) :
    ∃ s', Tasks.step Code.act s ⟨t, (), 0⟩ = some s' := by
  obtain ⟨hx, hparent⟩ := h.settled.wellFormed.top hs
  obtain ⟨R, hR, hfits⟩ := h.labelled.payload x hx.lt
  have hcallable : CallableFits ρ (x, parent) := h.labelled.top hs
  cases hwork : (s.heap x).work with
  | none => exact absurd hwork hx.work
  | some work =>
    cases parent with
    | none =>
      obtain ⟨R', cancelled, callable, hR', hstart⟩ := hcallable
      cases hR.symm.trans hR'
      cases (hfits.work.symm.trans hwork).symm.trans hstart
      simp [Tasks.step, hs, stepThread, stepRun, hwork]
    | some q =>
      obtain ⟨input, hinput⟩ := Option.isSome_iff_exists.1 (hparent q rfl).result
      cases work with
      | start => simp [Tasks.step, hs, stepThread, stepRun, hwork]
      | continuation =>
        simp [Tasks.step, hs, stepThread, stepRun, hwork, State.parentResult, hinput]
      | unwrap source =>
        obtain ⟨_, _, hq, -⟩ := Reads.of_link hcallable (h.labelled.role_link hx.lt hwork)
        have hholds := (h.labelled.fits (hparent q rfl).lt hq).result input hinput
        rcases input with e | _ | _ | r
        · simp [Tasks.step, hs, stepThread, stepRun, hwork, State.parentResult, hinput, stepUnwrap]
        · exact hholds.elim
        · exact hholds.elim
        · obtain ⟨p', hr, -⟩ := hholds
          simp [Tasks.step, hs, stepThread, stepRun, hwork, State.parentResult, hinput, stepUnwrap,
            h.lt_of_role hr]

/-- The only call that may have to wait is `add_continuations`, for a mutex. -/
theorem top_steps (h : Coherent ρ main s) {f : Frame (Code V E) V E}
    {rest : List (Frame (Code V E) V E)} (hs : s.stack t = f :: rest)
    (hfree : ∀ q cs, f = .addContinuations q cs → s.mutexFree q = true) :
    ∃ s', Tasks.step Code.act s ⟨t, (), 0⟩ = some s' := by
  have hw := h.settled.wellFormed
  have hmem : f ∈ s.stack t := by rw [hs]; exact .head _
  cases f with
  | user u => exact h.user_steps hs
  | run x parent => exact h.run_steps hs
  | doWork x => exact absurd hs (h.working t x rest)
  | completing | unwrapping | holding => simp [Tasks.step, hs, stepThread]
  | doCompletion p =>
    have hp := h.not_completed (hw.top hs).1 hmem (by simp [Prices.frame]) (by simp [Frame.owes])
    simp [Tasks.step, hs, stepThread, stepDoCompletion, h.mutexFree hp, Payload.cannibalize, hp]
  | collapseLeftIntoRight left right =>
    have hp := h.not_completed (hw.top hs).1 hmem (by simp [Prices.frame]) (by simp [Frame.owes])
    simp [Tasks.step, hs, stepThread, stepCollapse, h.mutexFree hp, Payload.cannibalize, hp]
  | runAll cs =>
    cases cs with
    | nil => simp [Tasks.step, hs, stepThread, stepRunAll]
    | cons c cs =>
      cases hc : c.schedulingFunction <;> simp [Tasks.step, hs, stepThread, stepRunAll, hc]
  | addContinuations q cs =>
    have hq := hfree q cs rfl
    by_cases hcs : cs = []
    · simp [Tasks.step, hs, stepThread, stepAddContinuations, hcs]
    · cases hr : (s.heap q).taskRedirect with
      | some q' => simp [Tasks.step, hs, stepThread, stepAddContinuations, hcs, hq, hr]
      | none =>
        cases hdone : (s.heap q).completed <;>
          simp [Tasks.step, hs, stepThread, stepAddContinuations, hcs, hq, hr, hdone,
            Payload.internalAddContinuations]

omit [DecidableEq T] in
theorem exists_holding {q : ℕ} (hq : ¬ s.mutexFree q = true) : ∃ t, .holding q ∈ s.stack t := by
  rw [State.mutexFree_iff] at hq
  push Not at hq
  obtain ⟨t, f, hf, hholds⟩ := hq
  refine ⟨t, ?_⟩
  cases f with
  | holding p =>
    have e : p = q := by simpa [Frame.holds] using hholds
    exact e ▸ hf
  | _ => exact absurd rfl hholds

/-- **Threads do not wait for each other in a circle**: one that holds a mutex only waits for one of
a newer payload, so that some thread can go on. -/
theorem holder_steps (h : Coherent ρ main s) {q : ℕ} (hq : .holding q ∈ s.stack t) :
    ∃ l s', Tasks.step Code.act s l = some s' := by
  induction hn : s.next - q using Nat.strong_induction_on generalizing t q with
  | _ n ih =>
    cases hs : s.stack t with
    | nil =>
      rw [hs] at hq
      cases hq
    | cons f rest =>
      by_cases hfree : ∀ p cs, f = .addContinuations p cs → s.mutexFree p = true
      · exact ⟨_, h.top_steps hs hfree⟩
      · push Not at hfree
        obtain ⟨p, cs, rfl, hheld⟩ := hfree
        obtain ⟨t', hp⟩ := exists_holding hheld
        have hcalls := h.ordered.calls t
        rw [hs] at hcalls hq
        have hrest : .holding q ∈ rest := by simpa using hq
        have hlt : q + 1 ≤ p := ((List.pairwise_cons.1 hcalls).1 _ hrest).hands p rfl
        have hnext : p < s.next := (h.settled.wellFormed.top hs).1
        exact ih (s.next - p) (by omega) hp rfl

/-- **A call under way never gets stuck**: some thread can make a step. -/
theorem progress (h : Coherent ρ main s) (ht : s.stack t ≠ []) :
    ∃ l s', Tasks.step Code.act s l = some s' := by
  obtain ⟨f, rest, hs⟩ := List.exists_cons_of_ne_nil ht
  by_cases hfree : ∀ p cs, f = .addContinuations p cs → s.mutexFree p = true
  · exact ⟨_, h.top_steps hs hfree⟩
  · push Not at hfree
    obtain ⟨p, cs, -, hheld⟩ := hfree
    obtain ⟨t', hp⟩ := exists_holding hheld
    exact h.holder_steps hp

/-- A state without a step has nothing left to run. -/
theorem finished (h : Coherent ρ main s) (t₀ : T) (hstuck : ∀ l, Tasks.step Code.act s l = none) :
    (∀ t, s.stack t = []) ∧ s.queue = [] := by
  have hstack (t : T) : s.stack t = [] := by
    by_contra ht
    obtain ⟨l, s', hstep⟩ := h.progress ht
    rw [hstuck l] at hstep
    cases hstep
  refine ⟨hstack, ?_⟩
  cases hq : s.queue with
  | nil => rfl
  | cons c cs =>
    have hidle := hstuck ⟨t₀, (), 0⟩
    simp [Tasks.step, hstack, stepThread, stepIdle, hq] at hidle

end Coherent

end Arcana.Programs
