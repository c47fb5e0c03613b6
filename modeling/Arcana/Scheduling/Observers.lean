import Arcana.Scheduling.Effects

/-!
# Waiting observers

A call of `on` that waits for its state can be reached only through the entry of `m_states`:
`move_to` and `cancel_enter` look its `StateEntered` up there. `cancel_enter` completes the source
of the entry that it erases. `exit` and `cancel_exit` complete `StateExited` only; when the entry
they erase is one that a call of `on` waits on, nobody will ever complete its `StateEntered`. In a
run in which they do not meet such an entry, no observer is orphaned (`observers_not_orphaned`).

* `State.Waits` and `State.Entering` say that a call waits, and that its source is about to be
  completed.
* `State.SparesWaiting` is the condition on a step.
* `State.Attended` and `State.Registered` are the invariants, each with its step lemma;
  `Accompanied` puts them together.
* `observers_not_orphaned` is the result about runs, and `observer_orphaned` a run in which an
  observer is left.
-/

namespace Arcana.Scheduling

open Function Foundations

variable {S C D : Type*}

namespace State

/-- The call `a` of `on` waits for `StateEntered` of the completions object `k`. -/
structure Waits (s : State S C D) (a : ℕ) (state : S) (k : ℕ) : Prop where
  call : ∃ token, s.args a = some (.on state token k)
  entered : (s.driver.object k).StateEntered.completed = false

/-- Some call is about to complete `StateEntered` of `k`. -/
def Entering (s : State S C D) (k : ℕ) : Prop := ∃ b r, s.claim b = some (.entered k r)

/-- When the critical section that the step runs takes an entry which a call of `on` waits on, then
it is that of `cancel_enter`, or the completion of `StateEntered` is already under way. -/
def SparesWaiting (s : State S C D) (l : Label S C D) : Prop :=
  ∀ owner state op k, s.critical l = some (owner, state, op) → op.finds s.driver state = some k →
    (∃ a, s.Waits a state k) → op = .cancelEnter ∨ s.Entering k

/-- Every call of `on` that waits is in the entry of its state, or about to be completed. -/
def Attended (s : State S C D) : Prop :=
  ∀ a state k, s.Waits a state k → s.driver.m_states state = some k ∨ s.Entering k

end State

/-- The token that a call of `on` has a listener at. -/
def Call.listensTo : Call S C D → Option C
  | .on _ token _ .cancelling | .on _ token _ (.completing _) | .on _ token _ .awaiting => token
  | _ => none

/-- Waiting calls of `on` have their listener registered. -/
def State.Registered (s : State S C D) : Prop :=
  ∀ a x c, s.call a = some x → x.listensTo = some c → a ∈ s.m_listeners c

/-! ## One step -/

theorem State.Entering.of_update {s s' : State S C D} {k a : ℕ} {c : Option (Completion D)}
    (h : s.Entering k) (hclaim : s'.claim = update s.claim a c) (hnone : s.claim a = none) :
    s'.Entering k := by
  obtain ⟨b, r, hb⟩ := h
  have hne : b ≠ a := by
    rintro rfl
    cases hnone.symm.trans hb
  exact ⟨b, r, by rw [hclaim, update_of_ne hne, hb]⟩

theorem State.Entering.of_eq {s s' : State S C D} {k : ℕ} (h : s.Entering k)
    (hclaim : s'.claim = s.claim) : s'.Entering k :=
  h.imp fun _ hb => hclaim ▸ hb

section step

variable [DecidableEq S] [DecidableEq C] [Inhabited D] {s s' : State S C D} {l : Label S C D}

theorem State.Attended.step (h : s.Attended) (hw : WellFormed s) (ok : s.SparesWaiting l)
    (hstep : Step s l s') : s'.Attended := by
  intro a state k hwait
  obtain ⟨⟨token, ha⟩, hk⟩ := hwait
  cases hstep.effect (hw.fresh _ le_rfl) with
  | moveTo hf hargs hclaim =>
    rw [hargs, update_apply] at ha
    split at ha
    · cases ha
    · have hne : k ≠ s.driver.objects := hw.ne_objects ha
      rw [hf.object hne] at hk
      refine (h a state k ⟨⟨token, ha⟩, hk⟩).imp hf.m_states fun h => ?_
      exact h.of_update hclaim hw.claim_fresh
  | «on» hf _ hdriver hargs hclaim =>
    rw [hargs, update_apply] at ha
    rw [hdriver, Driver.setWorkPending_entered] at hk
    split at ha
    · cases ha
      exact .inl (by simpa [hdriver] using hf.fetched)
    · have hne : k ≠ s.driver.objects := hw.ne_objects ha
      rw [hf.object hne] at hk
      refine (h a state k ⟨⟨token, ha⟩, hk⟩).imp (fun h => ?_) fun h => ?_
      · simpa [hdriver] using hf.m_states h
      · exact h.of_eq hclaim
  | completes hc hdriver hargs hclaim =>
    rw [hdriver] at hk ⊢
    obtain ⟨hk, hne⟩ := Driver.entered_of_complete hk
    refine (h a state k ⟨⟨token, hargs ▸ ha⟩, hk⟩).imp (fun h => by simpa using h) fun h => ?_
    -- the claim on the source is another one, since the source is still not completed
    obtain ⟨b, r, hb⟩ := h
    refine ⟨b, r, ?_⟩
    rw [hclaim, update_of_ne, hb]
    rintro rfl
    cases hb.symm.trans hc
    exact hne r rfl
  | @takes _ _ _ _ state' op k' hop hk' hnone hdriver hargs hclaim =>
    rw [hdriver] at hk ⊢
    have hwait : s.Waits a state k := ⟨⟨token, hargs ▸ ha⟩, hk⟩
    rcases h a state k hwait with h | h
    · by_cases e : state = state'
      · subst e
        cases (Operation.m_states_of_finds hk').symm.trans h
        rcases ok _ _ _ _ hop hk' ⟨a, hwait⟩ with rfl | h
        · exact .inr ⟨_, _, by rw [hclaim, update_self]; rfl⟩
        · exact .inr (h.of_update hclaim hnone)
      · exact .inl (by simpa [e] using h)
    · exact .inr (h.of_update hclaim hnone)
  | rest _ hdriver hargs hclaim =>
    rw [hdriver] at hk ⊢
    exact (h a state k ⟨⟨token, hargs ▸ ha⟩, hk⟩).imp id fun h => h.of_eq hclaim

omit [DecidableEq S] [DecidableEq C] [Inhabited D] in
theorem listensTo_of_completes {x y t : Call S C D} {c : Completion D} {threw : Bool} {token : C}
    (h : Completes x c y t) (hl : (if threw then t else y).listensTo = some token) :
    x.listensTo = some token := by
  cases threw <;> cases h <;> first | exact hl | cases hl

theorem State.Registered.step (h : s.Registered) (hstep : Step s l s') : s'.Registered := by
  have goesOn {s₁ : State S C D} {a : ℕ} {y : Call S C D} (hcall : s₁.call = s.call)
      (others : ∀ b c, b ≠ a → b ∈ s.m_listeners c → b ∈ s₁.m_listeners c)
      (own : ∀ c, y.listensTo = some c → a ∈ s₁.m_listeners c) : (s₁.setCall a y).Registered := by
    intro b z c hb hz
    rw [State.setCall_call, update_apply] at hb
    split at hb
    · rename_i e
      cases hb
      exact e ▸ own c hz
    · rename_i hne
      exact others b c hne (h b z c (hcall ▸ hb) hz)
  have starts {s₁ : State S C D} {y : Call S C D} (hcall : s₁.call = s.call)
      (hlisteners : s₁.m_listeners = s.m_listeners) (hy : y.listensTo = none) :
      (s₁.newCall y).Registered := by
    intro b z c hb hz
    rw [State.newCall_call, update_apply] at hb
    split at hb
    · cases hb
      cases hy.symm.trans hz
    · exact hlisteners ▸ h b z c (hcall ▸ hb) hz
  cases hstep with
  | moveTo | «on» | cancels => exact starts rfl rfl rfl
  | cancelsAgain => exact h
  | completes ha hx =>
    exact goesOn rfl (fun _ _ _ h => h) fun c hy => h _ _ c ha (listensTo_of_completes hx hy)
  | takes ha _ _ hx =>
    refine goesOn rfl (fun _ _ _ h => h) fun c hy => ?_
    cases hx <;> exact h _ _ c ha hy
  | passes ha hx =>
    refine goesOn rfl (fun _ _ _ h => h) fun c hy => ?_
    cases hx <;> exact h _ _ c ha hy
  | @listens a _ _ _ _ token ha hx =>
    refine goesOn (State.addListener_call _ _ _) (fun b c _ hb => ?_) fun c hy => ?_
    · exact State.mem_addListener.2 (.inl hb)
    · refine State.mem_addListener.2 (.inr ⟨rfl, ?_⟩)
      cases hx with
      | moveTo => split at hy <;> cases hy
      | «on» => split at hy <;> exact hy
  | moveToReturns ha | enters ha =>
    exact goesOn (State.resetListener_call _ _ _) (fun b c hne => State.mem_resetListener hne) nofun
  | works ha | signals ha => exact goesOn rfl (fun _ _ _ h => h) nofun

/-- A step that does not spare the observers orphans one. -/
theorem orphans_of_not_spares (hw : WellFormed s) (ok : ¬ s.SparesWaiting l) (hstep : Step s l s') :
    ∃ a state k, s'.Waits a state k ∧ s'.driver.m_states state = none ∧ ¬ s'.Entering k := by
  simp only [State.SparesWaiting, not_forall, not_or] at ok
  obtain ⟨owner, state, op, k, hop, hk, ⟨a, ⟨token, ha⟩, hwait⟩, hne, hentering⟩ := ok
  cases hstep.effect (hw.fresh _ le_rfl) with
  | moveTo | «on» => cases hop
  | completes hc => cases hc.symm.trans (State.claim_of_critical hop)
  | rest hnone => cases hk.symm.trans (hnone _ _ _ hop)
  | takes hop' hk' _ hdriver hargs hclaim =>
    cases hop'.symm.trans hop
    cases hk'.symm.trans hk
    refine ⟨a, state, k, ⟨⟨token, hargs ▸ ha⟩, hdriver ▸ hwait⟩, by simp [hdriver], ?_⟩
    rintro ⟨b, r, hb⟩
    rw [hclaim, update_apply] at hb
    split at hb
    · cases op with
      | cancelEnter => exact hne rfl
      | cancelExit | exit => cases hb
    · exact hentering ⟨b, r, hb⟩

end step

section

variable [DecidableEq S] [DecidableEq C] [Inhabited D] {s : State S C D}

/-- The invariant of the runs that spare the observers. -/
structure Accompanied (s : State S C D) : Prop where
  wellFormed : WellFormed s
  attended : s.Attended
  registered : s.Registered

theorem Accompanied.of_reach (h : Reach step State.SparesWaiting init s) : Accompanied s := by
  have start : Accompanied (init : State S C D) :=
    ⟨.init, fun _ _ _ hwait => (by cases hwait.call.choose_spec), fun _ _ _ ha => (by cases ha)⟩
  refine h.invariant start fun a l b ha ok hstep => ?_
  have hstep := step_sound hstep
  exact ⟨ha.wellFormed.step hstep, ha.attended.step ha.wellFormed ok hstep,
    ha.registered.step hstep⟩

/-- **No observer is orphaned.** In every state between operations of a run that spares the
observers, a call of `on` whose `StateEntered` is not completed is in the entry of its state: the
next `move_to` of the state is about to complete it, and its listener, which is registered at its
token, takes it. -/
theorem observers_not_orphaned (h : Reach step State.SparesWaiting init s)
    (hbetween : ∀ b, s.claim b = none) {a : ℕ} {state : S} {token : Option C} {k : ℕ} {p : On D}
    (ha : s.call a = some (.on state token k p))
    (hk : (s.driver.object k).StateEntered.completed = false) :
    s.driver.m_states state = some k ∧
      (∀ token' s', step s (.moveTo state token') = some s' →
        s'.claim s.calls = some (.entered k (.ok ()))) ∧
      listener s a = some (state, .entered k canceled) ∧
      ∀ c, token = some c → p = .awaiting → a ∈ s.m_listeners c := by
  have hinv := Accompanied.of_reach h
  have hwait : s.Waits a state k := ⟨⟨token, State.args_of_call ha⟩, hk⟩
  have hentry : s.driver.m_states state = some k := by
    refine (hinv.attended a state k hwait).resolve_right fun hentering => ?_
    obtain ⟨b, r, hb⟩ := hentering
    cases (hbetween b).symm.trans hb
  refine ⟨hentry, fun token' s' hs' => ?_, ?_, fun c htoken hp => ?_⟩
  · simp only [step, Driver.fetchState, hentry, Option.some.injEq] at hs'
    subst hs'
    rw [State.claim_newCall]
    exact update_self ..
  · have hcancel : s.driver.cancelEnter state = some k := by
      simp [Driver.cancelEnter, hentry, hk]
    simp [listener, ha, hcancel]
  · subst htoken hp
    exact hinv.registered a _ c ha rfl

end

/-! ## A late exit -/

/-- An entry that is taken is not waited on, or it is `cancel_enter` that takes it. -/
def State.sparesCheck (s : State S C D) (l : Label S C D) : Bool :=
  match s.critical l with
  | some (_, _, .cancelEnter) | none => true
  | some (_, state, op) =>
    (op.finds s.driver state).all fun k => (s.driver.object k).StateEntered.completed

theorem spares_of_check {s : State S C D} {l : Label S C D} (h : s.sparesCheck l = true) :
    s.SparesWaiting l := by
  intro owner state op k hop hk ⟨a, hwait⟩
  cases op with
  | cancelEnter => exact .inl rfl
  | cancelExit | exit =>
    have hentered := hwait.entered
    simp [State.sparesCheck, hop, hk, hentered] at h

/-- An observer calls `on` and its token is cancelled, which completes its task of `enter`. Then
another observer calls `on` with `token`. With `late` the dispatcher ticks only now. -/
def lateExit (late : Bool) : List (Label Unit Unit ℕ) :=
  let tick : List (Label Unit Unit ℕ) := [.proceed 0 0, .proceed 0 0, .proceed 0 0]
  [.on () (some ()), .proceed 0 0, .cancel (), .proceed 1 0, .proceed 1 0, .proceed 1 0,
    .proceed 0 0] ++ (if late then [] else tick.take 2) ++ [.on () none, .proceed 2 0] ++
    if late then tick else []

theorem observers_not_orphaned_waits : ∃ (s : State Unit Unit ℕ),
    Reach step State.SparesWaiting init s ∧ s.args 2 = some (.on () none 1) ∧
      (s.driver.object 1).StateEntered.completed = false ∧ s.driver.m_states () = some 1 := by
  have hrun : (runWhile State.sparesCheck step init (lateExit false)).map (fun s =>
      (s.idle, s.args 2, (s.driver.object 1).StateEntered.completed)) =
      some (true, some (.on () none 1), false) := by decide
  obtain ⟨s, hreach, h⟩ := exists_reach_of_runWhile (fun _ _ => spares_of_check) hrun
  simp only [Prod.mk.injEq] at h
  obtain ⟨hidle, hargs, hk⟩ := h
  have hbetween := (WellFormed.of_reach hreach).claim_of_idle hidle
  obtain ⟨p, hp⟩ := State.call_of_args_on hargs
  have hentry := observers_not_orphaned hreach hbetween hp hk
  exact ⟨s, hreach, hargs, hk, hentry.1⟩

/-- **When the dispatcher ticks late, the exit of the cancelled observer erases the entry that the
other observer waits on.** -/
theorem observer_orphaned : ¬ ∀ s : State Unit Unit ℕ, run step init (lateExit true) = some s →
    (∀ b, s.claim b = none) → ∀ a state token k p, s.call a = some (.on state token k p) →
      (s.driver.object k).StateEntered.completed = false → s.driver.m_states state = some k := by
  have hrun : (run step init (lateExit true)).map (fun s => (s.idle, s.args 2,
      (s.driver.object 1).StateEntered.completed, s.driver.m_states ())) =
      some (true, some (.on () none 1), false, none) := by decide
  obtain ⟨s, hs, h⟩ := Option.map_eq_some_iff.1 hrun
  simp only [Prod.mk.injEq] at h
  obtain ⟨hidle, hargs, hk, hnone⟩ := h
  have hbetween := (WellFormed.of_reach (reach_of_run hs)).claim_of_idle hidle
  obtain ⟨p, hp⟩ := State.call_of_args_on hargs
  intro hall
  cases hnone.symm.trans (hall s hs hbetween 2 () none 1 p hp hk)

end Arcana.Scheduling
