import Arcana.Scheduling.Effects

/-!
# Late operations

`exit`, `cancel_exit` and `cancel_enter` find the entry they take by its state, not by the
completions object that was fetched on their behalf. Once that object is out of the map, an
operation that comes late takes whatever entry the state has then. In a run in which an entry is
only made for a state that no earlier call can still look up, every operation takes its own object
(`takes_own`).

* `State.Outstanding` says that a state may still be looked up on behalf of a call, and
  `State.Timely` is the condition on a step in terms of it.
* `State.Own` and `Answered` are the invariants; `InTime` puts them together.
* `takes_own` is the result about runs, and `takes_other` a run in which an exit takes the entry of
  another visit.
-/

namespace Arcana.Scheduling

open Function Foundations

variable {S C D : Type*}

namespace Call

/-- The call will still look its state up, or register a listener that does. -/
def looks : Call S C D → Bool
  | .moveTo _ token _ .fetched | .moveTo _ token _ .entered => token.isSome
  | .moveTo _ _ _ .cancelling => true
  | .moveTo _ _ _ _ => false
  | .on _ _ _ (.leaving _) | .on _ _ _ .done | .on _ _ _ .threw => false
  | .on _ _ _ _ => true
  | .cancel _ _ => false

/-- The listeners that the call has still to call. -/
def listeners : Call S C D → List ℕ
  | .cancel _ (.calling listeners) | .cancel _ (.completing listeners _) => listeners
  | _ => []

end Call

namespace State

/-- The state of the call `a` may still be looked up on its behalf: by the call itself, by its
listener, which is registered, or by a call of `cancel` that has copied it. -/
def Outstanding (s : State S C D) (a : ℕ) : Prop :=
  (∃ x, s.call a = some x ∧ x.looks = true) ∨ (∃ c, a ∈ s.m_listeners c) ∨
    ∃ b x, s.call b = some x ∧ a ∈ x.listeners

/-- An entry is only made for a state that no earlier call can still look up. -/
def Timely (s : State S C D) (l : Label S C D) : Prop :=
  ∀ state token, l = .moveTo state token ∨ l = .on state token → s.driver.m_states state = none →
    ∀ a x, s.args a = some x → x.state = state → ¬ s.Outstanding a

/-- What can still be looked up on behalf of a call is the object that it fetched. -/
def Own (s : State S C D) : Prop :=
  ∀ a x k, s.args a = some x → s.Outstanding a → s.driver.m_states x.state = some k → k = x.object

end State

/-- The completions object whose `StateEntered` the call saw completed, until it has left. -/
def Call.saw : Call S C D → Option ℕ
  | .on _ _ k .queued | .on _ _ k .working | .on _ _ k (.exiting _) => some k
  | _ => none

/-- `StateEntered` of an entry is not completed with an error, and calls of `on` do not go on before
it is completed. -/
structure Answered (s : State S C D) : Prop where
  entry : ∀ state k, s.driver.m_states state = some k →
    ((s.driver.object k).StateEntered.completed = true →
      (s.driver.object k).StateEntered.result = some (.ok ())) ∧
      ∀ a r, s.claim a = some (.entered k r) → r = .ok ()
  saw : ∀ a x k, s.call a = some x → x.saw = some k →
    (s.driver.object k).StateEntered.completed = true

/-! ## One step -/

section rules

variable {x y t z : Call S C D} {c : Completion D}

theorem Completes.looks (h : Completes x c y t) (threw : Bool)
    (hl : (if threw then t else y).looks = true) : x.looks = true := by
  cases threw <;> cases h <;> first | exact hl | cases hl

theorem Completes.listeners (h : Completes x c y t) (threw : Bool) :
    (if threw then t else y).listeners ⊆ x.listeners := by
  cases threw <;> cases h <;> simp [Call.listeners]

theorem Takes.looks (h : Takes c x y) (hl : y.looks = true) : x.looks = true := by
  cases h <;> first | rfl | exact hl

theorem Takes.listeners (h : Takes c x y) : y.listeners ⊆ x.listeners := by
  cases h <;> simp [Call.listeners]

theorem Passes.looks [Inhabited D] {s : State S C D} (h : Passes s x y) (hl : y.looks = true) :
    x.looks = true := by
  cases h <;> first | rfl | exact hl

theorem Passes.listeners [Inhabited D] {s : State S C D} (h : Passes s x y) :
    y.listeners ⊆ x.listeners := by
  cases h <;> simp [Call.listeners]

theorem Listens.looks [DecidableEq C] {s : State S C D} {a : ℕ} {token : Option C}
    (h : Listens x token y z)
    (hl : (if (s.addListener a token).2 then z else y).looks = true ∨ token.isSome = true) :
    x.looks = true := by
  cases h with
  | «on» => rfl
  | moveTo =>
    cases token with
    | some c => rfl
    | none => rcases hl with hl | hl <;> exact hl

theorem Listens.listeners (h : Listens x token y z) (signaled : Bool) :
    (if signaled then z else y).listeners = [] := by
  cases signaled <;> cases h <;> rfl

end rules

section step

variable [DecidableEq S] [DecidableEq C] [Inhabited D] {s s' : State S C D} {l : Label S C D}

/-- No call that is not new becomes outstanding. -/
theorem Step.outstanding (hstep : Step s l s') {a : ℕ} (hne : a ≠ s.calls) (h : s'.Outstanding a) :
    s.Outstanding a := by
  have goesOn {s₁ : State S C D} {b : ℕ} {x y : Call S C D} (hcall : s₁.call = s.call)
      (hb : s.call b = some x) (hlooks : y.looks = true → x.looks = true)
      (hlisteners : ∀ c, a ∈ s₁.m_listeners c → s.Outstanding a)
      (hcopied : a ∈ y.listeners → s.Outstanding a) (h : (s₁.setCall b y).Outstanding a) :
      s.Outstanding a := by
    rcases h with ⟨z, hz, hl⟩ | ⟨c, hc⟩ | ⟨b', z, hz, hl⟩
    · rw [State.setCall_call, update_apply] at hz
      split at hz
      · rename_i e
        cases hz
        exact .inl ⟨x, e ▸ hb, hlooks hl⟩
      · exact .inl ⟨z, hcall ▸ hz, hl⟩
    · exact hlisteners c hc
    · rw [State.setCall_call, update_apply] at hz
      split at hz
      · cases hz
        exact hcopied hl
      · exact .inr (.inr ⟨b', z, hcall ▸ hz, hl⟩)
  have starts {s₁ : State S C D} {y : Call S C D} (hcall : s₁.call = s.call)
      (hcalls : s₁.calls = s.calls) (hlisteners : s₁.m_listeners = s.m_listeners)
      (hcopied : y.listeners = []) (h : (s₁.newCall y).Outstanding a) : s.Outstanding a := by
    rcases h with ⟨z, hz, hl⟩ | ⟨c, hc⟩ | ⟨b', z, hz, hl⟩
    · rw [State.newCall_call, hcalls, update_of_ne hne, hcall] at hz
      exact .inl ⟨z, hz, hl⟩
    · exact .inr (.inl ⟨c, hlisteners ▸ hc⟩)
    · rw [State.newCall_call, update_apply] at hz
      split at hz
      · cases hz
        simp [hcopied] at hl
      · exact .inr (.inr ⟨b', z, hcall ▸ hz, hl⟩)
  have registered (c : C) (hc : a ∈ s.m_listeners c) : s.Outstanding a := .inr (.inl ⟨c, hc⟩)
  have copied {b : ℕ} {x : Call S C D} (hb : s.call b = some x) (ha : a ∈ x.listeners) :
      s.Outstanding a := .inr (.inr ⟨b, x, hb, ha⟩)
  cases hstep with
  | moveTo | «on» | cancels => exact starts rfl rfl rfl rfl h
  | cancelsAgain => exact h
  | completes hb hx =>
    exact goesOn rfl hb (hx.looks _) registered (fun ha => copied hb (hx.listeners _ ha)) h
  | takes hb _ _ hx =>
    exact goesOn rfl hb hx.looks registered (fun ha => copied hb (hx.listeners ha)) h
  | passes hb hx =>
    exact goesOn rfl hb hx.looks registered (fun ha => copied hb (hx.listeners ha)) h
  | @listens b _ x _ _ token hb hx =>
    refine goesOn (State.addListener_call s b token) hb (fun hl => hx.looks (.inl hl))
      (fun c hc => ?_) (fun ha => by simp [hx.listeners] at ha) h
    rcases State.mem_addListener.1 hc with hc | ⟨rfl, rfl⟩
    · exact registered c hc
    · exact .inl ⟨x, hb, hx.looks (s := s) (a := a) (.inr rfl)⟩
  | @moveToReturns b _ _ token _ hb =>
    exact goesOn (State.resetListener_call s b token) hb (fun hl => by cases hl)
      (fun c hc => registered c (State.mem_of_resetListener hc)) (fun ha => by cases ha) h
  | @enters b _ _ token _ hb =>
    exact goesOn (State.resetListener_call s b token) hb (fun _ => rfl)
      (fun c hc => registered c (State.mem_of_resetListener hc)) (fun ha => by cases ha) h
  | works hb => exact goesOn rfl hb (fun _ => rfl) registered (fun ha => by cases ha) h
  | @signals b _ c hb =>
    refine goesOn rfl hb (fun hl => by cases hl) registered (fun ha => registered c ?_) h
    exact List.mem_reverse.1 ha

omit [DecidableEq S] [DecidableEq C] [Inhabited D] in
/-- What a critical section looks up can be looked up on behalf of its call. -/
theorem outstanding_of_critical {owner : ℕ} {state : S} {op : Operation D}
    (h : s.critical l = some (owner, state, op)) :
    s.Outstanding owner ∧ (∃ x, s.args owner = some x ∧ x.state = state) ∧
      ∀ data, op = .exit data → ∃ token k, s.call owner =
      some (.on state token k (.exiting data)) := by
  cases l with
  | moveTo | «on» | cancel => cases h
  | proceed a data =>
    simp only [State.critical] at h
    split at h
    · rename_i ha
      cases h
      exact ⟨.inl ⟨_, ha, rfl⟩, ⟨_, State.args_of_call ha, rfl⟩, by simp⟩
    · rename_i ha
      cases h
      exact ⟨.inl ⟨_, ha, rfl⟩, ⟨_, State.args_of_call ha, rfl⟩, by simp⟩
    · rename_i ha
      cases h
      exact ⟨.inl ⟨_, ha, rfl⟩, ⟨_, State.args_of_call ha, rfl⟩, fun _ e => by
        cases e
        exact ⟨_, _, ha⟩⟩
    · rename_i token owner' listeners ha
      have hout : s.Outstanding owner' := .inr (.inr ⟨a, _, ha, List.mem_cons_self⟩)
      split at h
      · rename_i howner
        cases h
        exact ⟨hout, ⟨_, State.args_of_call howner, rfl⟩, by simp⟩
      · rename_i howner
        cases h
        exact ⟨hout, ⟨_, State.args_of_call howner, rfl⟩, by simp⟩
      · cases h
    · cases h

theorem State.Own.step (h : s.Own) (hw : WellFormed s) (ok : s.Timely l) (hstep : Step s l s') :
    s'.Own := by
  intro a x k ha hout hk
  have old (hargs : s.args a = some x) (hk : s.driver.m_states x.state = some k) :
      k = x.object := by
    refine h a x k hargs (hstep.outstanding ?_ hout) hk
    rintro rfl
    cases hw.args_fresh.symm.trans hargs
  have fetches {state : S} {token : Option C} {d : Driver S D} {k₁ : ℕ}
      (hl : l = .moveTo state token ∨ l = .on state token) (hf : Fetch s.driver state d k₁)
      (hargs : s.args a = some x) (hk : d.m_states x.state = some k) : k = x.object := by
    cases hf with
    | found _ => exact old hargs hk
    | inserted hnone =>
      have hne : x.state ≠ state := by
        intro hstate
        refine ok state token hl hnone a x hargs hstate (hstep.outstanding ?_ hout)
        rintro rfl
        cases hw.args_fresh.symm.trans hargs
      exact old hargs (by simpa [hne] using hk)
  cases hstep.effect (hw.fresh _ le_rfl) with
  | moveTo hf hargs =>
    rcases of_update_eq_some (hargs ▸ ha) with ⟨-, hx⟩ | ⟨-, hold⟩
    · cases hx
      exact Option.some.inj (hk.symm.trans hf.fetched)
    · exact fetches (.inl rfl) hf hold hk
  | «on» hf _ hdriver hargs =>
    rw [hdriver, Driver.setWorkPending_m_states] at hk
    rcases of_update_eq_some (hargs ▸ ha) with ⟨-, hx⟩ | ⟨-, hold⟩
    · cases hx
      exact Option.some.inj (hk.symm.trans hf.fetched)
    · exact fetches (.inr rfl) hf hold hk
  | completes _ hdriver hargs => exact old (hargs ▸ ha) (by simpa [hdriver] using hk)
  | takes _ _ _ hdriver hargs =>
    rw [hdriver, Driver.erase_m_states, update_apply] at hk
    split at hk
    · cases hk
    · exact old (hargs ▸ ha) hk
  | rest _ hdriver hargs => exact old (hargs ▸ ha) (hdriver ▸ hk)

theorem Answered.entry_step (h : Answered s) (hw : WellFormed s) (hstep : Step s l s') (state : S)
    (k : ℕ) (hk : s'.driver.m_states state = some k) :
    ((s'.driver.object k).StateEntered.completed = true →
      (s'.driver.object k).StateEntered.result = some (.ok ())) ∧
      ∀ a r, s'.claim a = some (.entered k r) → r = .ok () := by
  have fetches {state' : S} {d : Driver S D} {k₁ : ℕ} (hf : Fetch s.driver state' d k₁)
      (hk : d.m_states state = some k) : ((d.object k).StateEntered.completed = true →
        (d.object k).StateEntered.result = some (.ok ())) ∧
        ∀ a r, s.claim a = some (.entered k r) → r = .ok () := by
    cases hf with
    | found _ => exact h.entry state k hk
    | inserted hnone =>
      rw [Driver.insert_m_states, update_apply] at hk
      split at hk
      · cases hk
        refine ⟨fun hc => ?_, fun a r ha => absurd rfl (hw.claim_ne_objects ha)⟩
        simp [Source.completed] at hc
      · have hne : k ≠ s.driver.objects := by
          rintro rfl
          cases (hw.unmade _ le_rfl).symm.trans (hw.entry _ _ hk)
        simpa [hne] using h.entry state k hk
  cases hstep.effect (hw.fresh _ le_rfl) with
  | moveTo hf _ hclaim =>
    obtain ⟨hresult, hclaims⟩ := fetches hf hk
    refine ⟨hresult, fun a r ha => ?_⟩
    rcases of_update_eq_some (hclaim ▸ ha) with ⟨-, hc⟩ | ⟨-, hold⟩
    · cases hc
      rfl
    · exact hclaims a r hold
  | «on» hf _ hdriver _ hclaim =>
    rw [hdriver] at hk ⊢
    simpa [hclaim] using fetches hf hk
  | @completes _ _ _ c hc hdriver _ hclaim =>
    rw [hdriver, Driver.complete_m_states] at hk
    obtain ⟨hresult, hclaims⟩ := h.entry state k hk
    refine ⟨?_, fun a r ha => ?_⟩
    · rw [hdriver, Driver.complete_eq, Driver.setObject_object, update_apply]
      split
      · rename_i e
        subst e
        cases c with
        | entered k r =>
          have hr : r = .ok () := hclaims _ r hc
          subst hr
          exact fun _ => rfl
        | exited k r => exact hresult
      · exact hresult
    · rcases of_update_eq_some (hclaim ▸ ha) with ⟨-, hx⟩ | ⟨-, hold⟩
      · cases hx
      · exact hclaims a r hold
  | @takes _ _ _ _ state' op k' _ hk' _ hdriver _ hclaim =>
    rw [hdriver, Driver.erase_m_states, update_apply] at hk
    split at hk
    · cases hk
    · rename_i hne
      obtain ⟨hresult, hclaims⟩ := h.entry state k hk
      refine ⟨hdriver ▸ hresult, fun a r ha => ?_⟩
      rcases of_update_eq_some (hclaim ▸ ha) with ⟨-, hx⟩ | ⟨-, hold⟩
      · have hobject : k' = k := by
          have hobject := congrArg Completion.object (Option.some.inj hx)
          rwa [Operation.object_completion] at hobject
        subst hobject
        exact absurd (hw.entry_injective (Operation.m_states_of_finds hk') hk) hne
      · exact hclaims a r hold
  | rest _ hdriver _ hclaim =>
    rw [hdriver, hclaim]
    exact h.entry state k (hdriver ▸ hk)

/-- A completed `StateEntered` stays completed. -/
theorem Step.entered_completed (hw : WellFormed s) (hstep : Step s l s') {k : ℕ}
    (hne : k ≠ s.driver.objects) (hk : (s.driver.object k).StateEntered.completed = true) :
    (s'.driver.object k).StateEntered.completed = true := by
  cases hstep.effect (hw.fresh _ le_rfl) with
  | moveTo hf => rwa [hf.object hne]
  | «on» hf _ hdriver => rwa [hdriver, Driver.setWorkPending_entered, hf.object hne]
  | completes _ hdriver =>
    by_contra hc
    have hc := Driver.entered_of_complete (hdriver ▸ Bool.not_eq_true _ ▸ hc)
    cases hk.symm.trans hc.1
  | takes _ _ _ hdriver | rest _ hdriver => rwa [hdriver]

theorem Answered.step (h : Answered s) (hw : WellFormed s) (hstep : Step s l s') : Answered s' := by
  refine ⟨fun state k hk => h.entry_step hw hstep state k hk, fun a x k ha hx => ?_⟩
  have kept {y : Call S C D} (hy : s.call a = some y) (hargs : y.args = x.args)
      (hk : (s.driver.object k).StateEntered.completed = true) :
      (s'.driver.object k).StateEntered.completed = true := by
    refine hstep.entered_completed hw ?_ hk
    cases x with
    | moveTo | cancel => cases hx
    | «on» state token k' p =>
      have hobject : k' = k := by
        cases p <;> cases hx <;> rfl
      have hargs' : s.args a = some (.on state token k') := (State.args_of_call hy).trans hargs
      exact hobject ▸ hw.ne_objects hargs'
  have goesOn {s₁ : State S C D} {b : ℕ} {y z : Call S C D} (hcall : s₁.call = s.call)
      (ha : update s₁.call b (some z) a = some x) (hb : s.call b = some y) (hargs : z.args = y.args)
      (hz : z.saw = some k → (s.driver.object k).StateEntered.completed = true) :
      (s'.driver.object k).StateEntered.completed = true := by
    rcases of_update_eq_some ha with ⟨rfl, e⟩ | ⟨-, ha⟩
    · cases e
      exact kept hb hargs.symm (hz hx)
    · exact kept (hcall ▸ ha) rfl (h.saw a x k (hcall ▸ ha) hx)
  have starts {s₁ : State S C D} {z : Call S C D} (hcall : s₁.call = s.call)
      (ha : update s₁.call s₁.calls (some z) a = some x) (hz : z.saw = none) :
      (s'.driver.object k).StateEntered.completed = true := by
    rcases of_update_eq_some ha with ⟨-, e⟩ | ⟨-, ha⟩
    · cases e
      cases hz.symm.trans hx
    · exact kept (hcall ▸ ha) rfl (h.saw a x k (hcall ▸ ha) hx)
  cases hstep with
  | moveTo | «on» | cancels => exact starts rfl ha rfl
  | cancelsAgain => exact h.saw a x k ha hx
  | completes hb hy =>
    refine goesOn rfl ha hb (hy.args _) fun hz => ?_
    cases hy <;> split at hz <;> cases hz
  | takes hb _ _ hy =>
    refine goesOn rfl ha hb hy.args fun hz => ?_
    cases hy <;> cases hz
  | passes hb hy =>
    refine goesOn rfl ha hb hy.same.1 fun hz => ?_
    cases hy with
    | work => exact h.saw _ _ k hb hz
    | skip => exact h.saw _ _ k hb hz
    | _ => cases hz
  | listens hb hy =>
    refine goesOn (State.addListener_call _ _ _) ha hb (hy.same _).1 fun hz => ?_
    cases hy <;> split at hz <;> cases hz
  | moveToReturns hb =>
    exact goesOn (State.resetListener_call _ _ _) ha hb rfl fun hz => by cases hz
  | enters hb hentered =>
    refine goesOn (State.resetListener_call _ _ _) ha hb rfl fun hz => ?_
    cases hz
    exact hentered
  | works hb => exact goesOn rfl ha hb rfl fun hz => h.saw _ _ k hb hz
  | signals hb => exact goesOn rfl ha hb rfl fun hz => by cases hz

end step

section

variable [DecidableEq S] [DecidableEq C] [Inhabited D] {s s' : State S C D} {l : Label S C D}

/-- The invariant of the runs whose entries are made in time. -/
structure InTime (s : State S C D) : Prop where
  wellFormed : WellFormed s
  own : s.Own
  answered : Answered s

theorem InTime.of_reach (h : Reach step State.Timely init s) : InTime s := by
  have start : InTime (init : State S C D) :=
    ⟨.init, fun _ _ _ ha => (by cases ha), fun _ _ hk => (by cases hk),
    fun _ _ _ ha => (by cases ha)⟩
  refine h.invariant start fun a l b ha ok hstep => ?_
  have hstep := step_sound hstep
  exact ⟨ha.wellFormed.step hstep, ha.own.step ha.wellFormed ok hstep,
    ha.answered.step ha.wellFormed hstep⟩

/-- **Operations take their own objects.** In a run whose entries are made in time, whenever a step
erases an entry, it is one of the three operations, the entry is the completions object that was
fetched by the call on whose behalf it runs, and the call goes on to complete a source of it. When
the operation is `exit`, then the call of `on` was not cancelled while it waited. -/
theorem takes_own (h : Reach step State.Timely init s) (hstep : step s l = some s') {state : S}
    {k : ℕ} (hk : s.driver.m_states state = some k) (herased : s'.driver.m_states state ≠ some k) :
    ∃ a data owner op x, l = .proceed a data ∧ s.critical l = some (owner, state, op) ∧
      s'.claim a = some (op.completion k) ∧ s.args owner = some x ∧ x.state = state ∧ x.object = k ∧
      ∀ data, op = .exit data → (s.driver.object k).StateEntered.result = some (.ok ()) := by
  have hinv := InTime.of_reach h
  cases (step_sound hstep).effect (hinv.wellFormed.fresh _ le_rfl) with
  | moveTo hf => exact absurd (hf.m_states hk) herased
  | «on» hf _ hdriver => exact absurd (by simpa [hdriver] using hf.m_states hk) herased
  | completes _ hdriver => exact absurd (by simpa [hdriver] using hk) herased
  | rest _ hdriver => exact absurd (hdriver ▸ hk) herased
  | @takes _ a data owner state' op k' hop hk' _ hdriver _ hclaim =>
    have hstate : state' = state := by
      by_contra hne
      exact herased (by simpa [hdriver, Ne.symm hne] using hk)
    subst hstate
    cases (Operation.m_states_of_finds hk').symm.trans hk
    obtain ⟨hout, ⟨x, hx, hstate⟩, hexit⟩ := outstanding_of_critical hop
    have hobject : k = x.object := hinv.own owner x k hx hout (hstate ▸ hk)
    refine ⟨a, data, owner, op, x, rfl, hop, by rw [hclaim, update_self], hx, hstate, hobject.symm,
      fun data' e => ?_⟩
    obtain ⟨token, k₁, howner⟩ := hexit data' e
    cases hx.symm.trans (State.args_of_call howner)
    subst hobject
    exact (hinv.answered.entry _ _ hk).1 (hinv.answered.saw owner _ _ howner rfl)

/-- When a call of `on` that is about to exit has lost its entry and `move_to` makes a new one, the
exit takes the new one. -/
theorem exit_takes_other (hw : WellFormed s) {owner : ℕ} {state : S} {token token' : Option C}
    {k : ℕ} {data : D} (howner : s.call owner = some (.on state token k (.exiting data)))
    (hnone : s.driver.m_states state = none) :
    ∃ s', step s (.moveTo state token') = some s' ∧
      s'.critical (.proceed owner data) = some (owner, state, .exit data) ∧
      (Operation.exit data).finds s'.driver state = some s.driver.objects ∧
      k ≠ s.driver.objects := by
  have hne : owner ≠ s.calls := by
    rintro rfl
    cases (hw.fresh _ le_rfl).symm.trans howner
  refine ⟨_, by simp only [step, Driver.fetchState, hnone]; rfl, ?_, ?_, ?_⟩
  · simp [State.critical, hne, howner]
  · simp [Operation.finds, Driver.exit]
  · exact hw.ne_objects (State.args_of_call howner)

end

/-! ## An exit that belongs to a cancelled observer -/

/-- The state has an entry, so that none is made. -/
def timelyCheck (s : State S C D) : Label S C D → Bool
  | .moveTo state _ | .on state _ => (s.driver.m_states state).isSome
  | _ => true

theorem timely_of_check {s : State S C D} {l : Label S C D} (h : timelyCheck s l = true) :
    s.Timely l := by
  rintro state token (rfl | rfl) hnone <;> simp [timelyCheck, hnone] at h

/-- A visit: the driver moves to the state, and the work of the observer is about to exit. -/
def visit : List (Label Unit Unit ℕ) :=
  [.proceed 0 0, .proceed 0 0, .on () none, .proceed 1 0, .proceed 1 0, .proceed 1 0, .proceed 1 7]

theorem takes_own_visit : ∃ s s' : State Unit Unit ℕ, Reach step State.Timely init s ∧
    step s (.proceed 1 0) = some s' ∧ ∃ owner x, s.args owner = some x ∧ x.object = 0 := by
  have hfirst : (step (init : State Unit Unit ℕ) (.moveTo () none)).bind
      (fun s => (runWhile timelyCheck step s visit).bind fun s =>
        (step s (.proceed 1 0)).map fun s' => (s.driver.m_states (), s'.driver.m_states ())) =
      some (some 0, none) := by decide
  obtain ⟨s₁, hs₁, h⟩ := Option.bind_eq_some_iff.1 hfirst
  obtain ⟨s, hs, h⟩ := Option.bind_eq_some_iff.1 h
  obtain ⟨s', hs', h⟩ := Option.map_eq_some_iff.1 h
  obtain ⟨hk, herased⟩ := Prod.mk.inj h
  have hmoved : Reach step State.Timely init s₁ :=
    .tail .refl (fun _ _ _ _ _ _ ha => by cases ha) hs₁
  have hreach := hmoved.trans (reach_of_runWhile (fun _ _ => timely_of_check) hs)
  obtain ⟨_, _, owner, _, x, _, _, _, hx, _, hobject, _⟩ :=
    takes_own hreach hs' hk (by simp [herased])
  exact ⟨s, s', hreach, hs', owner, x, hx, hobject⟩

/-- An observer waits and is cancelled. The driver moves to the state, and only then the dispatcher
ticks. -/
def cancelledExit : List (Label Unit Unit ℕ) :=
  [.on () (some ()), .proceed 0 0, .cancel (), .proceed 1 0, .proceed 1 0, .proceed 1 0,
   .proceed 0 0, .moveTo () none, .proceed 2 0, .proceed 2 0, .proceed 0 0]

/-- **The exit of a cancelled observer takes the entry of the visit that came after it**, and goes
on to complete the task of its `move_to`. -/
theorem takes_other : ¬ ∀ (s s' : State Unit Unit ℕ) (l : Label Unit Unit ℕ),
    Reach step anyStep init s → step s l = some s' → ∀ state k, s.driver.m_states state = some k →
      s'.driver.m_states state ≠ some k →
        ∃ owner op x, s.critical l = some (owner, state, op) ∧ s.args owner = some x ∧
        x.object = k := by
  have hrun : (run step init cancelledExit).bind (fun s => (step s (.proceed 0 0)).map fun s' =>
      (s.driver.m_states (), s'.driver.m_states (), (s.critical (.proceed 0 0)).map Prod.fst,
        s.args 0)) = some (some 1, none, some 0, some (.on () (some ()) 0)) := by decide
  obtain ⟨s, hs, h⟩ := Option.bind_eq_some_iff.1 hrun
  obtain ⟨s', hs', h⟩ := Option.map_eq_some_iff.1 h
  simp only [Prod.mk.injEq] at h
  obtain ⟨hk, herased, hcritical, hargs⟩ := h
  intro hall
  obtain ⟨owner, op, x, hop, hx, hobject⟩ :=
    hall s s' (.proceed 0 0) (reach_of_run hs) hs' () 1 hk (by simp [herased])
  have howner : owner = 0 := by simpa [hop] using hcritical
  subst howner
  cases hx.symm.trans hargs
  cases hobject

end Arcana.Scheduling
