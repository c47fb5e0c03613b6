import Arcana.Foundations.Transition
import Arcana.Scheduling.Driver

/-!
# The rules of the driver

What a step of the driver can do, grouped by what it touches: a call is started; it makes the
completion it is about to make (`Completes`); its critical section takes an entry (`Takes`); it goes
on without touching the driver (`Passes`); or it adds or drops its listener. Every step of the
machine follows one of the rules (`step_sound`).

* `Operation` and `State.critical` say which critical sections look an entry up in order to take it.
* `Completes`, `Takes`, `Passes`, `Listens` and `Fetch` are the parts that the rules are made of.
* `Step` are the rules, and `step_sound` says that they are all.
-/

namespace Arcana.Scheduling

open Function

variable {S C D : Type*}

/-! ## Critical sections -/

/-- A function that looks an entry up in order to take it. -/
inductive Operation (D : Type*)
  | cancelEnter
  | cancelExit
  | exit (data : D)

/-- The entry that the critical section takes. -/
def Operation.finds (d : Driver S D) (state : S) : Operation D → Option ℕ
  | .cancelEnter => d.cancelEnter state
  | .cancelExit => d.cancelExit state
  | .exit _ => d.exit state

/-- The completion that follows the critical section. -/
def Operation.completion (k : ℕ) : Operation D → Completion D
  | .cancelEnter => .entered k canceled
  | .cancelExit => .exited k canceled
  | .exit data => .exited k (.ok data)

/-- The critical section that a step runs to take an entry, the state it looks up, and the call of
`move_to` or `on` on whose behalf it does. -/
def State.critical (s : State S C D) : Label S C D → Option (ℕ × S × Operation D)
  | .proceed a _ =>
    match s.call a with
    | some (.moveTo state _ _ .cancelling) => some (a, state, .cancelExit)
    | some (.on state _ _ .cancelling) => some (a, state, .cancelEnter)
    | some (.on state _ _ (.exiting data)) => some (a, state, .exit data)
    | some (.cancel _ (.calling (owner :: _))) =>
      match s.call owner with
      | some (.moveTo state _ _ _) => some (owner, state, .cancelExit)
      | some (.on state _ _ _) => some (owner, state, .cancelEnter)
      | _ => none
    | _ => none
  | _ => none

/-! ## Rules -/

/-- The call `x` is about to make the completion `c`; after it the call is `y`, or `t` when it
threw. -/
inductive Completes : Call S C D → Completion D → Call S C D → Call S C D → Prop
  | moveTo {state : S} {token : Option C} {k : ℕ} :
      Completes (.moveTo state token k .fetched) (.entered k (.ok ()))
        (.moveTo state token k .entered) (.moveTo state token k .threw)
  | moveToListener {state : S} {token : Option C} {k : ℕ} {c : Completion D} :
      Completes (.moveTo state token k (.completing c)) c
        (.moveTo state token k .awaiting) (.moveTo state token k .threw)
  | onListener {state : S} {token : Option C} {k : ℕ} {c : Completion D} :
      Completes (.on state token k (.completing c)) c
        (.on state token k .awaiting) (.on state token k .threw)
  | exit {state : S} {token : Option C} {k : ℕ} {c : Completion D} :
      Completes (.on state token k (.leaving c)) c
        (.on state token k .done) (.on state token k .threw)
  | cancel {token : C} {listeners : List ℕ} {c : Completion D} :
      Completes (.cancel token (.completing listeners c)) c
        (.cancel token (.calling listeners)) (.cancel token .threw)

/-- The call `x` took an entry, and is now `y`, which is about to make the completion `c`. -/
inductive Takes (c : Completion D) : Call S C D → Call S C D → Prop
  | moveTo {state : S} {token : Option C} {k : ℕ} :
      Takes c (.moveTo state token k .cancelling) (.moveTo state token k (.completing c))
  | on {state : S} {token : Option C} {k : ℕ} :
      Takes c (.on state token k .cancelling) (.on state token k (.completing c))
  | exit {state : S} {token : Option C} {k : ℕ} {data : D} :
      Takes c (.on state token k (.exiting data)) (.on state token k (.leaving c))
  | listener {token : C} {listeners : List ℕ} {owner : ℕ} :
      Takes c (.cancel token (.calling (owner :: listeners)))
        (.cancel token (.completing listeners c))

/-- The call goes from `x` to `y` without touching the driver: its critical section finds no entry
to take, or the dispatcher runs the callable that was queued. -/
inductive Passes [Inhabited D] (s : State S C D) : Call S C D → Call S C D → Prop
  | moveTo {state : S} {token : Option C} {k : ℕ} : s.driver.cancelExit state = none →
      Passes s (.moveTo state token k .cancelling) (.moveTo state token k .awaiting)
  | on {state : S} {token : Option C} {k : ℕ} : s.driver.cancelEnter state = none →
      Passes s (.on state token k .cancelling) (.on state token k .awaiting)
  | exit {state : S} {token : Option C} {k : ℕ} {data : D} : s.driver.exit state = none →
      Passes s (.on state token k (.exiting data)) (.on state token k .done)
  | listener {token : C} {listeners : List ℕ} {owner : ℕ} : listener s owner = none →
      Passes s (.cancel token (.calling (owner :: listeners))) (.cancel token (.calling listeners))
  | work {state : S} {token : Option C} {k : ℕ} :
      (s.driver.object k).StateEntered.result = some (.ok ()) → s.cancelled token = false →
      Passes s (.on state token k .queued) (.on state token k .working)
  | skip {state : S} {token : Option C} {k : ℕ} :
      ((s.driver.object k).StateEntered.result = some (.ok ()) → s.cancelled token = true) →
      Passes s (.on state token k .queued) (.on state token k (.exiting default))

/-- The call `x` adds its listener to `token`; then it is `y`, or `z` when the token is signaled. -/
inductive Listens : Call S C D → Option C → Call S C D → Call S C D → Prop
  | moveTo {state : S} {token : Option C} {k : ℕ} :
      Listens (.moveTo state token k .entered) token (.moveTo state token k .awaiting)
        (.moveTo state token k .cancelling)
  | on {state : S} {token : Option C} {k : ℕ} :
      Listens (.on state token k .fetched) token (.on state token k .awaiting)
        (.on state token k .cancelling)

section rules

variable [DecidableEq S] [DecidableEq C]

/-- `fetch_state`: the driver it leaves, and the completions object. -/
inductive Fetch (d : Driver S D) (state : S) : Driver S D → ℕ → Prop
  | found {k : ℕ} : d.m_states state = some k → Fetch d state d k
  | inserted : d.m_states state = none → Fetch d state (d.insert state) d.objects

variable [Inhabited D]

/-- The rules of the driver. -/
inductive Step (s : State S C D) : Label S C D → State S C D → Prop
  | moveTo {state : S} {token : Option C} {d : Driver S D} {k : ℕ} : Fetch s.driver state d k →
      Step s (.moveTo state token) ((s.setDriver d).newCall (.moveTo state token k .fetched))
  | on {state : S} {token : Option C} {d : Driver S D} {k : ℕ} : Fetch s.driver state d k →
      (d.object k).WorkPending = false →
      Step s (.on state token)
        ((s.setDriver (d.setWorkPending k)).newCall (.on state token k .fetched))
  | cancelsAgain {token : C} : Step s (.cancel token) s
  | cancels {token : C} : s.m_cancellationRequested token = false →
      Step s (.cancel token) ({ s with
        m_cancellationRequested := update s.m_cancellationRequested token true }.newCall
          (.cancel token .requested))
  | completes {a : ℕ} {data : D} {x y t : Call S C D} {c : Completion D} : s.call a = some x →
      Completes x c y t →
      Step s (.proceed a data) ((s.setDriver (s.driver.complete c).1).setCall a
        (if (s.driver.complete c).2 then t else y))
  | takes {a owner k : ℕ} {data : D} {x y : Call S C D} {state : S} {op : Operation D} :
      s.call a = some x → s.critical (.proceed a data) = some (owner, state, op) →
      op.finds s.driver state = some k → Takes (op.completion k) x y →
      Step s (.proceed a data) ((s.setDriver (s.driver.erase state)).setCall a y)
  | passes {a : ℕ} {data : D} {x y : Call S C D} : s.call a = some x → Passes s x y →
      Step s (.proceed a data) (s.setCall a y)
  | listens {a : ℕ} {data : D} {x y z : Call S C D} {token : Option C} : s.call a = some x →
      Listens x token y z →
      Step s (.proceed a data) ((s.addListener a token).1.setCall a
        (if (s.addListener a token).2 then z else y))
  | moveToReturns {a : ℕ} {data : D} {state : S} {token : Option C} {k : ℕ} :
      s.call a = some (.moveTo state token k .awaiting) →
      (s.driver.object k).StateExited.completed = true →
      Step s (.proceed a data)
        ({ s.resetListener a token with returned := s.returned ++ [a] }.setCall a
          (.moveTo state token k .done))
  | enters {a : ℕ} {data : D} {state : S} {token : Option C} {k : ℕ} :
      s.call a = some (.on state token k .awaiting) →
      (s.driver.object k).StateEntered.completed = true →
      Step s (.proceed a data) ((s.resetListener a token).setCall a (.on state token k .queued))
  | works {a : ℕ} {data : D} {state : S} {token : Option C} {k : ℕ} :
      s.call a = some (.on state token k .working) →
      Step s (.proceed a data) ({ s with worked := s.worked ++ [(a, data)] }.setCall a
        (.on state token k (.exiting data)))
  | signals {a : ℕ} {data : D} {token : C} : s.call a = some (.cancel token .requested) →
      Step s (.proceed a data) ((s.signalCancelled token).1.setCall a
        (.cancel token (.calling (s.signalCancelled token).2)))

/-! ## Soundness -/

omit [DecidableEq C] [Inhabited D] in
theorem fetchState_sound {d d' : Driver S D} {state : S} {k : ℕ}
    (h : d.fetchState state = (d', k)) : Fetch d state d' k := by
  unfold Driver.fetchState at h
  split at h
  · rename_i hnone
    cases h
    exact .inserted hnone
  · rename_i k' hsome
    cases h
    exact .found hsome

/-- A completion, as the machine writes it. -/
theorem completes_sound {s : State S C D} {a : ℕ} (data : D) {x y t : Call S C D} {c : Completion D}
    {d : Driver S D} {threw : Bool} (ha : s.call a = some x) (hx : Completes x c y t)
    (hc : s.driver.complete c = (d, threw)) :
    Step s (.proceed a data) ((s.setDriver d).setCall a (if threw then t else y)) := by
  have hstep : Step s (.proceed a data) _ := .completes ha hx
  rwa [hc] at hstep

/-- The registration of a listener, as the machine writes it. -/
theorem listens_sound {s s₁ : State S C D} {a : ℕ} (data : D) {x y z : Call S C D}
    {token : Option C} {signaled : Bool} (ha : s.call a = some x) (hx : Listens x token y z)
    (hs : s.addListener a token = (s₁, signaled)) :
    Step s (.proceed a data) (s₁.setCall a (if signaled then z else y)) := by
  have hstep : Step s (.proceed a data) _ := .listens ha hx
  rwa [hs] at hstep

theorem stepMoveTo_sound {s s' : State S C D} {a : ℕ} {data : D} {state : S} {token : Option C}
    {k : ℕ} {p : MoveTo D} (ha : s.call a = some (.moveTo state token k p))
    (h : stepMoveTo s a state token k p = some s') : Step s (.proceed a data) s' := by
  cases p with
  | fetched =>
    rcases hc : s.driver.complete (.entered k (.ok ())) with ⟨d, threw⟩
    simp only [stepMoveTo, hc, Option.some.injEq] at h
    have hstep := completes_sound data ha .moveTo hc
    cases threw <;> exact h ▸ hstep
  | entered =>
    rcases hs : s.addListener a token with ⟨s₁, signaled⟩
    simp only [stepMoveTo, hs, Option.some.injEq] at h
    have hstep := listens_sound data ha .moveTo hs
    cases signaled <;> exact h ▸ hstep
  | cancelling =>
    simp only [stepMoveTo] at h
    split at h
    · rename_i hnone
      cases h
      exact .passes ha (.moveTo hnone)
    · rename_i k' hsome
      cases h
      have hop : s.critical (.proceed a data) = some (a, state, .cancelExit) := by
        simp only [State.critical, ha]
      exact .takes ha hop hsome .moveTo
  | completing c =>
    rcases hc : s.driver.complete c with ⟨d, threw⟩
    simp only [stepMoveTo, hc, Option.some.injEq] at h
    have hstep := completes_sound data ha .moveToListener hc
    cases threw <;> exact h ▸ hstep
  | awaiting =>
    obtain ⟨hdone, h⟩ := Option.ite_none_right_eq_some.1 h
    cases h
    exact .moveToReturns ha hdone
  | done => cases h
  | threw => cases h

theorem stepOn_sound {s s' : State S C D} {a : ℕ} {data : D} {state : S} {token : Option C}
    {k : ℕ} {p : On D} (ha : s.call a = some (.on state token k p))
    (h : stepOn s a data state token k p = some s') : Step s (.proceed a data) s' := by
  cases p with
  | fetched =>
    rcases hs : s.addListener a token with ⟨s₁, signaled⟩
    simp only [stepOn, hs, Option.some.injEq] at h
    have hstep := listens_sound data ha .on hs
    cases signaled <;> exact h ▸ hstep
  | cancelling =>
    simp only [stepOn] at h
    split at h
    · rename_i hnone
      cases h
      exact .passes ha (.on hnone)
    · rename_i k' hsome
      cases h
      have hop : s.critical (.proceed a data) = some (a, state, .cancelEnter) := by
        simp only [State.critical, ha]
      exact .takes ha hop hsome .on
  | completing c =>
    rcases hc : s.driver.complete c with ⟨d, threw⟩
    simp only [stepOn, hc, Option.some.injEq] at h
    have hstep := completes_sound data ha .onListener hc
    cases threw <;> exact h ▸ hstep
  | awaiting =>
    obtain ⟨hentered, h⟩ := Option.ite_none_right_eq_some.1 h
    cases h
    exact .enters ha hentered
  | queued =>
    simp only [stepOn] at h
    split at h
    · rename_i hok
      cases h
      cases hc : s.cancelled token with
      | false => exact .passes ha (.work hok hc)
      | true => exact .passes ha (.skip fun _ => hc)
    · rename_i hne
      cases h
      exact .passes ha (.skip fun hok => absurd hok hne)
  | working =>
    cases h
    exact .works ha
  | exiting data' =>
    simp only [stepOn] at h
    split at h
    · rename_i hnone
      cases h
      exact .passes ha (.exit hnone)
    · rename_i k' hsome
      cases h
      have hop : s.critical (.proceed a data) = some (a, state, .exit data') := by
        simp only [State.critical, ha]
      exact .takes ha hop hsome .exit
  | leaving c =>
    rcases hc : s.driver.complete c with ⟨d, threw⟩
    simp only [stepOn, hc, Option.some.injEq] at h
    have hstep := completes_sound data ha .exit hc
    cases threw <;> exact h ▸ hstep
  | done => cases h
  | threw => cases h

omit [DecidableEq S] [DecidableEq C] [Inhabited D] in
/-- A listener that takes an entry runs one of the critical sections. -/
theorem listener_sound {s : State S C D} {a : ℕ} (data : D) {token : C} {owner : ℕ}
    {listeners : List ℕ} {state : S} {c : Completion D}
    (ha : s.call a = some (.cancel token (.calling (owner :: listeners))))
    (h : listener s owner = some (state, c)) :
    ∃ op k, s.critical (.proceed a data) = some (owner, state, op) ∧
      op.finds s.driver state = some k ∧ c = op.completion k := by
  unfold listener at h
  split at h
  · rename_i state' token' k' p howner
    obtain ⟨k, hk, e⟩ := Option.map_eq_some_iff.1 h
    cases e
    exact ⟨.cancelExit, k, by simp only [State.critical, ha, howner], hk, rfl⟩
  · rename_i state' token' k' p howner
    obtain ⟨k, hk, e⟩ := Option.map_eq_some_iff.1 h
    cases e
    exact ⟨.cancelEnter, k, by simp only [State.critical, ha, howner], hk, rfl⟩
  · cases h

theorem stepCancel_sound {s s' : State S C D} {a : ℕ} {data : D} {token : C} {p : Cancel D}
    (ha : s.call a = some (.cancel token p)) (h : stepCancel s a token p = some s') :
    Step s (.proceed a data) s' := by
  cases p with
  | requested =>
    cases h
    exact .signals ha
  | calling listeners =>
    cases listeners with
    | nil => cases h
    | cons owner listeners =>
      simp only [stepCancel] at h
      split at h
      · rename_i hnone
        cases h
        exact .passes ha (.listener hnone)
      · rename_i state c hsome
        cases h
        obtain ⟨op, k, hop, hk, rfl⟩ := listener_sound data ha hsome
        exact .takes ha hop hk .listener
  | completing listeners c =>
    rcases hc : s.driver.complete c with ⟨d, threw⟩
    simp only [stepCancel, hc, Option.some.injEq] at h
    have hstep := completes_sound data ha .cancel hc
    cases threw <;> exact h ▸ hstep
  | threw => cases h

/-- **Every step of the machine follows one of the rules.** -/
theorem step_sound {s s' : State S C D} {l : Label S C D} (h : step s l = some s') :
    Step s l s' := by
  cases l with
  | moveTo state token =>
    rcases hf : s.driver.fetchState state with ⟨d, k⟩
    simp only [step, hf, Option.some.injEq] at h
    exact h ▸ .moveTo (fetchState_sound hf)
  | «on» state token =>
    rcases hf : s.driver.fetchState state with ⟨d, k⟩
    simp only [step, hf] at h
    split at h
    · cases h
    · rename_i hwork
      cases h
      exact .on (fetchState_sound hf) (by simpa using hwork)
  | cancel token =>
    simp only [step] at h
    split at h
    · cases h
      exact .cancelsAgain
    · rename_i hfirst
      cases h
      exact .cancels (by simpa using hfirst)
  | proceed a data =>
    simp only [step] at h
    split at h
    · rename_i ha
      exact stepMoveTo_sound ha h
    · rename_i ha
      exact stepOn_sound ha h
    · rename_i ha
      exact stepCancel_sound ha h
    · cases h

end rules

end Arcana.Scheduling
