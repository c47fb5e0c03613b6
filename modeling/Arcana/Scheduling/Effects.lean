import Arcana.Scheduling.Rules

/-!
# What a step does to the driver

Most invariants do not depend on the exact positions of the calls, only on their arguments
(`State.args`), which never change, and on the completions they are about to make (`State.claim`).
`Effect` says what a step does to these and to the driver, and `Step.effect` that it says so of
every step. `WellFormed` is what every invariant of the driver rests on: completions objects, and
the numbers of calls, are fresh.

* `Args`, `Moves`, `State.args` and `State.claim` are what is kept of the calls.
* `Effect` are the kinds of steps, and `Step.effect` says that there are no others.
* `Operation.m_states_of_finds` and its companions say what the operations of the driver do to the
  entries.
* `WellFormed` is the invariant, and `WellFormed.of_reach` says that it holds in every run.
-/

namespace Arcana.Scheduling

open Function

variable {S C D : Type*}

/-! ## Arguments and claims -/

/-- What is found in a function that was updated. -/
theorem of_update_eq_some {β : Type*} {f : ℕ → Option β} {a b : ℕ} {x : Option β} {y : β}
    (h : update f a x b = some y) : b = a ∧ x = some y ∨ b ≠ a ∧ f b = some y := by
  rw [update_apply] at h
  split at h
  · rename_i e
    exact .inl ⟨e, h⟩
  · rename_i hne
    exact .inr ⟨hne, h⟩

/-- What is found in a function is found after the update of a place where there was nothing. -/
theorem update_eq_some_of_none {β : Type*} {f : ℕ → Option β} {a b : ℕ} {x : Option β} {y : β}
    (ha : f a = none) (hb : f b = some y) : update f a x b = some y := by
  have hne : b ≠ a := by
    rintro rfl
    cases ha.symm.trans hb
  rw [update_of_ne hne, hb]

/-- The arguments of a call of `move_to` or `on`, and the completions object it fetched. -/
inductive Args (S C : Type*)
  | moveTo (state : S) (token : Option C) (object : ℕ)
  | on (state : S) (token : Option C) (object : ℕ)
deriving DecidableEq

namespace Args

/-- The state that is moved to or entered. -/
def state : Args S C → S
  | .moveTo state _ _ | .on state _ _ => state

/-- The completions object that was fetched. -/
def object : Args S C → ℕ
  | .moveTo _ _ k | .on _ _ k => k

end Args

/-- The call `a` of `move_to` fetched the completions object `k`. -/
def Moves (args : ℕ → Option (Args S C)) (a k : ℕ) : Prop :=
  ∃ state token, args a = some (.moveTo state token k)

theorem Moves.update {args : ℕ → Option (Args S C)} {a b k : ℕ} {x : Option (Args S C)}
    (h : Moves args b k) (ha : args a = none) : Moves (update args a x) b k := by
  obtain ⟨state, token, hb⟩ := h
  exact ⟨state, token, update_eq_some_of_none ha hb⟩

/-- The completions object whose source is completed. -/
def Completion.object : Completion D → ℕ
  | .entered k _ | .exited k _ => k

namespace Call

/-- The arguments of the call; a call of `cancel` has no completions object. -/
def args : Call S C D → Option (Args S C)
  | .moveTo state token k _ => some (.moveTo state token k)
  | .on state token k _ => some (.on state token k)
  | .cancel _ _ => none

/-- The completion that the call is about to make. -/
def claim : Call S C D → Option (Completion D)
  | .moveTo _ _ k .fetched => some (.entered k (.ok ()))
  | .moveTo _ _ _ (.completing c) | .on _ _ _ (.completing c) | .on _ _ _ (.leaving c)
  | .cancel _ (.completing _ c) => some c
  | _ => none

end Call

namespace State

/-- The arguments of the call `a`. -/
def args (s : State S C D) (a : ℕ) : Option (Args S C) := (s.call a).bind Call.args

/-- The completion that the call `a` is about to make. -/
def claim (s : State S C D) (a : ℕ) : Option (Completion D) := (s.call a).bind Call.claim

variable {s : State S C D} {a : ℕ}

theorem args_of_call {x : Call S C D} (ha : s.call a = some x) : s.args a = x.args := by
  simp [args, ha]

theorem claim_of_call {x : Call S C D} (ha : s.call a = some x) : s.claim a = x.claim := by
  simp [claim, ha]

theorem call_of_args_on {state : S} {token : Option C} {k : ℕ}
    (h : s.args a = some (.on state token k)) : ∃ p, s.call a = some (.on state token k p) := by
  obtain ⟨x, hx, h⟩ := Option.bind_eq_some_iff.1 h
  cases x <;> cases h
  exact ⟨_, hx⟩

theorem call_of_args_moveTo {state : S} {token : Option C} {k : ℕ}
    (h : s.args a = some (.moveTo state token k)) :
    ∃ p, s.call a = some (.moveTo state token k p) := by
  obtain ⟨x, hx, h⟩ := Option.bind_eq_some_iff.1 h
  cases x <;> cases h
  exact ⟨_, hx⟩

theorem args_setCall (s : State S C D) (a : ℕ) (y : Call S C D) :
    (s.setCall a y).args = update s.args a y.args := by
  funext b
  by_cases hb : b = a <;> simp [args, hb]

theorem claim_setCall (s : State S C D) (a : ℕ) (y : Call S C D) :
    (s.setCall a y).claim = update s.claim a y.claim := by
  funext b
  by_cases hb : b = a <;> simp [claim, hb]

theorem args_newCall (s : State S C D) (y : Call S C D) :
    (s.newCall y).args = update s.args s.calls y.args := by
  funext b
  by_cases hb : b = s.calls <;> simp [args, hb]

theorem claim_newCall (s : State S C D) (y : Call S C D) :
    (s.newCall y).claim = update s.claim s.calls y.claim := by
  funext b
  by_cases hb : b = s.calls <;> simp [claim, hb]

/-- A call goes on with its arguments. -/
theorem args_goesOn {s₁ : State S C D} {x y : Call S C D} (hcall : s₁.call = s.call)
    (ha : s.call a = some x) (h : y.args = x.args) : (s₁.setCall a y).args = s.args := by
  have hargs : s₁.args = s.args := by funext b; simp [args, hcall]
  rw [args_setCall, hargs, h, ← args_of_call ha, update_eq_self]

/-- A call goes on with its claim. -/
theorem claim_goesOn {s₁ : State S C D} {x y : Call S C D} (hcall : s₁.call = s.call)
    (ha : s.call a = some x) (h : y.claim = x.claim) : (s₁.setCall a y).claim = s.claim := by
  have hclaim : s₁.claim = s.claim := by funext b; simp [claim, hcall]
  rw [claim_setCall, hclaim, h, ← claim_of_call ha, update_eq_self]

end State

/-! ## The rules on arguments and claims -/

theorem Completes.args {x y t : Call S C D} {c : Completion D} (h : Completes x c y t)
    (threw : Bool) :
    (if threw then t else y).args = x.args := by
  cases threw <;> cases h <;> rfl

theorem Completes.claim {x y t : Call S C D} {c : Completion D} (h : Completes x c y t)
    (threw : Bool) : (if threw then t else y).claim = none := by
  cases threw <;> cases h <;> rfl

theorem Completes.claims {x y t : Call S C D} {c : Completion D} (h : Completes x c y t) :
    x.claim = some c := by
  cases h <;> rfl

theorem Takes.args {x y : Call S C D} {c : Completion D} (h : Takes c x y) : y.args = x.args := by
  cases h <;> rfl

theorem Takes.claim {x y : Call S C D} {c : Completion D} (h : Takes c x y) :
    x.claim = none ∧ y.claim = some c := by
  cases h <;> exact ⟨rfl, rfl⟩

theorem Passes.same [Inhabited D] {s : State S C D} {x y : Call S C D} (h : Passes s x y) :
    y.args = x.args ∧ y.claim = x.claim := by
  cases h <;> exact ⟨rfl, rfl⟩

theorem Listens.same {x y z : Call S C D} {token : Option C} (h : Listens x token y z)
    (signaled : Bool) : (if signaled then z else y).args = x.args ∧
      (if signaled then z else y).claim = x.claim := by
  cases signaled <;> cases h <;> exact ⟨rfl, rfl⟩

/-- A call that goes on without touching the driver found no entry to take. -/
theorem Passes.finds [Inhabited D] {s : State S C D} {a : ℕ} {data : D} {x y : Call S C D}
    (h : Passes s x y) (ha : s.call a = some x) {owner : ℕ} {state : S} {op : Operation D}
    (hop : s.critical (.proceed a data) = some (owner, state, op)) :
    op.finds s.driver state = none := by
  cases h with
  | moveTo hnone | «on» hnone | exit hnone =>
    simp only [State.critical, ha] at hop
    cases hop
    exact hnone
  | listener hnone =>
    simp only [State.critical, ha] at hop
    split at hop <;> cases hop
    all_goals
      rename_i howner
      simpa [Scheduling.listener, Operation.finds, howner] using hnone
  | work | skip => simp [State.critical, ha] at hop

/-- A critical section is not run by a call that is about to make a completion. -/
theorem State.claim_of_critical {s : State S C D} {a : ℕ} {data : D} {owner : ℕ} {state : S}
    {op : Operation D} (hop : s.critical (.proceed a data) = some (owner, state, op)) :
    s.claim a = none := by
  simp only [State.critical] at hop
  split at hop
  case h_5 => cases hop
  all_goals
    rename_i ha
    rw [claim_of_call ha]
    rfl

section effects

variable [DecidableEq C]

@[simp] theorem State.addListener_driver (s : State S C D) (a : ℕ) (token : Option C) :
    (s.addListener a token).1.driver = s.driver := by
  cases token <;> rfl

@[simp] theorem State.addListener_call (s : State S C D) (a : ℕ) (token : Option C) :
    (s.addListener a token).1.call = s.call := by
  cases token <;> rfl

@[simp] theorem State.resetListener_driver (s : State S C D) (a : ℕ) (token : Option C) :
    (s.resetListener a token).driver = s.driver := by
  cases token <;> rfl

@[simp] theorem State.resetListener_call (s : State S C D) (a : ℕ) (token : Option C) :
    (s.resetListener a token).call = s.call := by
  cases token <;> rfl

theorem State.mem_addListener {s : State S C D} {a b : ℕ} {token : Option C} {c : C} :
    b ∈ (s.addListener a token).1.m_listeners c ↔
      b ∈ s.m_listeners c ∨ b = a ∧ token = some c := by
  cases token with
  | none => simp [addListener]
  | some c' =>
    by_cases hc : c = c'
    · simp [addListener, hc]
    · simp [addListener, hc, Ne.symm hc]

theorem State.mem_of_resetListener {s : State S C D} {a b : ℕ} {token : Option C} {c : C}
    (h : b ∈ (s.resetListener a token).m_listeners c) : b ∈ s.m_listeners c := by
  cases token with
  | none => exact h
  | some c' =>
    by_cases hc : c = c'
    · subst hc
      exact List.mem_of_mem_erase (by simpa [resetListener] using h)
    · simpa [resetListener, hc] using h

theorem State.mem_resetListener {s : State S C D} {a b : ℕ} {token : Option C} {c : C} (hne : b ≠ a)
    (h : b ∈ s.m_listeners c) : b ∈ (s.resetListener a token).m_listeners c := by
  cases token with
  | none => exact h
  | some c' =>
    by_cases hc : c = c'
    · subst hc
      simpa [resetListener] using (List.mem_erase_of_ne hne).2 h
    · simpa [resetListener, hc] using h

variable [DecidableEq S]

/-- What a step does to the driver, to the arguments of the calls and to their claims. -/
inductive Effect (s : State S C D) : Label S C D → State S C D → Prop
  | moveTo {s' : State S C D} {state : S} {token : Option C} {k : ℕ} :
      Fetch s.driver state s'.driver k →
      s'.args = update s.args s.calls (some (.moveTo state token k)) →
      s'.claim = update s.claim s.calls (some (.entered k (.ok ()))) →
      Effect s (.moveTo state token) s'
  | on {s' : State S C D} {state : S} {token : Option C} {d : Driver S D} {k : ℕ} :
      Fetch s.driver state d k → (d.object k).WorkPending = false →
      s'.driver = d.setWorkPending k →
      s'.args = update s.args s.calls (some (.on state token k)) → s'.claim = s.claim →
      Effect s (.on state token) s'
  | completes {s' : State S C D} {a : ℕ} {data : D} {c : Completion D} : s.claim a = some c →
      s'.driver = (s.driver.complete c).1 → s'.args = s.args → s'.claim = update s.claim a none →
      Effect s (.proceed a data) s'
  | takes {s' : State S C D} {a : ℕ} {data : D} {owner : ℕ} {state : S} {op : Operation D} {k : ℕ} :
      s.critical (.proceed a data) = some (owner, state, op) → op.finds s.driver state = some k →
      s.claim a = none → s'.driver = s.driver.erase state → s'.args = s.args →
      s'.claim = update s.claim a (some (op.completion k)) → Effect s (.proceed a data) s'
  | rest {s' : State S C D} {l : Label S C D} :
      (∀ owner state op, s.critical l = some (owner, state, op) → op.finds s.driver state = none) →
      s'.driver = s.driver → s'.args = s.args → s'.claim = s.claim → Effect s l s'

variable [Inhabited D]

/-- **What a step does to the driver.** -/
theorem Step.effect {s s' : State S C D} {l : Label S C D} (hfresh : s.call s.calls = none)
    (h : Step s l s') : Effect s l s' := by
  have hargs : s.args s.calls = none := by simp [State.args, hfresh]
  have hclaim : s.claim s.calls = none := by simp [State.claim, hfresh]
  cases h with
  | moveTo hf => exact .moveTo hf (State.args_newCall _ _) (State.claim_newCall _ _)
  | «on» hf hw =>
    refine .on hf hw rfl (State.args_newCall _ _) ?_
    exact (State.claim_newCall _ _).trans (update_eq_self_iff.2 hclaim.symm)
  | cancelsAgain => exact .rest nofun rfl rfl rfl
  | cancels =>
    refine .rest nofun rfl ?_ ?_
    · exact (State.args_newCall _ _).trans (update_eq_self_iff.2 hargs.symm)
    · exact (State.claim_newCall _ _).trans (update_eq_self_iff.2 hclaim.symm)
  | completes ha hx =>
    have hc := hx.claims
    rw [← State.claim_of_call ha] at hc
    refine .completes hc rfl (State.args_goesOn rfl ha (hx.args _)) ?_
    exact (State.claim_setCall _ _ _).trans (by rw [hx.claim]; rfl)
  | takes ha hop hk hx =>
    obtain ⟨hx₁, hx₂⟩ := hx.claim
    rw [← State.claim_of_call ha] at hx₁
    refine .takes hop hk hx₁ rfl (State.args_goesOn rfl ha hx.args) ?_
    exact (State.claim_setCall _ _ _).trans (by rw [hx₂]; rfl)
  | passes ha hx =>
    exact .rest (fun _ _ _ => hx.finds ha) rfl (State.args_goesOn rfl ha hx.same.1)
      (State.claim_goesOn rfl ha hx.same.2)
  | listens ha hx =>
    have hcall := State.addListener_call s
    refine .rest ?_ (by simp) (State.args_goesOn (hcall _ _) ha (hx.same _).1)
      (State.claim_goesOn (hcall _ _) ha (hx.same _).2)
    cases hx <;> simp [State.critical, ha]
  | moveToReturns ha | enters ha =>
    have hcall := State.resetListener_call s
    exact .rest (by simp [State.critical, ha]) (by simp) (State.args_goesOn (hcall _ _) ha rfl)
      (State.claim_goesOn (hcall _ _) ha rfl)
  | works ha | signals ha =>
    exact .rest (by simp [State.critical, ha]) rfl (State.args_goesOn rfl ha rfl)
      (State.claim_goesOn rfl ha rfl)

end effects

/-! ## The driver's operations -/

@[simp] theorem Source.completed_complete {R : Type*} (x : Source R) (r : R) :
    (x.complete r).completed = true := by
  simp [Source.completed, Source.complete]

/-- The completion of one of the two sources. -/
def Completions.complete (x : Completions D) : Completion D → Completions D
  | .entered _ r => { x with StateEntered := x.StateEntered.complete r }
  | .exited _ r => { x with StateExited := x.StateExited.complete r }

namespace Driver

theorem complete_eq (d : Driver S D) (c : Completion D) :
    (d.complete c).1 = d.setObject c.object ((d.object c.object).complete c) := by
  cases c <;> rfl

theorem complete_object_of_ne {d : Driver S D} {c : Completion D} {k : ℕ} (h : k ≠ c.object) :
    (d.complete c).1.object k = d.object k := by
  rw [complete_eq, setObject_object, update_of_ne h]

@[simp] theorem complete_m_states (d : Driver S D) (c : Completion D) :
    (d.complete c).1.m_states = d.m_states := by
  cases c <;> rfl

@[simp] theorem complete_objects (d : Driver S D) (c : Completion D) :
    (d.complete c).1.objects = d.objects := by
  cases c <;> rfl

@[simp] theorem complete_home (d : Driver S D) (c : Completion D) :
    (d.complete c).1.home = d.home := by
  cases c <;> rfl

/-- A source that is not completed was not completed before the completion, which is not its own. -/
theorem entered_of_complete {d : Driver S D} {c : Completion D} {k : ℕ}
    (h : ((d.complete c).1.object k).StateEntered.completed = false) :
    (d.object k).StateEntered.completed = false ∧ ∀ r, c ≠ .entered k r := by
  rw [complete_eq, setObject_object, update_apply] at h
  split at h
  · rename_i e
    cases c with
    | entered k' r => simp [Completions.complete] at h
    | exited k' r => exact ⟨e ▸ h, nofun⟩
  · rename_i hne
    refine ⟨h, fun r e => hne ?_⟩
    rw [e]
    rfl

@[simp] theorem setWorkPending_m_states (d : Driver S D) (k : ℕ) :
    (d.setWorkPending k).m_states = d.m_states := rfl

@[simp] theorem setWorkPending_entered (d : Driver S D) (k k' : ℕ) :
    ((d.setWorkPending k).object k').StateEntered = (d.object k').StateEntered := by
  by_cases hk : k' = k <;> simp [setWorkPending, hk]

@[simp] theorem setWorkPending_exited (d : Driver S D) (k k' : ℕ) :
    ((d.setWorkPending k).object k').StateExited = (d.object k').StateExited := by
  by_cases hk : k' = k <;> simp [setWorkPending, hk]

end Driver

namespace Fetch

variable [DecidableEq S] {d d' : Driver S D} {state : S} {k : ℕ}

/-- The object that is fetched is the entry of the state. -/
theorem fetched (h : Fetch d state d' k) : d'.m_states state = some k := by
  cases h with
  | found hk => exact hk
  | inserted _ => simp

/-- `fetch_state` keeps the entries. -/
theorem m_states (h : Fetch d state d' k) {state' : S} {k' : ℕ} (hk : d.m_states state' = some k') :
    d'.m_states state' = some k' := by
  cases h with
  | found _ => exact hk
  | inserted hnone =>
    have hne : state' ≠ state := by
      rintro rfl
      cases hnone.symm.trans hk
    simpa [hne] using hk

/-- `fetch_state` leaves the objects that were made alone. -/
theorem object (h : Fetch d state d' k) {k' : ℕ} (hk : k' ≠ d.objects) :
    d'.object k' = d.object k' := by
  cases h with
  | found _ => rfl
  | inserted _ => simp [hk]

end Fetch

/-- An operation takes the entry of the state it looks up. -/
theorem Operation.m_states_of_finds {d : Driver S D} {state : S} {op : Operation D} {k : ℕ}
    (h : op.finds d state = some k) : d.m_states state = some k := by
  cases op with
  | cancelEnter | cancelExit => exact (Option.filter_eq_some_iff.1 h).1
  | exit data => exact h

/-- `cancel_enter` takes no entry whose `StateEntered` is completed. -/
theorem Operation.entered_of_finds {d : Driver S D} {state : S} {k : ℕ}
    (h : Operation.cancelEnter.finds d state = some k) :
    (d.object k).StateEntered.completed = false := by
  simpa using (Option.filter_eq_some_iff.1 h).2

@[simp] theorem Operation.object_completion (op : Operation D) (k : ℕ) :
    (op.completion k).object = k := by
  cases op <;> rfl

/-! ## Fresh objects and calls -/

/-- Every entry, every call and every claim is about a completions object of its state, and the
numbers of objects and calls to come are not used. -/
structure WellFormed (s : State S C D) : Prop where
  fresh : ∀ a, s.calls ≤ a → s.call a = none
  unmade : ∀ k, s.driver.objects ≤ k → s.driver.home k = none
  entry : ∀ state k, s.driver.m_states state = some k → s.driver.home k = some state
  args : ∀ a x, s.args a = some x → s.driver.home x.object = some x.state
  claim : ∀ a c, s.claim a = some c → s.driver.home c.object ≠ none

namespace WellFormed

variable {s s' : State S C D}

theorem init : WellFormed (init : State S C D) where
  fresh _ _ := rfl
  unmade _ _ := rfl
  entry _ _ h := by cases h
  args _ _ h := by cases h
  claim _ _ h := by cases h

theorem args_fresh (h : WellFormed s) : s.args s.calls = none := by
  simp [State.args, h.fresh]

theorem claim_fresh (h : WellFormed s) : s.claim s.calls = none := by
  simp [State.claim, h.fresh]

/-- An object is the entry of one state. -/
theorem entry_injective (h : WellFormed s) {state state' : S} {k : ℕ}
    (hk : s.driver.m_states state = some k) (hk' : s.driver.m_states state' = some k) :
    state' = state :=
  Option.some.inj ((h.entry _ _ hk').symm.trans (h.entry _ _ hk))

/-- The object of a call was made. -/
theorem ne_objects (h : WellFormed s) {a : ℕ} {x : Args S C} (ha : s.args a = some x) :
    x.object ≠ s.driver.objects := by
  intro e
  have hhome := h.args a x ha
  rw [h.unmade _ e.ge] at hhome
  cases hhome

/-- The object of a claim was made. -/
theorem claim_ne_objects (h : WellFormed s) {a : ℕ} {c : Completion D} (ha : s.claim a = some c) :
    c.object ≠ s.driver.objects := fun e => h.claim a c ha (h.unmade _ e.ge)

section step

variable [DecidableEq S] [DecidableEq C] [Inhabited D] {l : Label S C D}

omit [DecidableEq C] [Inhabited D] in
/-- What `fetch_state` leaves. -/
theorem fetch {d : Driver S D} {state : S} {k : ℕ} (h : WellFormed s)
    (hf : Fetch s.driver state d k) :
    (∀ k', d.objects ≤ k' → d.home k' = none) ∧
      (∀ state' k', d.m_states state' = some k' → d.home k' = some state') ∧
      d.home k = some state ∧ ∀ k' state', s.driver.home k' = some state' →
      d.home k' = some state' := by
  cases hf with
  | found hk => exact ⟨h.unmade, h.entry, h.entry _ _ hk, fun _ _ h => h⟩
  | inserted hnone =>
    have old {k' state'} (hk' : s.driver.home k' = some state') :
        (s.driver.insert state).home k' = some state' := by
      have hne : k' ≠ s.driver.objects := by
        rintro rfl
        rw [h.unmade _ le_rfl] at hk'
        cases hk'
      simpa [hne] using hk'
    refine ⟨fun k' hk' => ?_, fun state' k' hk' => ?_, by simp, fun _ _ => old⟩
    · have hlt : s.driver.objects + 1 ≤ k' := hk'
      rw [Driver.insert_home, update_of_ne (by omega)]
      exact h.unmade k' (by omega)
    · rw [Driver.insert_m_states, update_apply] at hk'
      split at hk'
      · rename_i e
        cases hk'
        simp [e]
      · exact old (h.entry _ _ hk')

omit [DecidableEq C] [Inhabited D] in
/-- `fetch_state` keeps the state well formed. -/
theorem setDriver {d : Driver S D} {state : S} {k : ℕ} (h : WellFormed s)
    (hf : Fetch s.driver state d k) : WellFormed (s.setDriver d) := by
  obtain ⟨unmade, entry, -, old⟩ := h.fetch hf
  refine ⟨h.fresh, unmade, entry, fun a x ha => old _ _ (h.args a x ha), fun a c ha => ?_⟩
  obtain ⟨state', hstate'⟩ := Option.ne_none_iff_exists'.1 (h.claim a c ha)
  exact Option.ne_none_iff_exists'.2 ⟨state', old _ _ hstate'⟩

omit [Inhabited D] in
/-- Calls are numbered in order. -/
theorem fresh_step [Inhabited D] (h : WellFormed s) (hstep : Step s l s') :
    ∀ a, s'.calls ≤ a → s'.call a = none := by
  have old {s₁ : State S C D} {a : ℕ} {x y : Call S C D} (hcall : s₁.call = s.call)
      (hcalls : s₁.calls = s.calls) (ha : s.call a = some x) :
      ∀ b, (s₁.setCall a y).calls ≤ b → (s₁.setCall a y).call b = none := by
    intro b hb
    have hb' : s.calls ≤ b := hcalls ▸ hb
    have hne : b ≠ a := by
      rintro rfl
      rw [h.fresh b hb'] at ha
      cases ha
    rw [State.setCall_call, update_of_ne hne, hcall]
    exact h.fresh b hb'
  have new {s₁ : State S C D} {y : Call S C D} (hcall : s₁.call = s.call)
      (hcalls : s₁.calls = s.calls) :
      ∀ b, (s₁.newCall y).calls ≤ b → (s₁.newCall y).call b = none := by
    intro b hb
    have hb' : s.calls + 1 ≤ b := hcalls ▸ hb
    rw [State.newCall_call, update_of_ne (by omega), hcall]
    exact h.fresh b (by omega)
  cases hstep with
  | moveTo | «on» | cancels => exact new rfl rfl
  | cancelsAgain => exact h.fresh
  | completes ha | takes ha | passes ha | works ha | signals ha => exact old rfl rfl ha
  | @listens _ _ _ _ _ token ha =>
    exact old (State.addListener_call _ _ _) (by cases token <;> rfl) ha
  | @moveToReturns _ _ _ token _ ha | @enters _ _ _ token _ ha =>
    exact old (State.resetListener_call _ _ _) (by cases token <;> rfl) ha

theorem step (h : WellFormed s) (hstep : Step s l s') : WellFormed s' := by
  have hfresh := h.fresh_step hstep
  cases hstep.effect (h.fresh _ le_rfl) with
  | moveTo hf hargs hclaim =>
    have hd := h.setDriver hf
    refine ⟨hfresh, hd.unmade, hd.entry, fun a x ha => ?_, fun a c ha => ?_⟩
    · rcases of_update_eq_some (hargs ▸ ha) with ⟨-, hx⟩ | ⟨-, ha⟩
      · cases hx
        exact hd.entry _ _ hf.fetched
      · exact hd.args a x ha
    · rcases of_update_eq_some (hclaim ▸ ha) with ⟨-, hc⟩ | ⟨-, ha⟩
      · cases hc
        exact Option.ne_none_iff_exists'.2 ⟨_, hd.entry _ _ hf.fetched⟩
      · exact hd.claim a c ha
  | «on» hf _ hdriver hargs hclaim =>
    have hd := h.setDriver hf
    refine ⟨hfresh, hdriver ▸ hd.unmade, hdriver ▸ hd.entry, fun a x ha => ?_, fun a c ha => ?_⟩
    · rw [hdriver]
      rcases of_update_eq_some (hargs ▸ ha) with ⟨-, hx⟩ | ⟨-, ha⟩
      · cases hx
        exact hd.entry _ _ hf.fetched
      · exact hd.args a x ha
    · rw [hdriver]
      exact hd.claim a c (hclaim ▸ ha)
  | completes hc hdriver hargs hclaim =>
    refine ⟨hfresh, by simpa [hdriver] using h.unmade, by simpa [hdriver] using h.entry,
      by simpa [hdriver, hargs] using h.args, fun a c ha => ?_⟩
    rw [hclaim, update_apply] at ha
    split at ha
    · cases ha
    · simpa [hdriver] using h.claim a c ha
  | takes _ hk _ hdriver hargs hclaim =>
    refine ⟨hfresh, by simpa [hdriver] using h.unmade, fun state k' hk' => ?_,
      by simpa [hdriver, hargs] using h.args, fun a c ha => ?_⟩
    · rw [hdriver, Driver.erase_m_states, update_apply] at hk'
      split at hk'
      · cases hk'
      · simpa [hdriver] using h.entry _ _ hk'
    · rw [hclaim, update_apply] at ha
      rw [hdriver, Driver.erase_home]
      split at ha
      · cases ha
        have hhome := h.entry _ _ (Operation.m_states_of_finds hk)
        simp [hhome]
      · exact h.claim a c ha
  | rest _ hdriver hargs hclaim =>
    exact ⟨hfresh, hdriver ▸ h.unmade, hdriver ▸ h.entry, hdriver ▸ hargs ▸ h.args,
      hdriver ▸ hclaim ▸ h.claim⟩

end step

/-- Every reachable state is well formed. -/
theorem of_reach [DecidableEq S] [DecidableEq C] [Inhabited D]
    {ok : State S C D → Label S C D → Prop}
    (h : Foundations.Reach Scheduling.step ok Scheduling.init s) :
    WellFormed s :=
  h.invariant .init fun _ _ _ ha _ hstep => ha.step (step_sound hstep)

end WellFormed

/-- No call is about to make a completion. -/
def State.idle (s : State S C D) : Bool := (List.range s.calls).all fun a => (s.claim a).isNone

theorem WellFormed.claim_of_idle {s : State S C D} (h : WellFormed s) (hidle : s.idle = true)
    (a : ℕ) : s.claim a = none := by
  by_cases ha : a < s.calls
  · have hall := List.all_eq_true.1 hidle a (List.mem_range.2 ha)
    simpa using hall
  · have hcall := h.fresh a (not_lt.1 ha)
    simp [State.claim, hcall]

end Arcana.Scheduling
