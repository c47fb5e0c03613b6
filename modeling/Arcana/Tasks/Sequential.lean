import Arcana.Foundations.Chain
import Arcana.Tasks.Classes

/-!
# Payloads with redirects refine classes

The functions of `base_task_payload` run one after another, with schedulers that record what they
are handed. `add_continuations` recurses along `m_taskRedirect`, for which it gets fuel: with enough
of it the recursion comes to the payload at the end of the chain, which stands for the class. `Sim`
relates a heap to the classes; every operation keeps it and has the outcome the classes say
(`perform_refines`), in spite of the redirects and of the way `m_continuation` stores its list.

* `Heap.addContinuations`, `Heap.doCompletion` and `Heap.perform` are the functions of the source on
  a heap of payloads; `Heap.addContinuations_eq` says what the recursion comes to with enough fuel.
* `Sim` is the simulation relation, and `perform_refines` says that every legal operation keeps it.
* `payloads_refine_classes` says it of sequences of operations on fresh payloads.
-/

namespace Arcana.Tasks

open Function Foundations

variable {U V E : Type*}

/-- The payloads by address. -/
abbrev Heap (U V E : Type*) := ℕ → Payload U V E

namespace Heap

/-- `add_continuations`: the heap it leaves and the continuations it runs. -/
def addContinuations : ℕ → Heap U V E → ℕ → List Continuation →
    Option (Heap U V E × List Continuation)
  | 0, _, _, _ => none
  | fuel + 1, h, p, cs =>
    if cs = [] then some (h, [])
    else
      match (h p).taskRedirect with
      | some q => addContinuations fuel h q (cs.map (·.reparent q))
      | none =>
        if (h p).completed then some (h, cs)
        else
          match (h p).internalAddContinuations cs with
          | .ok x => some (update h p x, [])
          | .error _ => none

/-- `continuation_payload::run` with a scheduling function that records the continuation; with it
goes the result its parent has. -/
def dispatch (h : Heap U V E) (cs : List Continuation) : List (ℕ × Option (Expected V E)) :=
  cs.map fun c => (c.continuation, (h c.parent).result)

/-- `do_completion`. -/
def doCompletion (h : Heap U V E) (p : ℕ) : Heap U V E × Outcome (Option (Expected V E)) :=
  match (h p).cannibalize none with
  | .ok (continuation, x) => (update h p x, .ok (dispatch (update h p x) continuation.span))
  | .error e => (h, .error e)

/-- One operation on the payloads; `none` when the fuel does not last. -/
def perform (fuel : ℕ) (h : Heap U V E) :
    Operation V E → Option (Heap U V E × Outcome (Option (Expected V E)))
  | .createContinuation p scheduler c =>
    (h.addContinuations fuel p [⟨p, c, scheduler⟩]).map fun (h, cs) => (h, .ok (h.dispatch cs))
  | .complete p r => some (doCompletion (update h p { h p with result := some r }) p)
  | .collapseLeftIntoRight left right =>
    match (h left).cannibalize (some right) with
    | .ok (continuation, x) =>
      (addContinuations fuel (update h left x) right
        (continuation.span.map (·.reparent right))).map fun (h, cs) => (h, .ok (h.dispatch cs))
    | .error e => some (h, .error e)

/-- The operations one after another, with their outcomes. -/
def performAll (fuel : ℕ) : Heap U V E → List (Operation V E) →
    Option (List (Outcome (Option (Expected V E))))
  | _, [] => some []
  | h, op :: ops =>
    (h.perform fuel op).bind fun (h, outcome) => (h.performAll fuel ops).map (outcome :: ·)

/-- The forwarding addresses. -/
def redirect (h : Heap U V E) (p : ℕ) : Option ℕ := (h p).taskRedirect

theorem redirect_update (h : Heap U V E) (p : ℕ) (x : Payload U V E) :
    redirect (update h p x) = update h.redirect p x.taskRedirect := by
  funext q
  simp only [redirect, update_apply]
  split <;> rfl

/-- Writing a payload without touching its redirect. -/
theorem redirect_update_of_eq {h : Heap U V E} {p : ℕ} {x : Payload U V E}
    (hx : x.taskRedirect = h.redirect p) : redirect (update h p x) = h.redirect := by
  rw [redirect_update, hx]
  exact update_eq_self p h.redirect

/-- The continuations `cs` stored on the payload `r`. -/
def store (h : Heap U V E) (r : ℕ) (cs : List Continuation) : Heap U V E :=
  update h r { h r with continuation := (h r).continuation.append cs }

theorem map_reparent_self {cs : List Continuation} {p : ℕ} (h : ∀ c ∈ cs, c.parent = p) :
    cs.map (·.reparent p) = cs := by
  have hid (c : Continuation) (hc : c ∈ cs) : c.reparent p = id c := by
    rw [← h c hc]
    rfl
  rw [List.map_congr_left hid, List.map_id]

/-- **The recursion of `add_continuations`**: with enough fuel it leaves the continuations,
reparented, at the end of the redirects, or to be run when that payload is completed. -/
theorem addContinuations_eq {h : Heap U V E} {p r : ℕ} (hl : Leads h.redirect p r)
    {cs : List Continuation} (hcs : cs ≠ []) (hparent : ∀ c ∈ cs, c.parent = p) :
    ∃ N, ∀ fuel, N ≤ fuel → h.addContinuations fuel p cs =
      if (h r).completed then some (h, cs.map (·.reparent r))
      else some (h.store r (cs.map (·.reparent r)), []) := by
  generalize hn : h.redirect = next at hl
  induction hl generalizing cs with
  | @root r hr =>
    refine ⟨1, fun fuel hfuel => ?_⟩
    obtain ⟨n, rfl⟩ : ∃ n, fuel = n + 1 := ⟨fuel - 1, by omega⟩
    have hr' : (h r).taskRedirect = none := by rw [← hr, ← hn, redirect]
    rw [map_reparent_self hparent, addContinuations, if_neg hcs, hr']
    cases hc : (h r).completed with
    | true => simp
    | false => simp [Payload.internalAddContinuations_of_not_completed hc, store]
  | @hop p q r hpq _ ih =>
    have hq : (h p).taskRedirect = some q := by rw [← hpq, ← hn, redirect]
    have hne : cs.map (·.reparent q) ≠ [] := by simpa using hcs
    obtain ⟨N, hN⟩ := ih hne (by simp)
    refine ⟨N + 1, fun fuel hfuel => ?_⟩
    obtain ⟨n, rfl⟩ : ∃ n, fuel = n + 1 := ⟨fuel - 1, by omega⟩
    have hmap : (cs.map (·.reparent q)).map (·.reparent r) = cs.map (·.reparent r) := by
      rw [List.map_map]
      rfl
    have hgo := hN n (by omega)
    rw [hmap] at hgo
    rw [addContinuations, if_neg hcs, hq]
    exact hgo

/-- A completion that is not refused. -/
theorem doCompletion_eq {h : Heap U V E} {p : ℕ} (hc : (h p).completed = false) :
    doCompletion h p = (update h p ((h p).cannibalized none),
      .ok (dispatch (update h p ((h p).cannibalized none)) (h p).continuation.span)) := by
  simp [doCompletion, Payload.cannibalize, hc]

/-- A collapse that is not refused. -/
theorem perform_collapse_eq {h : Heap U V E} {left right fuel : ℕ}
    (hc : (h left).completed = false) :
    h.perform fuel (.collapseLeftIntoRight left right) =
      (addContinuations fuel (update h left ((h left).cannibalized (some right))) right
        ((h left).continuation.span.map (·.reparent right))).map
        fun (h, cs) => (h, .ok (h.dispatch cs)) := by
  simp [perform, Payload.cannibalize, hc]

end Heap

/-! ## The simulation -/

/-- The heap `h` represents the classes `σ`: the redirects of a payload lead to the payload that
stands for its class, which stores what is waiting, or holds the result. -/
structure Sim (h : Heap U V E) (σ : Classes V E) : Prop where
  leads : ∀ p, Leads h.redirect p (σ.cls p)
  collapsed : ∀ p, σ.collapsed p = (h.redirect p).isSome
  completed : ∀ p, (h p).completed = (σ.collapsed p || (σ.result p).isSome)
  waiting : ∀ p, h.redirect p = none →
    (h p).continuation.span.map Continuation.continuation = σ.waiting p
  parent : ∀ p, ∀ c ∈ (h p).continuation.span, c.parent = p
  result : ∀ p r, h.redirect p = none → σ.result p = some r →
    (h p).result = some r ∧ σ.waiting p = []

namespace Sim

variable {h : Heap U V E} {σ : Classes V E}

theorem initial : Sim (fun _ => {} : Heap U V E) Classes.initial where
  leads _ := .root rfl
  collapsed _ := rfl
  completed _ := rfl
  waiting _ _ := rfl
  parent _ _ hc := by cases hc
  result _ _ _ hr := by cases hr

/-- The payload that stands for a class is not redirected. -/
theorem redirect_cls (hsim : Sim h σ) (p : ℕ) : h.redirect (σ.cls p) = none :=
  (hsim.leads p).next_eq_none

/-- A payload that is not redirected stands for its class. -/
theorem cls_eq (hsim : Sim h σ) {p : ℕ} (hp : h.redirect p = none) : σ.cls p = p :=
  (hsim.leads p).unique (.root hp)

theorem completed_cls (hsim : Sim h σ) (p : ℕ) :
    (h (σ.cls p)).completed = (σ.result (σ.cls p)).isSome := by
  rw [hsim.completed, hsim.collapsed, hsim.redirect_cls]
  rfl

/-- Storing continuations on a payload that stands for a class that is not completed. -/
theorem store (hsim : Sim h σ) {r : ℕ} (hr : h.redirect r = none) (hres : σ.result r = none)
    {cs : List Continuation} (hparent : ∀ c ∈ cs, c.parent = r) :
    Sim (h.store r cs)
      { σ with
        waiting := update σ.waiting r (σ.waiting r ++ cs.map Continuation.continuation) } := by
  have hred : (h.store r cs).redirect = h.redirect := Heap.redirect_update_of_eq rfl
  constructor
  · rw [hred]
    exact hsim.leads
  · rw [hred]
    exact hsim.collapsed
  · intro p
    rw [Heap.store, update_apply]
    split
    · rename_i e
      rw [e]
      exact hsim.completed r
    · exact hsim.completed p
  · intro p hp
    rw [hred] at hp
    by_cases e : p = r
    · subst e
      simp [Heap.store, hsim.waiting p hp]
    · simp [Heap.store, e, hsim.waiting p hp]
  · intro p c hc
    by_cases e : p = r
    · subst e
      simp only [Heap.store, update_self, ContinuationStorage.span_append, List.mem_append] at hc
      exact hc.elim (hsim.parent p c) (hparent c)
    · simp only [Heap.store, update_of_ne e] at hc
      exact hsim.parent p c hc
  · intro p v hp hv
    rw [hred] at hp
    have e : p ≠ r := by
      rintro rfl
      rw [hres] at hv
      cases hv
    simp only [Heap.store, update_of_ne e]
    exact hsim.result p v hp hv

/-- Overwriting the result of a payload that gave its class away. -/
theorem overwrite (hsim : Sim h σ) {p : ℕ} (hp : σ.collapsed p = true) (v : Expected V E) :
    Sim (update h p { h p with result := some v } : Heap U V E) σ := by
  have hred : Heap.redirect (update h p { h p with result := some v }) = h.redirect :=
    Heap.redirect_update_of_eq rfl
  rw [hsim.collapsed] at hp
  constructor
  · rw [hred]
    exact hsim.leads
  · rw [hred]
    exact hsim.collapsed
  · intro q
    by_cases e : q = p
    · subst e
      simpa using hsim.completed q
    · simpa [e] using hsim.completed q
  · intro q hq
    rw [hred] at hq
    by_cases e : q = p
    · subst e
      simpa using hsim.waiting q hq
    · simpa [e] using hsim.waiting q hq
  · intro q c hc
    by_cases e : q = p
    · subst e
      simp only [update_self] at hc
      exact hsim.parent q c hc
    · simp only [update_of_ne e] at hc
      exact hsim.parent q c hc
  · intro q r hq hr
    rw [hred] at hq
    have e : q ≠ p := by
      rintro rfl
      simp [hq] at hp
    simp only [update_of_ne e]
    exact hsim.result q r hq hr

/-- Completing a payload that stands for its class. -/
theorem complete (hsim : Sim h σ) {p : ℕ} (hp : h.redirect p = none) (v : Expected V E) :
    Sim (update h p (Payload.cannibalized { h p with result := some v } none) : Heap U V E)
      { σ with
        waiting := update σ.waiting p []
        result := update σ.result p (some v) } := by
  have hred : Heap.redirect (update h p
      (Payload.cannibalized { h p with result := some v } none)) = h.redirect :=
    Heap.redirect_update_of_eq hp.symm
  constructor
  · rw [hred]
    exact hsim.leads
  · rw [hred]
    exact hsim.collapsed
  · intro q
    by_cases e : q = p
    · subst e
      simp [Payload.cannibalized]
    · simpa [e] using hsim.completed q
  · intro q hq
    rw [hred] at hq
    by_cases e : q = p
    · subst e
      simp [Payload.cannibalized]
    · simpa [e] using hsim.waiting q hq
  · intro q c hc
    by_cases e : q = p
    · subst e
      simp [Payload.cannibalized] at hc
    · simp only [update_of_ne e] at hc
      exact hsim.parent q c hc
  · intro q r hq hr
    rw [hred] at hq
    by_cases e : q = p
    · subst e
      simpa [Payload.cannibalized] using hr
    · simp only [update_of_ne e] at hr ⊢
      exact hsim.result q r hq hr

/-- Redirecting a payload that stands for its class into another class. -/
theorem collapse (hsim : Sim h σ) {left right : ℕ} (hl : h.redirect left = none)
    (hne : σ.cls left ≠ σ.cls right) :
    Sim (update h left ((h left).cannibalized (some right)) : Heap U V E)
      (σ.merge left right (σ.waiting (σ.cls right))) := by
  have hcl : σ.cls left = left := hsim.cls_eq hl
  have hred : Heap.redirect (update h left ((h left).cannibalized (some right))) =
      update h.redirect left (some right) := Heap.redirect_update _ _ _
  have hright := (hsim.leads right).update_of_ne (q := right) hl (by rw [← hcl]; exact hne.symm)
  -- the redirect is the only one that changed, so that another payload that has none had none
  have hroot {p : ℕ} (hp : Heap.redirect (update h left ((h left).cannibalized (some right))) p =
      none) : p ≠ left ∧ h.redirect p = none := by
    rw [hred, update_apply] at hp
    split at hp
    · cases hp
    · rename_i e
      exact ⟨e, hp⟩
  -- and the waiting lists are those of `σ`, but for the left one, which is empty
  have hwaiting {p : ℕ} (hp : p ≠ left) :
      (σ.merge left right (σ.waiting (σ.cls right))).waiting p = σ.waiting p := by
    simp only [Classes.merge, update_apply, hcl, hp, if_false]
    split
    · rename_i e
      rw [e]
    · rfl
  constructor
  · intro p
    rw [hred]
    simp only [Classes.merge]
    split
    · rename_i e
      exact (e.trans hcl ▸ hsim.leads p).update_of_eq hright
    · rename_i e
      rw [hcl] at e
      exact (hsim.leads p).update_of_ne hl e
  · intro p
    rw [hred]
    simp only [Classes.merge, update_apply]
    split
    · rfl
    · exact hsim.collapsed p
  · intro p
    simp only [Classes.merge, update_apply]
    split
    · rfl
    · exact hsim.completed p
  · intro p hp
    obtain ⟨hpl, hp⟩ := hroot hp
    rw [hwaiting hpl, update_of_ne hpl]
    exact hsim.waiting p hp
  · intro p c hc
    by_cases e : p = left
    · subst e
      simp [Payload.cannibalized] at hc
    · simp only [update_of_ne e] at hc
      exact hsim.parent p c hc
  · intro p r hp hr
    obtain ⟨hpl, hp⟩ := hroot hp
    rw [hwaiting hpl, update_of_ne hpl]
    exact hsim.result p r hp hr

end Sim

/-! ## Every operation refines the one on classes -/

/-- The outcome of an operation on classes as an outcome of one on payloads. -/
def Outcome.some (outcome : Outcome (Expected V E)) : Outcome (Option (Expected V E)) :=
  outcome.map fun cs => cs.map fun c => (c.1, Option.some c.2)

/-- Continuations with the parent `r` read the result of `r`. -/
theorem Heap.dispatch_eq {h : Heap U V E} {r : ℕ} {v : Expected V E} (hr : (h r).result = some v)
    {cs : List Continuation} (hparent : ∀ c ∈ cs, c.parent = r) :
    h.dispatch cs = (cs.map Continuation.continuation).map fun c => (c, some v) := by
  rw [Heap.dispatch, List.map_map]
  refine List.map_congr_left fun c hc => ?_
  rw [hparent c hc, hr]
  rfl

/-- The operation on the payloads has the outcome of the one on the classes, with enough fuel, and
leaves a heap that represents the classes it leaves. -/
def Refines (h : Heap U V E) (σ : Classes V E) (op : Operation V E) : Prop :=
  ∃ h', (∃ N, ∀ fuel, N ≤ fuel → h.perform fuel op = some (h', (σ.perform op).2.some)) ∧
    Sim h' (σ.perform op).1

section refines

variable {h : Heap U V E} {σ : Classes V E}

theorem createContinuation_refines (hsim : Sim h σ) (p : ℕ) (scheduler : Scheduler) (c : ℕ) :
    Refines h σ (.createContinuation p scheduler c) := by
  have hcompleted := hsim.completed_cls p
  obtain ⟨N, hN⟩ := Heap.addContinuations_eq (hsim.leads p)
    (List.cons_ne_nil ⟨p, c, scheduler⟩ []) (by simp)
  unfold Refines
  cases hres : σ.result (σ.cls p) with
  | some v =>
    have hroot := hsim.result _ v (hsim.redirect_cls p) hres
    simp only [Classes.perform, hres]
    refine ⟨h, ⟨N, fun fuel hfuel => ?_⟩, hsim⟩
    rw [Heap.perform, hN fuel hfuel, hcompleted, hres]
    simp [Heap.dispatch, hroot.1, Outcome.some, Except.map]
  | none =>
    simp only [Classes.perform, hres]
    refine ⟨h.store (σ.cls p) [⟨σ.cls p, c, scheduler⟩], ⟨N, fun fuel hfuel => ?_⟩, ?_⟩
    · rw [Heap.perform, hN fuel hfuel, hcompleted, hres]
      rfl
    · exact hsim.store (hsim.redirect_cls p) hres (by simp)

theorem complete_refines (hsim : Sim h σ) {p : ℕ} {v : Expected V E}
    (hlegal : σ.result (σ.cls p) = none) : Refines h σ (.complete p v) := by
  let h₁ : Heap U V E := update h p { h p with result := some v }
  unfold Refines
  cases hcol : σ.collapsed p with
  | true =>
    have hc : (h₁ p).completed = true := by simp [h₁, hsim.completed, hcol]
    simp only [Classes.perform, hcol, if_true]
    refine ⟨h₁, ⟨0, fun fuel _ => ?_⟩, hsim.overwrite hcol v⟩
    rw [Heap.perform, Heap.doCompletion, Payload.cannibalize_of_completed hc]
    rfl
  | false =>
    have hp : h.redirect p = none := by simpa [hsim.collapsed] using hcol
    have hcls := hsim.cls_eq hp
    have hc : (h₁ p).completed = false := by
      simp [h₁, hsim.completed, hcol, ← hlegal, hcls]
    have hread : (update h₁ p ((h₁ p).cannibalized none) p).result = some v := by
      simp [h₁, Payload.cannibalized]
    have hparent : ∀ c ∈ (h₁ p).continuation.span, c.parent = p := by
      simpa [h₁] using hsim.parent p
    have hwaiting : (h₁ p).continuation.span.map Continuation.continuation = σ.waiting p := by
      simpa [h₁] using hsim.waiting p hp
    have hleft : update h₁ p ((h₁ p).cannibalized none) =
        update h p (Payload.cannibalized { h p with result := some v } none) := by simp [h₁]
    simp only [Classes.perform, hcol, hcls, Bool.false_eq_true, if_false]
    refine ⟨update h₁ p ((h₁ p).cannibalized none), ⟨0, fun fuel _ => ?_⟩, ?_⟩
    · rw [Heap.perform, Heap.doCompletion_eq hc, Heap.dispatch_eq hread hparent, hwaiting]
      simp [Outcome.some, Except.map]
    · rw [hleft]
      exact hsim.complete hp v

theorem collapseLeftIntoRight_refines (hsim : Sim h σ) {left right : ℕ}
    (hlegal : σ.cls left ≠ σ.cls right) : Refines h σ (.collapseLeftIntoRight left right) := by
  unfold Refines
  have hcompleted := hsim.completed left
  cases hc : (h left).completed with
  | true =>
    have hrefused : (σ.collapsed left || (σ.result (σ.cls left)).isSome) = true := by
      cases hcol : σ.collapsed left with
      | true => rfl
      | false =>
        have hl : h.redirect left = none := by simpa [hsim.collapsed] using hcol
        rw [hsim.cls_eq hl, ← hcol, ← hcompleted, hc]
    simp only [Classes.perform, hrefused, if_true]
    refine ⟨h, ⟨0, fun fuel _ => ?_⟩, hsim⟩
    rw [Heap.perform, Payload.cannibalize_of_completed hc]
    rfl
  | false =>
    rw [hc] at hcompleted
    obtain ⟨hcol, hres⟩ := Bool.or_eq_false_iff.1 hcompleted.symm
    have hl : h.redirect left = none := by simpa [hsim.collapsed] using hcol
    have hcls := hsim.cls_eq hl
    have hsim₁ := hsim.collapse hl hlegal
    have hright : (σ.merge left right (σ.waiting (σ.cls right))).cls right = σ.cls right := by
      simp [Classes.merge]
    have hwaiting := hsim.waiting left hl
    simp only [Classes.perform, hcol, hcls, hres, Bool.or_self, Bool.false_eq_true, if_false]
    have hcompleted₁ := hsim₁.completed_cls right
    rw [hright] at hcompleted₁
    by_cases hempty : (h left).continuation.span = []
    · -- nothing waits on the left, and nothing is added to the right
      rw [hempty] at hwaiting
      have hadd (fuel : ℕ) (hfuel : 1 ≤ fuel) :
          h.perform fuel (.collapseLeftIntoRight left right) =
            some (update h left ((h left).cannibalized (some right)), .ok []) := by
        obtain ⟨n, rfl⟩ : ∃ n, fuel = n + 1 := ⟨fuel - 1, by omega⟩
        rw [Heap.perform_collapse_eq hc, hempty]
        rfl
      cases hr : σ.result (σ.cls right) with
      | some v =>
        have hnil := (hsim.result _ v (hsim.redirect_cls right) hr).2
        rw [hnil] at hsim₁
        simp only [← hwaiting]
        exact ⟨_, ⟨1, hadd⟩, hsim₁⟩
      | none =>
        simp only [← hwaiting, List.map_nil, List.append_nil]
        exact ⟨_, ⟨1, hadd⟩, hsim₁⟩
    · have hne : (h left).continuation.span.map (·.reparent right) ≠ [] := by simpa using hempty
      have hmap : ((h left).continuation.span.map (·.reparent right)).map
          (·.reparent (σ.cls right)) =
            (h left).continuation.span.map (·.reparent (σ.cls right)) := by
        rw [List.map_map]
        rfl
      have hconts : ((h left).continuation.span.map (·.reparent (σ.cls right))).map
          Continuation.continuation = σ.waiting left := by
        rw [← hwaiting, List.map_map]
        rfl
      obtain ⟨N, hN⟩ := Heap.addContinuations_eq (hright ▸ hsim₁.leads right) hne (by simp)
      rw [hmap, hcompleted₁] at hN
      cases hr : σ.result (σ.cls right) with
      | some v =>
        have hnil := (hsim.result _ v (hsim.redirect_cls right) hr).2
        have hread := (hsim₁.result (σ.cls right) v (hright ▸ hsim₁.redirect_cls right) hr).1
        rw [hnil] at hsim₁
        refine ⟨_, ⟨N, fun fuel hfuel => ?_⟩, hsim₁⟩
        have hisSome : ((σ.merge left right (σ.waiting (σ.cls right))).result
            (σ.cls right)).isSome = true := by simp [Classes.merge, hr]
        rw [Heap.perform_collapse_eq hc, hN fuel hfuel, hisSome]
        simp only [if_true, Option.map_some, Heap.dispatch_eq hread (by simp : ∀ c ∈
          (h left).continuation.span.map (·.reparent (σ.cls right)), c.parent = σ.cls right),
          hconts]
        simp [Outcome.some, Except.map]
      | none =>
        have hsim₂ := hsim₁.store (hright ▸ hsim₁.redirect_cls right) hr (by simp : ∀ c ∈
          (h left).continuation.span.map (·.reparent (σ.cls right)), c.parent = σ.cls right)
        rw [hconts] at hsim₂
        have hmerge : σ.merge left right (σ.waiting (σ.cls right) ++ σ.waiting left) =
            { σ.merge left right (σ.waiting (σ.cls right)) with
              waiting := update (σ.merge left right (σ.waiting (σ.cls right))).waiting
                (σ.cls right) ((σ.merge left right (σ.waiting (σ.cls right))).waiting
                  (σ.cls right) ++ σ.waiting left) } := by
          simp [Classes.merge]
        rw [← hmerge] at hsim₂
        refine ⟨_, ⟨N, fun fuel hfuel => ?_⟩, hsim₂⟩
        have hisSome : ((σ.merge left right (σ.waiting (σ.cls right))).result
            (σ.cls right)).isSome = false := by simp [Classes.merge, hr]
        rw [Heap.perform_collapse_eq hc, hN fuel hfuel, hisSome]
        rfl

/-- **Every legal operation refines the one on classes.** -/
theorem perform_refines (hsim : Sim h σ) {op : Operation V E} (hlegal : σ.Legal op) :
    Refines h σ op := by
  cases op with
  | createContinuation p scheduler c => exact createContinuation_refines hsim p scheduler c
  | complete p v => exact complete_refines hsim hlegal
  | collapseLeftIntoRight left right => exact collapseLeftIntoRight_refines hsim hlegal

theorem performAll_refines (hsim : Sim h σ) {ops : List (Operation V E)} (hlegal : σ.LegalAll ops) :
    ∃ N, ∀ fuel, N ≤ fuel → h.performAll fuel ops = some ((σ.performAll ops).map Outcome.some) := by
  induction ops generalizing h σ with
  | nil => exact ⟨0, fun _ _ => rfl⟩
  | cons op ops ih =>
    obtain ⟨hop, hops⟩ := hlegal
    obtain ⟨h', ⟨N, hN⟩, hsim'⟩ := perform_refines hsim hop
    obtain ⟨M, hM⟩ := ih hsim' hops
    refine ⟨max N M, fun fuel hfuel => ?_⟩
    rw [Heap.performAll, hN fuel (by omega)]
    simp [hM fuel (by omega), Classes.performAll]

end refines

/-- **Payloads with redirects refine classes, order included.** For every sequence of operations on
fresh payloads that collapses no payload into its own class and completes each class once, the
payloads dispatch, operation by operation, the continuations that the classes dispatch, in the same
order and each with the result of its class. -/
theorem payloads_refine_classes {ops : List (Operation V E)}
    (hlegal : (Classes.initial : Classes V E).LegalAll ops) :
    ∃ N, ∀ fuel, N ≤ fuel →
      Heap.performAll fuel (fun _ => {} : Heap U V E) ops =
        some ((Classes.initial.performAll ops).map Outcome.some) :=
  performAll_refines .initial hlegal

/-- Two continuations wait on the payload 0 and one on the payload 1 when 0 is collapsed into 1; a
fourth is registered on 0 before 1 is completed, and a fifth after that. -/
theorem payloads_refine_collapse : ∃ N, ∀ fuel, N ≤ fuel →
    Heap.performAll fuel (fun _ => {} : Heap Unit ℕ ErrorCode)
      [.createContinuation 0 .dispatcher 10, .createContinuation 0 .inlineScheduler 11,
        .createContinuation 1 .dispatcher 12, .collapseLeftIntoRight 0 1,
        .createContinuation 0 .dispatcher 13, .complete 1 (.ok (.val 7)),
        .createContinuation 0 .dispatcher 14] =
      some [.ok [], .ok [], .ok [], .ok [], .ok [],
        .ok [(12, some (.ok (.val 7))), (10, some (.ok (.val 7))), (11, some (.ok (.val 7))),
          (13, some (.ok (.val 7)))],
        .ok [(14, some (.ok (.val 7)))]] :=
  payloads_refine_classes (by decide)

end Arcana.Tasks
