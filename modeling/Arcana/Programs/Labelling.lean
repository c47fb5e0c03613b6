import Arcana.Programs.Roles

/-!
# Every step keeps the roles

A step that allocates gives roles to the fresh payloads; any other step keeps the roles there are.
What a step writes fits the role of its payload, and the calls it pushes do what their place asks
for, since the call that makes them did. Only the roles know that what a step makes is the next part
of the program: the work that `make_task_factory` gets is that of the last step of a program, and
this decides which roles the fresh payloads get.

* `Code.Continues`: code that goes on to make the same task.
* `Relabels`: the state after a step is labelled, by roles that extend the ones before.
* `Labelled.move` and `Labelled.write`: a step that leaves the heap alone, and a write to a payload.
* `Labelled.alloc`, `Labelled.factory` and `Labelled.makeSource`: the roles of fresh payloads.
* `Labelled.replaces` and `Labelled.allocate`: what is left to show of a step of the task system,
  and of one that makes a task.
* `Labelled.relabels_returns`, `Labelled.relabels_invokes` and so on: one lemma for each rule.
* `Labelled.step`: every step keeps the roles, and gives some to what it allocates.
-/

namespace Arcana.Programs

open Function Tasks

universe u v

variable {T : Type*} {V : Type u} {E : Type v} [ErrorTraits E] {ρ ρ' : List (Role V E)}
  {main : Program V E} {s s' s₁ : State T (Code V E) V E} {t : T}

/-! ## Code that goes on -/

/-- Code that goes on to make the same task. -/
structure Code.Continues (ρ : List (Role V E)) (u u' : Code V E) : Prop where
  makes : ∀ p, u.Makes ρ p → u'.Makes ρ p
  purpose : u'.purpose = u.purpose
  builds : u.purpose ≠ none

theorem Code.Continues.fits {u u' : Code V E} (h : u.Continues ρ u') (hu : u.Fits ρ main) :
    u'.Fits ρ main := by
  cases hu with
  | makes hu hmain => exact .makes (h.makes _ hu) (h.purpose ▸ hmain)
  | ret | observe => exact absurd rfl h.builds

theorem Code.Continues.answers {u u' : Code V E} (h : u.Continues ρ u') {x : ℕ}
    (hu : Answers ρ x u) : Answers ρ x u' := by
  cases hu with
  | program hx hu hp hu' => exact .program hx (h.makes _ hu) (h.purpose.trans hp) hu'
  | returns _ e | throws _ e | observes _ e | observed _ e =>
    subst e
    exact absurd rfl h.builds

/-- A thread whose code goes on. -/
theorem Labelled.continues (h : Labelled ρ main s) {u : Code V E} (u' : Code V E)
    {rest : List (Frame (Code V E) V E)} (hs : s.stack t = .user u :: rest)
    (hu : u.Continues ρ u') :
    u'.Fits ρ main ∧ (.user u' :: rest : List (Frame (Code V E) V E)).IsChain (Fitting ρ) := by
  have hc := h.calls t
  rw [hs] at hc
  refine ⟨hu.fits (h.top hs), hc.imp_head fun {g} hg => ?_⟩
  cases g with
  | doWork => exact hu.answers hg
  | _ => trivial

/-- What the callable of a payload returns fits the role. -/
theorem Answers.holds {x : ℕ} {u : Code V E} {r : Return V E} {y : Expected V E} {R : Role V E}
    (h : Answers ρ x u) (hu : u.Acts (.ret r)) (hy : outputWrapper r = some y)
    (hR : ρ[x]? = some R) : R.Holds ρ y := by
  cases h with
  | returns hx e hout =>
    subst e
    cases hu
    cases hR.symm.trans hx
    exact Option.some.inj (hy.symm.trans hout)
  | throws hx e he hc =>
    subst e
    cases hu
    cases hR.symm.trans hx
    cases hy.symm.trans (if_pos hc)
    exact he
  | program hx hmakes hp hunfolds =>
    cases hu with
    | returned q =>
      cases hR.symm.trans hx
      cases hy
      obtain ⟨b, hb, rfl⟩ := hmakes
      exact ⟨b, hb, hunfolds⟩
    | ret => cases hp
  | observes _ e =>
    subst e
    cases hu
  | observed hx =>
    cases hR.symm.trans hx
    trivial

/-! ## What a step has to establish -/

/-- A call that is no user code fits on top of every other one. -/
theorem isChain_cons {f : Frame (Code V E) V E} {rest : List (Frame (Code V E) V E)}
    (hf : ∀ g, Fitting ρ f g) (h : rest.IsChain (Fitting ρ)) : (f :: rest).IsChain (Fitting ρ) := by
  cases rest with
  | nil => exact .singleton _
  | cons g rest => exact .cons_cons (hf g) h

namespace Labelled

variable [DecidableEq T] {fs : List (Frame (Code V E) V E)}

/-- A step that leaves the heap alone. -/
theorem move (h : Labelled ρ main s) (heap : s'.heap = s.heap) (next : s'.next = s.next)
    (sources : s'.sources = s.sources) (stack : s'.stack = update s.stack t fs)
    (frames : ∀ f ∈ fs, f ∈ s.stack t ∨ CallFits ρ main f) (calls : fs.IsChain (Fitting ρ))
    (queue : ∀ c ∈ s'.queue, c ∈ s.queue ∨ CallableFits ρ c)
    (emitted : ∀ r ∈ s'.emitted, r ∈ s.emitted ∨ r = main.eval) : Labelled ρ main s' where
  payload p hp := by
    rw [heap]
    exact h.payload p (next ▸ hp)
  bases p hp b hb hw := by
    rw [sources]
    exact h.bases p (next ▸ hp) b hb hw
  observers x hx := h.observers x (next ▸ hx)
  frames t' f hf := by
    rw [stack, update_apply] at hf
    split at hf
    · exact (frames f hf).elim (h.frames t f) id
    · exact h.frames t' f hf
  calls t' := by
    rw [stack, update_apply]
    split
    · exact calls
    · exact h.calls t'
  queue c hc := (queue c hc).elim (h.queue c) id
  emitted r hr := (emitted r hr).elim (h.emitted r) id

omit [DecidableEq T] in
/-- A write to a payload. -/
theorem write (h : Labelled ρ main s) {p : ℕ} {x : Payload (Code V E) V E}
    (heap : s'.heap = update s.heap p x) (next : s'.next = s.next)
    (sources : s'.sources = s.sources) (stack : s'.stack = s.stack) (queue : s'.queue = s.queue)
    (emitted : s'.emitted = s.emitted)
    (fits : ∀ R, ρ[p]? = some R → R.Fits ρ p (s.heap p) → R.Fits ρ p x) : Labelled ρ main s' where
  payload q hq := by
    obtain ⟨R, hR, hx⟩ := h.payload q (next ▸ hq)
    refine ⟨R, hR, ?_⟩
    rw [heap, update_apply]
    split
    · rename_i e
      subst e
      exact fits R hR hx
    · exact hx
  bases q hq b hb hw := by
    rw [sources]
    exact h.bases q (next ▸ hq) b hb hw
  observers q hq := h.observers q (next ▸ hq)
  frames t := stack ▸ h.frames t
  calls t := stack ▸ h.calls t
  queue := queue ▸ h.queue
  emitted := emitted ▸ h.emitted

end Labelled

/-- Reading an input changes nothing that the roles are about. -/
theorem Labelled.read (h : Labelled ρ main s) {x : ℕ} {parent : Option ℕ}
    {y : Expected V E ⊕ Code V E} (hinput : WorkInput s x parent s₁ y) : Labelled ρ main s₁ := by
  cases hinput with
  | start => exact h
  | continuation => exact ⟨h.payload, h.bases, h.observers, h.frames, h.calls, h.queue, h.emitted⟩

theorem Role.Fits.setResult {R : Role V E} {p : ℕ} {x : Payload (Code V E) V E}
    (hx : R.Fits ρ p x) {r : Expected V E} (hr : R.Holds ρ r) :
    R.Fits ρ p { x with result := some r } where
  work := hx.work
  result _ hr' := Option.some.inj hr' ▸ hr
  stored := hx.stored
  redirect := hx.redirect

theorem Role.Fits.cannibalized {R : Role V E} {p : ℕ} {x : Payload (Code V E) V E}
    (hx : R.Fits ρ p x) {q : Option ℕ} (hq : ∀ r, q = some r →
      ∃ p p', R = .task p ∧ ρ[r]? = some (.task p') ∧ p'.Unfolds p) :
    R.Fits ρ p (x.cannibalized q) where
  work := hx.work
  result := hx.result
  stored c hc := by simp [Payload.cannibalized] at hc
  redirect := hq

theorem Role.Fits.store {R : Role V E} {p : ℕ} {x : Payload (Code V E) V E} (hx : R.Fits ρ p x)
    {cs : List Continuation} (hcs : ∀ c ∈ cs, Reads ρ c.continuation p) :
    R.Fits ρ p { x with continuation := x.continuation.append cs } where
  work := hx.work
  result := hx.result
  stored c hc := by
    rw [ContinuationStorage.span_append, List.mem_append] at hc
    exact hc.elim (hx.stored c) (hcs c)
  redirect := hx.redirect

/-- A fresh payload fits its role. -/
theorem Role.Fits.fresh {R : Role V E} {p : ℕ} {x : Payload (Code V E) V E}
    (work : x.work = R.work) (result : x.result = none)
    (stored : ∀ c ∈ x.continuation.span, Reads ρ c.continuation p)
    (redirect : x.taskRedirect = none) : R.Fits ρ p x where
  work := work
  result r hr := by
    rw [result] at hr
    cases hr
  stored := stored
  redirect q hq := by
    rw [redirect] at hq
    cases hq

/-! ## Allocation -/

namespace Labelled

/-- Allocation of payloads that get roles. -/
theorem alloc (h : Labelled ρ main s) (hlen : ρ.length = s.next) {Rs : List (Role V E)}
    (next : s'.next = s.next + Rs.length) (heap : ∀ p < s.next, s'.heap p = s.heap p)
    (stack : s'.stack = s.stack) (queue : s'.queue = s.queue) (emitted : s'.emitted = s.emitted)
    (sources : ∀ p ∈ s.sources, p ∈ s'.sources)
    (fresh : ∀ i R, Rs[i]? = some R → R.Fits (ρ ++ Rs) (s.next + i) (s'.heap (s.next + i)) ∧
      (∀ b, R = .task b → b.work = none → s.next + i ∈ s'.sources) ∧
      ∀ p, R = .observer p → p = main) : Labelled (ρ ++ Rs) main s' := by
  have hρ : ρ <+: ρ ++ Rs := List.prefix_append ρ Rs
  have hmono := h.mono hρ
  have role {p : ℕ} (hp : s.next ≤ p) : (ρ ++ Rs)[p]? = Rs[p - s.next]? := by
    rw [List.getElem?_append_right (by omega), hlen]
  have at_fresh {p : ℕ} (hp : s.next ≤ p) : s.next + (p - s.next) = p := by omega
  constructor
  · intro p hp
    by_cases hlt : p < s.next
    · rw [heap p hlt]
      exact hmono.payload p hlt
    · have hp' : p - s.next < Rs.length := by omega
      have hget := List.getElem?_eq_getElem hp'
      have hfits := (fresh _ _ hget).1
      rw [at_fresh (by omega)] at hfits
      exact ⟨_, (role (by omega)).trans hget, hfits⟩
  · intro p hp b hb hw
    by_cases hlt : p < s.next
    · exact sources p (hmono.bases p hlt b hb hw)
    · rw [role (by omega)] at hb
      have hbase := (fresh _ _ hb).2.1 b rfl hw
      rw [at_fresh (by omega)] at hbase
      exact hbase
  · intro p hp q hq
    by_cases hlt : p < s.next
    · exact hmono.observers p hlt q hq
    · rw [role (by omega)] at hq
      exact (fresh _ _ hq).2.2 q rfl
  · exact stack ▸ hmono.frames
  · exact stack ▸ hmono.calls
  · exact queue ▸ hmono.queue
  · exact emitted ▸ hmono.emitted

/-- `task_factory` for a callable that returns no task. -/
theorem plain (h : Labelled ρ main s) (hlen : ρ.length = s.next) {work : Work (Code V E) V E}
    {R : Role V E} (hwork : R.work = some work) (hmain : ∀ p, R = .observer p → p = main) :
    Labelled (ρ ++ [R]) main
      { s with heap := update s.heap s.next { work := some work }, next := s.next + 1 } := by
  refine h.alloc hlen rfl (fun p hp => update_of_ne (by omega) ..) rfl rfl rfl (fun _ => id) ?_
  intro i R' hR'
  obtain ⟨rfl, rfl⟩ : i = 0 ∧ R' = R := by
    cases i with
    | zero => exact ⟨rfl, (Option.some.inj hR').symm⟩
    | succ => cases hR'
  refine ⟨?_, fun b hb hnone => ?_, hmain⟩
  · simp only [add_zero, update_self]
    exact .fresh hwork.symm rfl (fun _ hc => by cases hc) rfl
  · subst hb
    simp [Role.work, hnone] at hwork

/-- `task_factory` for a callable that returns a task. -/
theorem unwrap (h : Labelled ρ main s) (hlen : ρ.length = s.next) {work : Work (Code V E) V E}
    {b : Program V E} (hwork : b.work = some work) (hb : b.unwraps = true) :
    Labelled (ρ ++ [.outer b hb, .task b, .link (s.next + 1)]) main
      { s with
        heap := update (update (update s.heap s.next
            { work := some work
              continuation := .single (some ⟨s.next, s.next + 2, .inlineScheduler⟩) })
          (s.next + 1) {}) (s.next + 2) { work := some (.unwrap (s.next + 1)) }
        next := s.next + 3
        registered := (s.next + 2) :: s.registered } := by
  have role (i : ℕ) : (ρ ++ [.outer b hb, .task b, .link (s.next + 1)])[s.next + i]? =
      [Role.outer b hb, .task b, .link (s.next + 1)][i]? := by
    rw [List.getElem?_append_right (by omega), hlen, Nat.add_sub_cancel_left]
  refine h.alloc hlen rfl (fun p hp => ?_) rfl rfl rfl (fun _ => id) fun i R hR => ?_
  · show update _ _ _ p = _
    rw [update_of_ne (by omega), update_of_ne (by omega), update_of_ne (by omega)]
  · rcases i with _ | _ | _ | i
    · cases hR
      refine ⟨?_, by simp, by simp⟩
      simp only [Nat.add_zero]
      rw [update_of_ne (by omega), update_of_ne (by omega), update_self]
      refine .fresh hwork.symm rfl (fun c hc => ?_) rfl
      cases List.mem_singleton.1 hc
      exact .link (role 2) (role 0) (role 1) rfl
    · cases hR
      refine ⟨?_, fun b' hb' hnone => ?_, by simp⟩
      · simp only [Nat.zero_add]
        rw [update_of_ne (by omega), update_self]
        exact .fresh (if_pos hb).symm rfl (fun _ hc => by cases hc) rfl
      · cases hb'
        cases hwork.symm.trans hnone
    · cases hR
      refine ⟨?_, by simp, by simp⟩
      simp only [Nat.zero_add, Nat.reduceAdd]
      rw [update_self]
      exact .fresh rfl rfl (fun _ hc => by cases hc) rfl
    · cases hR

/-- **`make_task_factory` makes the task of a program** when it gets the work of its last step. -/
theorem factory (h : Labelled ρ main s) (hlen : ρ.length = s.next) {work : Work (Code V E) V E}
    {unwrap : Bool} {toRun toReturn : ℕ} (hf : Factory s work unwrap s₁ toRun toReturn)
    {b : Program V E} (hwork : b.work = some work) (hunwrap : b.unwraps = unwrap) :
    ∃ ρ', ρ <+: ρ' ∧ ρ'.length = s₁.next ∧ Labelled ρ' main s₁ ∧
      ρ'[toReturn]? = some (.task b) ∧
      ∃ R, ρ'[toRun]? = some R ∧ R.work = some work ∧ R.antecedent = b.antecedent := by
  cases hf with
  | plain =>
    have hR : (Role.task b).work = some work := by
      rw [Role.work, hunwrap]
      exact hwork
    have hrole : (ρ ++ [Role.task b])[s.next]? = some (.task b) := by
      rw [← hlen]
      exact List.getElem?_concat_length ..
    exact ⟨_, List.prefix_append _ _, by simp [hlen], h.plain hlen hR (by simp), hrole, _,
      hrole, hR, rfl⟩
  | unwrap =>
    refine ⟨_, List.prefix_append _ _, by simp [hlen], h.unwrap hlen hwork hunwrap, ?_,
      .outer b hunwrap, ?_, hwork, rfl⟩
    · rw [List.getElem?_append_right (by omega), hlen, Nat.add_sub_cancel_left]
      rfl
    · rw [List.getElem?_append_right (by omega), hlen, Nat.sub_self]
      rfl

/-- A source that is constructed for a task that is not run. -/
theorem makeSource (h : Labelled ρ main s) (hlen : ρ.length = s.next) {b : Program V E}
    (hwork : b.work = none) : Labelled (ρ ++ [.task b]) main s.makeSource := by
  refine h.alloc hlen rfl (fun p hp => update_of_ne (by omega) ..) rfl rfl rfl
    (fun _ => .tail _) fun i R hR => ?_
  obtain ⟨rfl, rfl⟩ : i = 0 ∧ R = .task b := by
    cases i with
    | zero => exact ⟨rfl, (Option.some.inj hR).symm⟩
    | succ => cases hR
  refine ⟨?_, fun _ _ _ => .head _, nofun⟩
  rw [add_zero, State.makeSource_heap, update_self]
  refine .fresh ?_ rfl (fun _ hc => by cases hc) rfl
  simp [Role.work, hwork]

end Labelled

/-! ## Every step -/

/-- The roles after a step. -/
def Relabels (ρ : List (Role V E)) (main : Program V E) (s' : State T (Code V E) V E) : Prop :=
  ∃ ρ', ρ <+: ρ' ∧ ρ'.length = s'.next ∧ Labelled ρ' main s'

theorem Relabels.keep (hlen : ρ.length = s.next) (next : s'.next = s.next)
    (h : Labelled ρ main s') : Relabels ρ main s' :=
  ⟨ρ, List.prefix_rfl, hlen.trans next.symm, h⟩

/-- Calls that are no user code fit on top of any others. -/
theorem isChain_append {new rest : List (Frame (Code V E) V E)}
    (hnew : ∀ f ∈ new, ∀ g, Fitting ρ f g)
    (h : rest.IsChain (Fitting ρ)) : (new ++ rest).IsChain (Fitting ρ) := by
  induction new with
  | nil => exact h
  | cons f new ih =>
    obtain ⟨hf, hnew⟩ := List.forall_mem_cons.1 hnew
    exact isChain_cons hf (ih hnew)

variable [DecidableEq T]

/-- A step that replaces the calls on top by calls that are no user code. -/
theorem Labelled.replaces (h : Labelled ρ main s) (hlen : ρ.length = s.next)
    (top new : List (Frame (Code V E) V E)) {rest : List (Frame (Code V E) V E)}
    (hs : s.stack t = top ++ rest) (heap : s'.heap = s.heap) (next : s'.next = s.next)
    (sources : s'.sources = s.sources) (stack : s'.stack = update s.stack t (new ++ rest))
    (emitted : s'.emitted = s.emitted)
    (hnew : ∀ f ∈ new, CallFits ρ main f ∧ ∀ g, Fitting ρ f g)
    (queue : ∀ c ∈ s'.queue, c ∈ s.queue ∨ CallableFits ρ c) : Relabels ρ main s' := by
  have hrest : rest.IsChain (Fitting ρ) := by
    have hc := h.calls t
    rw [hs] at hc
    exact hc.right_of_append
  have hcalls := isChain_append (fun f hf => (hnew f hf).2) hrest
  refine .keep hlen next
    (h.move heap next sources stack (fun f hf => ?_) hcalls queue fun r hr => ?_)
  · rcases List.mem_append.1 hf with hf | hf
    · exact .inr (hnew f hf).1
    · rw [hs]
      exact .inl (List.mem_append_right _ hf)
  · exact .inl (emitted ▸ hr)

/-- A step that allocates the payloads of a step of the program, and then moves. -/
theorem Labelled.allocate (h : Labelled ρ main s) (hlen : ρ.length = s.next)
    {work : Work (Code V E) V E} {unwrap : Bool} {toRun toReturn : ℕ}
    (hf : Factory s work unwrap s₁ toRun toReturn) {b : Program V E} (hwork : b.work = some work)
    (hunwrap : b.unwraps = unwrap) (heap : s'.heap = s₁.heap) (next : s'.next = s₁.next)
    (sources : s'.sources = s₁.sources) {fs : List (Frame (Code V E) V E)}
    (stack : s'.stack = update s₁.stack t fs) (emitted : s'.emitted = s₁.emitted)
    (rest : ∀ ρ', ρ <+: ρ' → ρ'[toReturn]? = some (.task b) →
      (∃ R, ρ'[toRun]? = some R ∧ R.work = some work ∧ R.antecedent = b.antecedent) →
      (∀ f ∈ fs, f ∈ s.stack t ∨ CallFits ρ' main f) ∧ fs.IsChain (Fitting ρ') ∧
        ∀ c ∈ s'.queue, c ∈ s.queue ∨ CallableFits ρ' c) : Relabels ρ main s' := by
  obtain ⟨ρ', hρ, hlen', h₁, hreturn, hrun⟩ := h.factory hlen hf hwork hunwrap
  obtain ⟨frames, calls, queue⟩ := rest ρ' hρ hreturn hrun
  have same := hf.sameRest
  refine ⟨ρ', hρ, hlen'.trans next.symm, h₁.move heap next sources stack ?_ calls ?_ ?_⟩
  · exact same.stack ▸ frames
  · exact same.queue ▸ queue
  · exact fun r hr => .inl (emitted ▸ hr)

variable {u : Code V E} {rest : List (Frame (Code V E) V E)}

omit [DecidableEq T] in
/-- The calls below the one on top. -/
theorem Labelled.below (h : Labelled ρ main s) {f : Frame (Code V E) V E}
    (hs : s.stack t = f :: rest) : rest.IsChain (Fitting ρ) := by
  have hc := h.calls t
  rw [hs] at hc
  exact hc.tail

namespace Labelled

/-! ### Steps of user code -/

/-- The code of a callable returns what its payload can hold. -/
theorem relabels_returns (h : Labelled ρ main s) (hlen : ρ.length = s.next) {x : ℕ} {r : Return V E}
    {y : Expected V E} (hs : s.stack t = .user u :: .doWork x :: rest) (hacts : u.Acts (.ret r))
    (hy : outputWrapper r = some y) :
    Relabels ρ main ((s.setResult x y).setStack t (.doCompletion x :: rest)) := by
  have hc := h.calls t
  rw [hs] at hc
  have hans : Answers ρ x u := (List.isChain_cons_cons.1 hc).1
  have hwrite : Labelled ρ main (s.setResult x y) :=
    h.write rfl rfl rfl rfl rfl rfl fun R hR hfits => hfits.setResult (hans.holds hacts hy hR)
  exact hwrite.replaces hlen [_, _] [.doCompletion x] hs rfl rfl rfl rfl rfl
    (List.forall_mem_singleton.2 ⟨trivial, fun _ => trivial⟩) fun _ => .inl

/-- The only thing that code reports is the result of `main`. -/
theorem relabels_emits (h : Labelled ρ main s) (hlen : ρ.length = s.next) {r : Expected V E}
    {k : Code V E} (hs : s.stack t = .user u :: rest) (hacts : u.Acts (.emit r k)) :
    Relabels ρ main ({ s with emitted := s.emitted ++ [r] }.setStack t (.user k :: rest)) := by
  cases hacts
  have hfits : (Code.observe r).Fits ρ main := h.top hs
  have hr : r = main.eval := by
    cases hfits with
    | makes hmakes => exact hmakes.elim
    | observe => rfl
  refine .keep hlen rfl (h.move rfl rfl rfl rfl
    (List.forall_mem_cons.2 ⟨.inr (.ret _), WellFormed.forall_tail_mem_or hs⟩) ?_ (fun c => .inl)
    fun r' hr' => ?_)
  · have hc := h.calls t
    rw [hs] at hc
    refine hc.imp_head fun {g} hg => ?_
    cases g with
    | doWork x =>
      cases hg with
      | observes hx => exact .observed hx rfl
      | returns _ e | throws _ e | observed _ e => cases e
      | program _ hmakes => exact hmakes.elim
    | _ => trivial
  · rcases List.mem_append.1 hr' with hr' | hr'
    · exact .inl hr'
    · exact .inr ((List.mem_singleton.1 hr').trans hr)

/-- A source is constructed for a task that is not run. -/
theorem relabels_constructs (h : Labelled ρ main s) (hlen : ρ.length = s.next) {k : ℕ → Code V E}
    (hs : s.stack t = .user u :: rest) (hacts : u.Acts (.source k)) :
    Relabels ρ main (s.makeSource.setStack t (.user (k s.next) :: rest)) := by
  cases hacts with
  | @source p b as as' purpose r hre hfate hwork =>
    have hρ : ρ <+: ρ ++ [.task b] := List.prefix_append _ _
    have hrole : (ρ ++ [Role.task b])[s.next]? = some (.task b) := by
      rw [← hlen]
      exact List.getElem?_concat_length ..
    have h₁ := h.makeSource hlen hwork
    obtain ⟨hfits, hcalls⟩ := h₁.continues (.complete s.next r as' purpose) hs
      ⟨fun q hq => ⟨b, hrole, hfate, hwork, hre.attach.symm.trans hq⟩, rfl, nofun⟩
    exact ⟨_, hρ, by simp [hlen], h₁.move rfl rfl rfl rfl
      (List.forall_mem_cons.2 ⟨.inr hfits, WellFormed.forall_tail_mem_or hs⟩) hcalls
      (fun c => .inl) fun r => .inl⟩

/-- A source is completed with the result of its task. -/
theorem relabels_completes (h : Labelled ρ main s) (hlen : ρ.length = s.next) {q : ℕ}
    {r : Expected V E} {k : Except RuntimeError Unit → Code V E} (hs : s.stack t = .user u :: rest)
    (hacts : u.Acts (.complete q r k)) :
    Relabels ρ main ((s.setResult q r).setStack t (.doCompletion q :: .completing k :: rest)) := by
  cases hacts with
  | complete _ _ as purpose =>
    have hfits : (Code.complete q r as purpose).Fits ρ main := h.top hs
    obtain ⟨b, hb, hfate⟩ : ∃ b, ρ[q]? = some (.task b) ∧ b.fate = .inl r := by
      cases hfits with
      | makes hmakes =>
        obtain ⟨b, hb, hfate, -⟩ := hmakes
        exact ⟨b, hb, hfate⟩
    have hwrite : Labelled ρ main (s.setResult q r) := by
      refine h.write rfl rfl rfl rfl rfl rfl fun R hR hfits => hfits.setResult ?_
      cases hR.symm.trans hb
      exact (b.eval_of_settled hfate).symm
    obtain ⟨hfits', hcalls⟩ := h.continues (.built q as purpose) hs
      ⟨fun p ⟨b, hb, _, _, hp⟩ => ⟨b, hb, hp⟩, rfl, nofun⟩
    refine .keep hlen rfl (hwrite.move rfl rfl rfl rfl
      (List.forall_mem_cons.2 ⟨.inr trivial, List.forall_mem_cons.2
        ⟨.inr fun _ => hfits', WellFormed.forall_tail_mem_or hs⟩⟩)
      (isChain_cons (fun _ => trivial) (hcalls.imp_head fun {g} hg => ?_)) (fun c => .inl)
      fun r => .inl)
    cases g with
    | doWork => exact fun _ => hg
    | _ => trivial

/-- A task is made, and the thread runs it. -/
theorem relabels_makeTaskInline (h : Labelled ρ main s) (hlen : ρ.length = s.next)
    {cancelled unwrap : Bool} {callable : Code V E} {k : ℕ → Code V E} {toRun toReturn : ℕ}
    (hs : s.stack t = .user u :: rest)
    (hacts : u.Acts (.makeTask .inlineScheduler cancelled unwrap callable k))
    (hf : Factory s (.start cancelled callable) unwrap s₁ toRun toReturn) :
    Relabels ρ main (s₁.setStack t (.run toRun none :: .user (k toReturn) :: rest)) := by
  cases hacts with
  | @makeTask p as as' purpose _ _ _ callable hre =>
    refine h.allocate hlen hf (b := .makeTask .inlineScheduler cancelled unwrap callable) rfl rfl
      rfl rfl rfl rfl rfl fun ρ' hρ hreturn hrun => ?_
    obtain ⟨R, hR, hwork, -⟩ := hrun
    obtain ⟨hfits, hcalls⟩ := (h.mono hρ).continues (.built toReturn as' purpose) hs
      ⟨fun q hq => ⟨_, hreturn, hre.attach.symm.trans hq⟩, rfl, nofun⟩
    exact ⟨List.forall_mem_cons.2 ⟨.inr ⟨R, _, _, hR, hwork⟩,
      List.forall_mem_cons.2 ⟨.inr hfits, WellFormed.forall_tail_mem_or hs⟩⟩,
      isChain_cons (fun _ => trivial) hcalls, fun c hc => .inl (hf.sameRest.queue ▸ hc)⟩

/-- A task is made on a dispatcher. -/
theorem relabels_makeTaskDispatcher (h : Labelled ρ main s) (hlen : ρ.length = s.next)
    {cancelled unwrap : Bool} {callable : Code V E} {k : ℕ → Code V E} {toRun toReturn : ℕ}
    (hs : s.stack t = .user u :: rest)
    (hacts : u.Acts (.makeTask .dispatcher cancelled unwrap callable k))
    (hf : Factory s (.start cancelled callable) unwrap s₁ toRun toReturn) :
    Relabels ρ main ({ s₁ with queue := s₁.queue ++ [(toRun, none)] }.setStack t
      (.user (k toReturn) :: rest)) := by
  cases hacts with
  | @makeTask p as as' purpose _ _ _ callable hre =>
    refine h.allocate hlen hf (b := .makeTask .dispatcher cancelled unwrap callable) rfl rfl
      rfl rfl rfl rfl rfl fun ρ' hρ hreturn hrun => ?_
    obtain ⟨R, hR, hwork, -⟩ := hrun
    obtain ⟨hfits, hcalls⟩ := (h.mono hρ).continues (.built toReturn as' purpose) hs
      ⟨fun q hq => ⟨_, hreturn, hre.attach.symm.trans hq⟩, rfl, nofun⟩
    refine ⟨List.forall_mem_cons.2 ⟨.inr hfits, WellFormed.forall_tail_mem_or hs⟩, hcalls,
      fun c hc => ?_⟩
    rcases List.mem_append.1 hc with hc | hc
    · exact .inl (hf.sameRest.queue ▸ hc)
    · obtain rfl := List.mem_singleton.1 hc
      exact .inr ⟨R, _, _, hR, hwork⟩

/-- The next step of a program is attached to the task of what was built so far. -/
theorem relabels_andThen (h : Labelled ρ main s) (hlen : ρ.length = s.next) {q : ℕ}
    {a : Attachment V E} {as : List (Attachment V E)} {purpose : Purpose} {toRun toReturn : ℕ}
    (hs : s.stack t = .user (.built q (a :: as) purpose) :: rest)
    (hf : Factory s (.continuation a.handlesExpected a.cancelled fun x => (a.callable x).code)
      a.unwrap s₁ toRun toReturn) :
    Relabels ρ main ({ s₁ with registered := toRun :: s₁.registered }.setStack t
      (.addContinuations q [⟨q, toRun, a.scheduler⟩] :: .user (.built toReturn as purpose) ::
        rest)) := by
  have hfits : (Code.built q (a :: as) purpose).Fits ρ main := h.top hs
  obtain ⟨b, hb⟩ : ∃ b, ρ[q]? = some (.task b) := by
    cases hfits with
    | makes hmakes => exact ⟨hmakes.choose, hmakes.choose_spec.1⟩
  refine h.allocate hlen hf (b := b.andThen a) rfl rfl rfl rfl rfl rfl rfl
    fun ρ' hρ hreturn hrun => ?_
  obtain ⟨R, hR, -, hante⟩ := hrun
  have hb' := role_mono hρ hb
  have hreads : Reads ρ' toRun q := .step hR hante hb' (.refl b)
  have hmakes (p : Program V E) (hp : (Code.built q (a :: as) purpose).Makes ρ' p) :
      (Code.built toReturn as purpose).Makes ρ' p := by
    obtain ⟨b', hq, hp⟩ := hp
    cases hq.symm.trans hb'
    exact ⟨_, hreturn, hp⟩
  obtain ⟨hfits', hcalls⟩ := (h.mono hρ).continues (.built toReturn as purpose) hs
    ⟨hmakes, rfl, nofun⟩
  refine ⟨List.forall_mem_cons.2 ⟨.inr ⟨⟨b, hb'⟩, fun c hc => ?_⟩,
    List.forall_mem_cons.2 ⟨.inr hfits', WellFormed.forall_tail_mem_or hs⟩⟩,
    isChain_cons (fun _ => trivial) hcalls, fun c hc => .inl (hf.sameRest.queue ▸ hc)⟩
  obtain rfl := List.mem_singleton.1 hc
  exact hreads

/-- The observer is attached to the task of `main`. -/
theorem relabels_observer (h : Labelled ρ main s) (hlen : ρ.length = s.next) {q : ℕ}
    {scheduler : Scheduler} {toRun toReturn : ℕ}
    (hs : s.stack t = .user (.built q [] (.observed scheduler)) :: rest)
    (hf : Factory s (.continuation true false .observe) false s₁ toRun toReturn) :
    Relabels ρ main ({ s₁ with registered := toRun :: s₁.registered }.setStack t
      (.addContinuations q [⟨q, toRun, scheduler⟩] :: .user (.ret (.value .void)) :: rest)) := by
  have hfits : (Code.built q [] (.observed scheduler)).Fits ρ main := h.top hs
  have hq : ρ[q]? = some (.task main) := by
    cases hfits with
    | makes hmakes hmain =>
      obtain ⟨b, hb, e⟩ := hmakes
      rw [← hmain scheduler rfl, ← e]
      exact hb
  cases hf with
  | plain =>
    have hρ : ρ <+: ρ ++ [.observer main] := List.prefix_append _ _
    have hrole : (ρ ++ [Role.observer main])[s.next]? = some (.observer main) := by
      rw [← hlen]
      exact List.getElem?_concat_length ..
    have h₁ := h.plain hlen (R := .observer main) rfl fun p hp => (Role.observer.inj hp).symm
    have hreads : Reads (ρ ++ [.observer main]) s.next q :=
      .step hrole rfl (role_mono hρ hq) (.refl main)
    refine ⟨_, hρ, by simp [hlen], h₁.move rfl rfl rfl rfl
      (List.forall_mem_cons.2 ⟨.inr ⟨⟨main, role_mono hρ hq⟩, fun c hc => ?_⟩,
        List.forall_mem_cons.2 ⟨.inr (.ret _), WellFormed.forall_tail_mem_or hs⟩⟩)
      (isChain_cons (fun _ => trivial) ?_) (fun c => .inl) fun r => .inl⟩
    · obtain rfl := List.mem_singleton.1 hc
      exact hreads
    · have hc := h₁.calls t
      rw [show _ = _ from hs] at hc
      refine hc.imp_head fun {g} hg => ?_
      cases g with
      | doWork x =>
        cases hg with
        | program _ _ hp => cases hp
        | returns _ e | throws _ e | observes _ e | observed _ e => cases e
      | _ => trivial

/-- User code goes on when `complete` returns or throws. -/
theorem relabels_resumes (h : Labelled ρ main s) (hlen : ρ.length = s.next)
    {k : Except RuntimeError Unit → Code V E} {x : Except RuntimeError Unit}
    (hk : ∀ x, (k x).Fits ρ main) (hbelow : (.completing k :: rest).IsChain (Fitting ρ))
    (hrest : ∀ f ∈ rest, f ∈ s.stack t) :
    Relabels ρ main (s.setStack t (.user (k x) :: rest)) := by
  refine .keep hlen rfl (h.move rfl rfl rfl rfl
    (List.forall_mem_cons.2 ⟨.inr (hk x), fun f hf => .inl (hrest f hf)⟩) ?_ (fun c => .inl)
    fun r => .inl)
  refine hbelow.imp_head fun {g} hg => ?_
  cases g with
  | doWork x => exact hg _
  | _ => trivial

/-! ### Steps of payloads that are run -/

/-- A payload gets the result that its role says, without its callable. -/
theorem relabels_decides (h : Labelled ρ main s) (hw : WellFormed s) (hlen : ρ.length = s.next)
    {x : ℕ} {parent : Option ℕ} {r : Expected V E} (hs : s.stack t = .run x parent :: rest)
    (hinput : WorkInput s x parent s₁ (.inl r)) :
    Relabels ρ main ((s₁.setResult x r).setStack t (.doCompletion x :: rest)) := by
  obtain ⟨R, hR, -, hfate⟩ := h.of_input hw hs hinput
  have h₁ := h.read hinput
  have hwrite : Labelled ρ main (s₁.setResult x r) := by
    refine h₁.write rfl rfl rfl rfl rfl rfl fun R' hR' hfits => hfits.setResult ?_
    cases hR.symm.trans hR'
    exact R.holds_of_settled hfate
  have hs₁ : (s₁.setResult x r).stack t = .run x parent :: rest := hinput.sameRest.stack ▸ hs
  exact hwrite.replaces (hlen.trans hinput.heap_next.2.symm) [_] [.doCompletion x] hs₁
    rfl rfl rfl rfl rfl (List.forall_mem_singleton.2 ⟨trivial, fun _ => trivial⟩) fun _ => .inl

/-- A payload invokes the callable that its role says. -/
theorem relabels_invokes (h : Labelled ρ main s) (hw : WellFormed s) (hlen : ρ.length = s.next)
    {x : ℕ} {parent : Option ℕ} (hs : s.stack t = .run x parent :: rest)
    (hinput : WorkInput s x parent s₁ (.inr u)) :
    Relabels ρ main ({ s₁ with invoked := x :: s₁.invoked }.setStack t
      (.user u :: .doWork x :: rest)) := by
  have hx := (hw.top hs).1
  obtain ⟨R, hR, hfits, hfate⟩ := h.of_input hw hs hinput
  have hans : Answers ρ x u := R.answers_of_invoked hR (hfits.work ▸ hx.work) hfate
  have h₁ := h.read hinput
  have same := hinput.sameRest
  refine .keep hlen hinput.heap_next.2 (h₁.move rfl rfl rfl rfl
    (List.forall_mem_cons.2 ⟨.inr ?_, List.forall_mem_cons.2 ⟨.inr trivial, ?_⟩⟩)
    (.cons_cons hans (isChain_cons (fun g => ?_) (h.below hs))) (fun c => .inl) fun r => .inl)
  · exact R.fits_of_invoked hfate fun p hp => h.observers x hx.lt p (hp ▸ hR)
  · rw [same.stack]
    exact WellFormed.forall_tail_mem_or hs
  · cases g <;> trivial

/-- The continuation of `task_factory` reads an error, which is that of the program. -/
theorem relabels_unwrapsError (h : Labelled ρ main s) (hw : WellFormed s) (hlen : ρ.length = s.next)
    {l q source : ℕ} {e : E} (hs : s.stack t = .run l (some q) :: rest)
    (hwork : (s.heap l).work = some (.unwrap source)) (hr : (s.heap q).result = some (.error e)) :
    Relabels ρ main (((s.read q l (.error e)).setResult source (.error e)).setStack t
      (.doCompletion source :: .unwrapping l :: rest)) := by
  have hl := h.role_link (hw.top hs).1.lt hwork
  obtain ⟨p, hp, hq, hsource, -⟩ := Reads.of_link (h.top hs) hl
  have hholds : _ = _ := (h.fits ((hw.top hs).2 q rfl).lt hq).result _ hr
  have hwrite : Labelled ρ main ((s.read q l (.error e)).setResult source (.error e)) := by
    refine h.write rfl rfl rfl rfl rfl rfl fun R hR hfits => hfits.setResult ?_
    cases hR.symm.trans hsource
    exact hholds.symm
  exact hwrite.replaces hlen [_] [.doCompletion source, .unwrapping l] hs rfl rfl rfl rfl rfl
    (List.forall_mem_cons.2 ⟨⟨trivial, fun _ => trivial⟩,
      List.forall_mem_singleton.2 ⟨⟨source, hl⟩, fun _ => trivial⟩⟩) fun _ => .inl

/-- The continuation of `task_factory` reads a task, which is one that the program comes down to. -/
theorem relabels_unwrapsTask (h : Labelled ρ main s) (hw : WellFormed s) (hlen : ρ.length = s.next)
    {l q source r : ℕ} (hs : s.stack t = .run l (some q) :: rest)
    (hwork : (s.heap l).work = some (.unwrap source))
    (hr : (s.heap q).result = some (.ok (.task r))) :
    Relabels ρ main ((s.read q l (.ok (.task r))).setStack t
      (.collapseLeftIntoRight source r :: .unwrapping l :: rest)) := by
  have hl := h.role_link (hw.top hs).1.lt hwork
  obtain ⟨p, hp, hq, hsource, -⟩ := Reads.of_link (h.top hs) hl
  obtain ⟨p', hr', hunfolds⟩ := (h.fits ((hw.top hs).2 q rfl).lt hq).result _ hr
  exact h.replaces hlen [_] [.collapseLeftIntoRight source r, .unwrapping l] hs rfl rfl rfl rfl rfl
    (List.forall_mem_cons.2 ⟨⟨⟨p, p', hsource, hr', hunfolds⟩, fun _ => trivial⟩,
      List.forall_mem_singleton.2 ⟨⟨source, hl⟩, fun _ => trivial⟩⟩) fun _ => .inl

/-- The continuation of `task_factory` is completed, whatever it holds. -/
theorem relabels_unwrapped (h : Labelled ρ main s) (hlen : ρ.length = s.next) {l : ℕ}
    (hs : s.stack t = .unwrapping l :: rest) :
    Relabels ρ main ((s.setResult l (.ok .void)).setStack t (.doCompletion l :: rest)) := by
  obtain ⟨source, hl⟩ : ∃ source, ρ[l]? = some (.link source) := h.top hs
  have hwrite : Labelled ρ main (s.setResult l (.ok .void)) := by
    refine h.write rfl rfl rfl rfl rfl rfl fun R hR hfits => hfits.setResult ?_
    cases hR.symm.trans hl
    trivial
  exact hwrite.replaces hlen [_] [.doCompletion l] hs rfl rfl rfl rfl rfl
    (List.forall_mem_singleton.2 ⟨trivial, fun _ => trivial⟩) fun _ => .inl

/-! ### Steps of continuations -/

/-- The continuations of a payload that is completed read its result. -/
theorem relabels_completesPayload (h : Labelled ρ main s) (hw : WellFormed s)
    (hlen : ρ.length = s.next) {p : ℕ} (hs : s.stack t = .doCompletion p :: rest) :
    Relabels ρ main ((s.setPayload p ((s.heap p).cannibalized none)).setStack t
      (.runAll (s.heap p).continuation.span :: rest)) := by
  obtain ⟨R, hR, hfits⟩ := h.payload p (hw.top hs).1
  have hwrite : Labelled ρ main (s.setPayload p ((s.heap p).cannibalized none)) :=
    h.write rfl rfl rfl rfl rfl rfl fun R hR hfits => hfits.cannibalized nofun
  refine hwrite.replaces hlen [_] [.runAll _] hs rfl rfl rfl rfl rfl
    (List.forall_mem_singleton.2 ⟨fun c hc => ?_, fun _ => trivial⟩) fun _ => .inl
  rw [((hw.payload p).stored c hc).2.1]
  exact hfits.stored c hc

/-- Continuations that are forwarded read the result of a program that stands for theirs. -/
theorem relabels_collapses (h : Labelled ρ main s) (hw : WellFormed s) (hlen : ρ.length = s.next)
    {left right : ℕ} (hs : s.stack t = .collapseLeftIntoRight left right :: rest) :
    Relabels ρ main ((s.setPayload left ((s.heap left).cannibalized (some right))).setStack t
      (.addContinuations right
        ((s.heap left).continuation.span.map (·.reparent right)) :: rest)) := by
  obtain ⟨p, p', hp, hp', hunfolds⟩ := h.top hs
  have hfits := h.fits (hw.top hs).1 hp
  have hwrite : Labelled ρ main (s.setPayload left ((s.heap left).cannibalized (some right))) := by
    refine h.write rfl rfl rfl rfl rfl rfl fun R hR hfits => hfits.cannibalized fun r hr => ?_
    cases hr
    cases hR.symm.trans hp
    exact ⟨p, p', rfl, hp', hunfolds⟩
  refine hwrite.replaces hlen [_] [.addContinuations right _] hs rfl rfl rfl rfl rfl
    (List.forall_mem_singleton.2 ⟨⟨⟨p', hp'⟩, fun c hc => ?_⟩, fun _ => trivial⟩) fun _ => .inl
  obtain ⟨c, hc', rfl⟩ := List.mem_map.1 hc
  exact (hfits.stored c hc').forward hp hp' hunfolds

/-- Continuations that go along a redirect. -/
theorem relabels_addsAlong (h : Labelled ρ main s) (hw : WellFormed s) (hlen : ρ.length = s.next)
    {p q : ℕ} {cs : List Continuation} (hs : s.stack t = .addContinuations p cs :: rest)
    (hr : (s.heap p).taskRedirect = some q) :
    Relabels ρ main (s.setStack t
      (.addContinuations q (cs.map (·.reparent q)) :: .holding p :: rest)) := by
  obtain ⟨⟨b, hb⟩, hreads⟩ := h.top hs
  obtain ⟨p₀, p', hR, hq, hunfolds⟩ := (h.fits (hw.top hs).1 hb).redirect q hr
  cases hR
  refine h.replaces hlen [_] [.addContinuations q _, .holding p] hs rfl rfl rfl rfl rfl
    (List.forall_mem_cons.2 ⟨⟨⟨⟨p', hq⟩, fun c hc => ?_⟩, fun _ => trivial⟩,
      List.forall_mem_singleton.2 ⟨trivial, fun _ => trivial⟩⟩) fun _ => .inl
  obtain ⟨c, hc', rfl⟩ := List.mem_map.1 hc
  exact (hreads c hc').forward hb hq hunfolds

/-- The first of the continuations is queued. -/
theorem relabels_handsDispatcher (h : Labelled ρ main s) (hlen : ρ.length = s.next)
    {c : Continuation} {cs : List Continuation} (hs : s.stack t = .runAll (c :: cs) :: rest) :
    Relabels ρ main ({ s with
      handed := c.continuation :: s.handed
      queue := s.queue ++ [(c.continuation, some c.parent)] }.setStack t
        (.runAll cs :: rest)) := by
  obtain ⟨hc, hcs⟩ := List.forall_mem_cons.1 (h.top hs)
  refine h.replaces hlen [_] [.runAll cs] hs rfl rfl rfl rfl rfl
    (List.forall_mem_singleton.2 ⟨hcs, fun _ => trivial⟩) fun c' hc' => ?_
  rcases List.mem_append.1 hc' with hc' | hc'
  · exact .inl hc'
  · obtain rfl := List.mem_singleton.1 hc'
    exact .inr hc

/-- **Every step keeps the roles, and gives some to what it allocates.** -/
theorem step [Fintype T] (h : Labelled ρ main s) (hw : WellFormed s) (hlen : ρ.length = s.next)
    (hstep : Step Code.act s t () s') : Relabels ρ main s' := by
  cases hstep with
  | @idle i p parent hs hq =>
    have hc := h.queue _ (List.mem_of_getElem? hq)
    refine .keep hlen rfl (h.move rfl rfl rfl rfl (fun f hf => ?_) (.singleton _)
      (fun c hc => .inl (List.mem_of_mem_eraseIdx hc)) fun r => .inl)
    obtain rfl := List.mem_singleton.1 hf
    exact .inr hc
  | mainReturns =>
    exact .keep hlen rfl (h.move rfl rfl rfl rfl nofun .nil (fun c => .inl) fun r => .inl)
  | @returns u _ _ _ _ hs ha hy => exact h.relabels_returns hlen hs (ha ▸ u.acts) hy
  | @emits u _ _ _ hs ha => exact h.relabels_emits hlen hs (ha ▸ u.acts)
  | @constructs u _ _ hs ha => exact h.relabels_constructs hlen hs (ha ▸ u.acts)
  | @completes u _ _ _ _ hs ha => exact h.relabels_completes hlen hs (ha ▸ u.acts)
  | @makeTaskInline u _ _ _ _ _ _ _ _ hs ha hf =>
    exact h.relabels_makeTaskInline hlen hs (ha ▸ u.acts) hf
  | @makeTaskDispatcher u _ _ _ _ _ _ _ _ hs ha hf =>
    exact h.relabels_makeTaskDispatcher hlen hs (ha ▸ u.acts) hf
  | @thenDo u rest q scheduler cancelled handlesExpected unwrap callable k _ _ _ hs ha _ hf =>
    have hacts : u.Acts (.thenDo q scheduler cancelled handlesExpected unwrap callable k) :=
      ha ▸ u.acts
    cases hacts with
    | thenDo => exact h.relabels_andThen hlen hs hf
    | observer => exact h.relabels_observer hlen hs hf
  | ticksNothing _ ha | ticks _ ha => exact absurd ha (Code.act_ne_tick _ _ _)
  | completed hs =>
    exact h.relabels_resumes hlen (h.top hs) (hs ▸ h.calls t) fun f hf => by simp [hs, hf]
  | refuses hs =>
    exact h.relabels_resumes hlen (h.frames t (.completing _) (by simp [hs])) (h.below hs)
      fun f hf => by simp [hs, hf]
  | runBare hs hwork => exact absurd hwork (hw.top hs).1.work
  | decides hs hinput => exact h.relabels_decides hw hlen hs hinput
  | invokes hs hinput => exact h.relabels_invokes hw hlen hs hinput
  | unwrapsError hs hwork hr => exact h.relabels_unwrapsError hw hlen hs hwork hr
  | unwrapsTask hs hwork hr => exact h.relabels_unwrapsTask hw hlen hs hwork hr
  | unwrapped hs => exact h.relabels_unwrapped hlen hs
  | completesPayload hs => exact h.relabels_completesPayload hw hlen hs
  | ranAll hs | addsNothing hs | unlocks hs =>
    exact h.replaces hlen [_] [] hs rfl rfl rfl rfl rfl nofun fun _ => .inl
  | @handsInline c cs rest hs =>
    obtain ⟨hc, hcs⟩ := List.forall_mem_cons.1 (h.top hs)
    exact h.replaces hlen [_] [.run c.continuation (some c.parent), .runAll cs] hs rfl rfl rfl rfl
      rfl (List.forall_mem_cons.2 ⟨⟨hc, fun _ => trivial⟩,
        List.forall_mem_singleton.2 ⟨hcs, fun _ => trivial⟩⟩) fun _ => .inl
  | handsDispatcher hs => exact h.relabels_handsDispatcher hlen hs
  | collapses hs => exact h.relabels_collapses hw hlen hs
  | addsAlong hs _ _ hr => exact h.relabels_addsAlong hw hlen hs hr
  | @addsLate p cs rest hs =>
    obtain ⟨-, hreads⟩ := h.top hs
    refine h.replaces hlen [_] [.runAll cs] hs rfl rfl rfl rfl rfl
      (List.forall_mem_singleton.2 ⟨fun c hc => ?_, fun _ => trivial⟩) fun _ => .inl
    rw [((hw.top hs).2 c hc).1]
    exact hreads c hc
  | @stores p cs rest hs =>
    obtain ⟨-, hreads⟩ := h.top hs
    have hwrite : Labelled ρ main
        (s.setPayload p { s.heap p with continuation := (s.heap p).continuation.append cs }) :=
      h.write rfl rfl rfl rfl rfl rfl fun R hR hfits => hfits.store hreads
    exact hwrite.replaces hlen [_] [] hs rfl rfl rfl rfl rfl nofun fun _ => .inl

end Labelled

end Arcana.Programs
