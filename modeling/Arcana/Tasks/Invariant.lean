import Arcana.Tasks.Rules

/-!
# Well-formed states

What every reachable state of the task machine satisfies, whatever the user code does. A step only
extends the heap (`Step.extends`): a payload keeps its work, stays completed once it is, keeps its
forwarding address from then on, and keeps a result. The facts about the calls under way and about
the queued callables are stable under such extensions, so that a step has to establish them only for
the frames it pushes. `WellFormed` collects them; the main consequence is that a continuation is run
only when its parent is done: completed, not redirected, and with a result (`State.Done`).

* `Payload.Extends` and `State.Extends` say what stays, and `Step.extends` that every step keeps it.
* `State.Done`, `State.Runnable`, `Frame.Ok` and `Payload.Ok` are the facts that the invariant is
  made of; each has a lemma that it is stable under extensions.
* `WellFormed.next`, `WellFormed.move`, `WellFormed.write` and `WellFormed.allocate` say what is
  left to show of a step, by what it changes.
* `WellFormed.step_returns`, `WellFormed.step_collapses` and so on show it, one lemma for each rule
  that is not immediate.
* `WellFormed.step` puts these together.
-/

namespace Arcana.Tasks

open Function Foundations

variable {T O U V E : Type*}

/-! ## Steps extend the heap -/

/-- What stays of a payload: its work, its completion with the forwarding address, and that it has
a result. -/
structure Payload.Extends (x x' : Payload U V E) : Prop where
  work : x'.work = x.work
  completed : x.completed = true → x'.completed = true ∧ x'.taskRedirect = x.taskRedirect
  result : x.result.isSome = true → x'.result.isSome = true

theorem Payload.Extends.refl (x : Payload U V E) : x.Extends x := ⟨rfl, fun h => ⟨h, rfl⟩, id⟩

/-- The state `s'` extends the heap of `s`. -/
structure State.Extends (s s' : State T U V E) : Prop where
  next_le : s.next ≤ s'.next
  payload : ∀ p < s.next, (s.heap p).Extends (s'.heap p)

theorem State.Extends.of_heap_eq {s s' : State T U V E} (hh : s'.heap = s.heap)
    (hn : s'.next = s.next) : s.Extends s' :=
  ⟨hn.ge, fun p _ => by rw [hh]; exact .refl _⟩

theorem State.Extends.setPayload {s s' : State T U V E} {p : ℕ} {x : Payload U V E}
    (hh : s'.heap = update s.heap p x) (hn : s'.next = s.next) (hx : (s.heap p).Extends x) :
    s.Extends s' := by
  refine ⟨hn.ge, fun q _ => ?_⟩
  rw [hh, update_apply]
  split
  · rename_i e
    rw [e]
    exact hx
  · exact .refl _

/-- Allocation only writes to fresh addresses. -/
theorem State.Extends.alloc {s s' : State T U V E} (hn : s.next ≤ s'.next)
    (hh : ∀ p < s.next, s'.heap p = s.heap p) : s.Extends s' :=
  ⟨hn, fun p hp => by rw [hh p hp]; exact .refl _⟩

/-- Allocation leaves the payloads there are alone. -/
theorem Factory.heap_of_lt {s s₁ : State T U V E} {work : Work U V E} {unwrap : Bool}
    {toRun toReturn : ℕ}
    (h : Factory s work unwrap s₁ toRun toReturn) {p : ℕ} (hp : p < s.next) :
    s₁.heap p = s.heap p := by
  cases h with
  | plain => exact update_of_ne (by omega) ..
  | unwrap =>
    show update _ _ _ p = _
    rw [update_of_ne (by omega), update_of_ne (by omega), update_of_ne (by omega)]

theorem Factory.toRun_eq {s s₁ : State T U V E} {work : Work U V E} {unwrap : Bool}
    {toRun toReturn : ℕ} (hf : Factory s work unwrap s₁ toRun toReturn) : toRun = s.next := by
  cases hf with
  | plain | unwrap => rfl

theorem Factory.extends {s s₁ : State T U V E} {work : Work U V E} {unwrap : Bool}
    {toRun toReturn : ℕ} (h : Factory s work unwrap s₁ toRun toReturn) : s.Extends s₁ := by
  refine .alloc ?_ fun p hp => h.heap_of_lt hp
  cases h with
  | plain => exact Nat.le_succ _
  | unwrap => exact Nat.le_add_right _ 3

/-- The two states differ at most in the heap and in what is registered and read. -/
structure State.SameRest (s s' : State T U V E) : Prop where
  stack : s'.stack = s.stack
  queue : s'.queue = s.queue
  sources : s'.sources = s.sources
  handed : s'.handed = s.handed
  invoked : s'.invoked = s.invoked
  emitted : s'.emitted = s.emitted

theorem Factory.sameRest {s s₁ : State T U V E} {work : Work U V E} {unwrap : Bool}
    {toRun toReturn : ℕ} (h : Factory s work unwrap s₁ toRun toReturn) : s.SameRest s₁ := by
  cases h <;> exact ⟨rfl, rfl, rfl, rfl, rfl, rfl⟩

theorem Factory.reads {s s₁ : State T U V E} {work : Work U V E} {unwrap : Bool}
    {toRun toReturn : ℕ} (h : Factory s work unwrap s₁ toRun toReturn) : s₁.reads = s.reads := by
  cases h <;> rfl

theorem WorkInput.sameRest [ErrorTraits E] {s s₁ : State T U V E} {p : ℕ} {parent : Option ℕ}
    {x : Expected V E ⊕ U} (h : WorkInput s p parent s₁ x) : s.SameRest s₁ := by
  cases h <;> exact ⟨rfl, rfl, rfl, rfl, rfl, rfl⟩

theorem WorkInput.registered [ErrorTraits E] {s s₁ : State T U V E} {p : ℕ} {parent : Option ℕ}
    {x : Expected V E ⊕ U} (h : WorkInput s p parent s₁ x) : s₁.registered = s.registered := by
  cases h <;> rfl

theorem WorkInput.heap_next [ErrorTraits E] {s s₁ : State T U V E} {p : ℕ} {parent : Option ℕ}
    {x : Expected V E ⊕ U} (h : WorkInput s p parent s₁ x) :
    s₁.heap = s.heap ∧ s₁.next = s.next := by
  cases h <;> exact ⟨rfl, rfl⟩

theorem Payload.Extends.setResult (x : Payload U V E) (r : Expected V E) :
    x.Extends { x with result := some r } := ⟨rfl, fun h => ⟨h, rfl⟩, fun _ => rfl⟩

theorem Payload.Extends.cannibalized {x : Payload U V E} (h : x.completed = false)
    (q : Option ℕ) : x.Extends (x.cannibalized q) where
  work := rfl
  completed h' := by rw [h] at h'; cases h'
  result := id

theorem Payload.Extends.store (x : Payload U V E) (st : ContinuationStorage) :
    x.Extends { x with continuation := st } := ⟨rfl, fun h => ⟨h, rfl⟩, id⟩

section

variable [DecidableEq T] [Fintype T] [ErrorTraits E] {act : U → O → Action U V E}
  {s s' : State T U V E} {t : T} {o : O}

/-- **Every step extends the heap.** -/
theorem Step.extends (h : Step act s t o s') : s.Extends s' := by
  cases h with
  | idle | mainReturns | emits | ticksNothing | ticks | completed | runBare | refuses | ranAll
  | handsInline | handsDispatcher | addsNothing | addsAlong | addsLate | unlocks | unwrapsTask =>
    exact .of_heap_eq rfl rfl
  | returns | completes | unwrapsError | unwrapped =>
    exact .setPayload rfl rfl (.setResult _ _)
  | decides _ hw =>
    obtain ⟨hh, hn⟩ := hw.heap_next
    refine .setPayload (p := _) (x := _) (by show update _ _ _ = _; rw [hh]) hn (.setResult _ _)
  | invokes _ hw =>
    obtain ⟨hh, hn⟩ := hw.heap_next
    exact .of_heap_eq hh hn
  | constructs => exact .alloc (Nat.le_succ _) fun p hp => update_of_ne (by omega) ..
  | makeTaskInline _ _ hf | makeTaskDispatcher _ _ hf | thenDo _ _ _ hf =>
    exact ⟨hf.extends.next_le, hf.extends.payload⟩
  | completesPayload _ _ hc | collapses _ _ hc =>
    exact .setPayload rfl rfl (.cannibalized hc _)
  | stores => exact .setPayload rfl rfl (.store _ _)

end

/-! ## Well-formed states -/

namespace State

/-- The payload is completed, not redirected, and holds a result. -/
structure Done (s : State T U V E) (p : ℕ) : Prop where
  lt : p < s.next
  completed : (s.heap p).completed = true
  redirect : (s.heap p).taskRedirect = none
  result : (s.heap p).result.isSome = true

/-- The payload has work to run. -/
structure Runnable (s : State T U V E) (p : ℕ) : Prop where
  lt : p < s.next
  work : (s.heap p).work ≠ none

/-- A callable that runs `c.1`: its parent, if it has one, is done. -/
def CallableOk (s : State T U V E) (c : ℕ × Option ℕ) : Prop :=
  s.Runnable c.1 ∧ ∀ q, c.2 = some q → s.Done q

variable {s s' : State T U V E} {p : ℕ}

theorem Done.mono (he : s.Extends s') (h : s.Done p) : s'.Done p where
  lt := h.lt.trans_le he.next_le
  completed := ((he.payload p h.lt).completed h.completed).1
  redirect := ((he.payload p h.lt).completed h.completed).2.trans h.redirect
  result := (he.payload p h.lt).result h.result

theorem Runnable.mono (he : s.Extends s') (h : s.Runnable p) : s'.Runnable p where
  lt := h.lt.trans_le he.next_le
  work := by
    rw [(he.payload p h.lt).work]
    exact h.work

theorem CallableOk.mono {c : ℕ × Option ℕ} (he : s.Extends s') (h : s.CallableOk c) :
    s'.CallableOk c :=
  ⟨h.1.mono he, fun q hq => (h.2 q hq).mono he⟩

end State

/-- What holds of a call under way. -/
def Frame.Ok (s : State T U V E) : Frame U V E → Prop
  | .user _ | .completing _ => True
  | .run p parent => s.CallableOk (p, parent)
  | .doWork p | .unwrapping p => s.Runnable p
  | .doCompletion p => p < s.next ∧ (s.heap p).result.isSome = true
  | .runAll cs => ∀ c ∈ cs, s.Runnable c.continuation ∧ s.Done c.parent
  | .collapseLeftIntoRight left right => left < s.next ∧ right < s.next
  | .addContinuations p cs => p < s.next ∧ ∀ c ∈ cs, c.parent = p ∧ s.Runnable c.continuation
  | .holding p => p < s.next

theorem Frame.Ok.mono {s s' : State T U V E} (he : s.Extends s') {f : Frame U V E} (h : f.Ok s) :
    f.Ok s' := by
  cases f with
  | user | completing => trivial
  | run => exact State.CallableOk.mono he h
  | doWork | unwrapping => exact State.Runnable.mono he h
  | doCompletion p => exact ⟨h.1.trans_le he.next_le, (he.payload p h.1).result h.2⟩
  | runAll => exact fun c hc => ⟨(h c hc).1.mono he, (h c hc).2.mono he⟩
  | collapseLeftIntoRight => exact ⟨h.1.trans_le he.next_le, h.2.trans_le he.next_le⟩
  | addContinuations =>
    exact ⟨h.1.trans_le he.next_le, fun c hc => ⟨(h.2 c hc).1, (h.2 c hc).2.mono he⟩⟩
  | holding => exact h.trans_le he.next_le

/-- What holds of the payload `x` at the address `p`: only a completed payload is redirected, a
completed payload that is not has a result, and only a payload that is not completed stores
continuations, whose parent it is. -/
structure Payload.Ok (s : State T U V E) (p : ℕ) (x : Payload U V E) : Prop where
  redirect : ∀ q, x.taskRedirect = some q → x.completed = true ∧ q < s.next
  engaged : x.completed = true → x.taskRedirect = none → x.result.isSome = true
  stored : ∀ c ∈ x.continuation.span,
    x.completed = false ∧ c.parent = p ∧ s.Runnable c.continuation
  unwraps : ∀ source, x.work = some (.unwrap source) → source < s.next

theorem Payload.Ok.mono {s s' : State T U V E} (he : s.Extends s') {p : ℕ} {x : Payload U V E}
    (h : x.Ok s p) : x.Ok s' p where
  redirect q hq := ⟨(h.redirect q hq).1, (h.redirect q hq).2.trans_le he.next_le⟩
  engaged := h.engaged
  stored c hc := ⟨(h.stored c hc).1, (h.stored c hc).2.1, (h.stored c hc).2.2.mono he⟩
  unwraps source hw := (h.unwraps source hw).trans_le he.next_le

/-- A payload without continuations that nothing has happened to. -/
theorem Payload.Ok.fresh {s : State T U V E} {p : ℕ} {x : Payload U V E} (hc : x.completed = false)
    (hr : x.taskRedirect = none) (hs : x.continuation.span = [])
    (hw : ∀ source, x.work = some (.unwrap source) → source < s.next) : x.Ok s p where
  redirect q hq := by rw [hr] at hq; cases hq
  engaged h := by rw [hc] at h; cases h
  stored c h := by rw [hs] at h; cases h
  unwraps := hw

namespace Payload.Ok

variable {s : State T U V E} {x : Payload U V E} {p : ℕ}

theorem setResult (h : x.Ok s p) (r : Expected V E) :
    Payload.Ok s p { x with result := some r } where
  redirect := h.redirect
  engaged _ _ := rfl
  stored := h.stored
  unwraps := h.unwraps

theorem cannibalized (h : x.Ok s p) {q : Option ℕ} (hq : ∀ r, q = some r → r < s.next)
    (hr : q = none → x.result.isSome = true) : (x.cannibalized q).Ok s p where
  redirect r hr := ⟨rfl, hq r hr⟩
  engaged _ hn := hr hn
  stored c hc := by simp [Payload.cannibalized] at hc
  unwraps := h.unwraps

theorem store (h : x.Ok s p) (hx : x.completed = false) {cs : List Continuation}
    (hcs : ∀ c ∈ cs, c.parent = p ∧ s.Runnable c.continuation) :
    Payload.Ok s p { x with continuation := x.continuation.append cs } where
  redirect := h.redirect
  engaged := h.engaged
  stored c hc := by
    rw [ContinuationStorage.span_append, List.mem_append] at hc
    exact hc.elim (h.stored c) fun hc => ⟨hx, hcs c hc⟩
  unwraps := h.unwraps

end Payload.Ok

/-- **The invariant of the task machine.** -/
structure WellFormed (s : State T U V E) : Prop where
  blank : ∀ p, s.next ≤ p → s.heap p = {}
  sources : ∀ p ∈ s.sources, p < s.next
  payload : ∀ p, (s.heap p).Ok s p
  frames : ∀ t, ∀ f ∈ s.stack t, f.Ok s
  queue : ∀ c ∈ s.queue, s.CallableOk c

namespace WellFormed

theorem init (main : T → U) : WellFormed (init main : State T U V E) where
  blank _ _ := rfl
  sources _ h := by cases h
  payload _ := .fresh rfl rfl rfl fun _ h => by cases h
  frames t f hf := by
    obtain rfl := List.mem_singleton.1 hf
    trivial
  queue _ h := by cases h

section

variable [DecidableEq T] {s s' : State T U V E} {t : T} {fs : List (Frame U V E)}

/-- What a step has to establish: the facts about what it wrote, pushed and queued. -/
theorem next (h : WellFormed s) (he : s.Extends s') (blank : ∀ p, s'.next ≤ p → s'.heap p = {})
    (sources : ∀ p ∈ s'.sources, p < s'.next)
    (payload : ∀ p, s'.heap p = s.heap p ∨ (s'.heap p).Ok s' p)
    (stack : s'.stack = update s.stack t fs) (frames : ∀ f ∈ fs, f ∈ s.stack t ∨ f.Ok s')
    (queue : ∀ c ∈ s'.queue, c ∈ s.queue ∨ s'.CallableOk c) : WellFormed s' where
  blank := blank
  sources := sources
  payload p := (payload p).elim (fun hp => hp ▸ (h.payload p).mono he) id
  frames t' f hf := by
    rw [stack, update_apply] at hf
    split at hf
    · exact (frames f hf).elim (fun hf => (h.frames _ f hf).mono he) id
    · exact (h.frames _ f hf).mono he
  queue c hc := (queue c hc).elim (fun hc => (h.queue c hc).mono he) id

/-- A step that leaves the heap alone. -/
theorem move (h : WellFormed s) (heap : s'.heap = s.heap) (hnext : s'.next = s.next)
    (sources : s'.sources = s.sources) (stack : s'.stack = update s.stack t fs)
    (frames : ∀ f ∈ fs, f ∈ s.stack t ∨ f.Ok s)
    (queue : ∀ c ∈ s'.queue, c ∈ s.queue ∨ s.CallableOk c) : WellFormed s' :=
  have he : s.Extends s' := .of_heap_eq heap hnext
  h.next he (fun p hp => by rw [heap]; exact h.blank p (hnext ▸ hp))
    (fun p hp => by rw [hnext]; exact h.sources p (sources ▸ hp)) (fun p => .inl (by rw [heap]))
    stack (fun f hf => (frames f hf).imp_right (.mono he))
    fun c hc => (queue c hc).imp_right (.mono he)

/-- A step that writes one payload. -/
theorem write (h : WellFormed s) {p : ℕ} {x : Payload U V E} (hp : p < s.next)
    (heap : s'.heap = update s.heap p x) (hnext : s'.next = s.next)
    (sources : s'.sources = s.sources) (hx : (s.heap p).Extends x) (hok : x.Ok s p)
    (stack : s'.stack = update s.stack t fs) (frames : ∀ f ∈ fs, f ∈ s.stack t ∨ f.Ok s')
    (queue : s'.queue = s.queue) : WellFormed s' := by
  have he : s.Extends s' := .setPayload heap hnext hx
  refine h.next he (fun q hq => ?_) (fun q hq => ?_) (fun q => ?_) stack frames
    fun c hc => .inl (queue ▸ hc)
  · rw [hnext] at hq
    rw [heap, update_of_ne (by omega)]
    exact h.blank q hq
  · rw [hnext]
    exact h.sources q (sources ▸ hq)
  · rw [heap, update_apply]
    split
    · rename_i e
      subst e
      exact .inr (hok.mono he)
    · exact .inl rfl

end

/-- The frames under the top of the stack were there before. -/
theorem forall_tail_mem_or {α : Type*} {f : α} {rest l : List α} {P : α → Prop}
    (h : l = f :: rest) : ∀ g ∈ rest, g ∈ l ∨ P g :=
  fun g hg => .inl (by rw [h]; exact .tail _ hg)

end WellFormed

/-! ## Every step keeps the invariant -/

/-- Allocation keeps the facts about payloads, and the payload to run has work. -/
theorem Factory.ok {s s₁ : State T U V E} {work : Work U V E} {unwrap : Bool} {toRun toReturn : ℕ}
    (hf : Factory s work unwrap s₁ toRun toReturn) (h : WellFormed s)
    (hw : ∀ source, work ≠ .unwrap source) :
    (∀ p, s₁.next ≤ p → s₁.heap p = {}) ∧ (∀ p, s₁.heap p = s.heap p ∨ (s₁.heap p).Ok s₁ p) ∧
      s₁.Runnable toRun := by
  cases hf with
  | plain =>
    refine ⟨fun p hp => ?_, fun p => ?_, Nat.lt_succ_self _, by simp⟩
    · simp only at hp ⊢
      rw [update_of_ne (by omega)]
      exact h.blank p (by omega)
    · simp only [update_apply]
      split
      · exact .inr (.fresh rfl rfl rfl fun source e => absurd (Option.some.inj e) (hw source))
      · exact .inl rfl
  | unwrap =>
    refine ⟨fun p hp => ?_, fun p => ?_, by simp only; omega, ?_⟩
    · simp only at hp ⊢
      rw [update_of_ne (by omega), update_of_ne (by omega), update_of_ne (by omega)]
      exact h.blank p (by omega)
    · simp only [update_apply]
      split_ifs with h₂ h₁ h₀
      · refine .inr (.fresh rfl rfl rfl fun source e => ?_)
        cases e
        simp only
        omega
      · exact .inr (.fresh rfl rfl rfl nofun)
      · refine .inr ⟨nofun, nofun, fun c hc => ?_,
          fun source e => absurd (Option.some.inj e) (hw source)⟩
        obtain rfl := List.mem_singleton.1 hc
        exact ⟨rfl, h₀.symm, by simp only; omega, by simp⟩
      · exact .inl rfl
    · simp only
      rw [update_of_ne (by omega), update_of_ne (by omega), update_self]
      simp

section

variable {s s' : State T U V E} {t : T} {o : O}

theorem WellFormed.top {f : Frame U V E} {rest : List (Frame U V E)} (h : WellFormed s)
    (hs : s.stack t = f :: rest) : f.Ok s :=
  h.frames t f (by rw [hs]; exact .head _)

theorem WellFormed.callable {i : ℕ} {c : ℕ × Option ℕ} (h : WellFormed s)
    (hq : s.queue[i]? = some c) : s.CallableOk c :=
  h.queue c (List.mem_of_getElem? hq)

variable [DecidableEq T]

/-- A step that allocates with `makeTaskFactory`. -/
theorem WellFormed.allocate {s₁ : State T U V E} {work : Work U V E} {unwrap : Bool}
    {toRun toReturn : ℕ}
    (h : WellFormed s) (hf : Factory s work unwrap s₁ toRun toReturn)
    (hw : ∀ source, work ≠ .unwrap source) (heap : s'.heap = s₁.heap) (next : s'.next = s₁.next)
    (sources : s'.sources = s₁.sources) {fs : List (Frame U V E)}
    (stack : s'.stack = update s₁.stack t fs)
    (frames : s₁.Runnable toRun → ∀ f ∈ fs, f ∈ s.stack t ∨ f.Ok s₁)
    (queue : s₁.Runnable toRun → ∀ c ∈ s'.queue, c ∈ s₁.queue ∨ s₁.CallableOk c) :
    WellFormed s' := by
  obtain ⟨blank, payload, hrun⟩ := hf.ok h hw
  have rest := hf.sameRest
  have he : s₁.Extends s' := .of_heap_eq heap next
  have he' : s.Extends s' :=
    ⟨next ▸ hf.extends.next_le, fun p hp => heap ▸ hf.extends.payload p hp⟩
  refine h.next he' (fun p hp => ?_) (fun p hp => ?_) (fun p => ?_) (rest.stack ▸ stack)
    (fun f hf => (frames hrun f hf).imp_right (.mono he))
    fun c hc => ((queue hrun c hc).imp (rest.queue ▸ id) (.mono he))
  · rw [heap]
    exact blank p (next ▸ hp)
  · rw [sources, rest.sources] at hp
    exact (h.sources p hp).trans_le he'.next_le
  · rw [heap]
    exact (payload p).imp_right (.mono he)

namespace WellFormed

variable {rest : List (Frame U V E)}

/-! ### Steps of user code -/

/-- A callable returns, and its payload can be completed. -/
theorem step_returns (h : WellFormed s) {u : U} {p : ℕ} {x : Expected V E}
    (hs : s.stack t = .user u :: .doWork p :: rest) :
    WellFormed ((s.setResult p x).setStack t (.doCompletion p :: rest)) := by
  have hp : s.Runnable p := h.frames t (.doWork p) (by rw [hs]; simp)
  refine h.write hp.lt rfl rfl rfl (.setResult _ _) ((h.payload _).setResult _) rfl
    (List.forall_mem_cons.2 ⟨.inr ⟨hp.lt, by simp⟩, fun f hf => .inl ?_⟩) rfl
  rw [hs]
  exact .tail _ (.tail _ hf)

/-- A source is constructed. -/
theorem step_constructs (h : WellFormed s) {u : U} {k : ℕ → U} (hs : s.stack t = .user u :: rest) :
    WellFormed (s.makeSource.setStack t (.user (k s.next) :: rest)) := by
  refine h.next (.alloc (Nat.le_succ _) fun p hp => update_of_ne (by omega) ..)
    (fun p hp => ?_) (fun p hp => ?_) (fun p => ?_) rfl
    (List.forall_mem_cons.2 ⟨.inr trivial, forall_tail_mem_or hs⟩) fun c => .inl
  · simp only [State.setStack_next, State.setStack_heap, State.makeSource_next,
      State.makeSource_heap] at hp ⊢
    rw [update_of_ne (by omega)]
    exact h.blank p (by omega)
  · simp only [State.setStack_sources, State.makeSource_sources, List.mem_cons,
      State.setStack_next, State.makeSource_next] at hp ⊢
    rcases hp with rfl | hp
    · omega
    · exact Nat.lt_succ_of_lt (h.sources p hp)
  · simp only [State.setStack_heap, State.makeSource_heap, update_apply]
    split
    · exact .inr (.fresh rfl rfl rfl nofun)
    · exact .inl rfl

/-- A task is made on a dispatcher. -/
theorem step_makeTaskDispatcher (h : WellFormed s) {u : U} {cancelled unwrap : Bool} {callable : U}
    {k : ℕ → U} {s₁ : State T U V E} {toRun toReturn : ℕ} (hs : s.stack t = .user u :: rest)
    (hf : Factory s (.start cancelled callable) unwrap s₁ toRun toReturn) :
    WellFormed ({ s₁ with queue := s₁.queue ++ [(toRun, none)] }.setStack t
      (.user (k toReturn) :: rest)) := by
  refine h.allocate hf nofun rfl rfl rfl rfl (fun _ => List.forall_mem_cons.2
    ⟨.inr trivial, forall_tail_mem_or hs⟩) fun hr c hc => ?_
  rcases List.mem_append.1 hc with hc | hc
  · exact .inl hc
  · obtain rfl := List.mem_singleton.1 hc
    exact .inr ⟨hr, nofun⟩

/-- A continuation is attached to a task, whose payload it is to read. -/
theorem step_thenDo (h : WellFormed s) {u : U} {p : ℕ} {scheduler : Scheduler}
    {cancelled handlesExpected unwrap : Bool} {callable : Expected V E → U} {k : ℕ → U}
    {s₁ : State T U V E} {toRun toReturn : ℕ} (hs : s.stack t = .user u :: rest) (hp : p < s.next)
    (hf : Factory s (.continuation handlesExpected cancelled callable) unwrap s₁ toRun toReturn) :
    WellFormed ({ s₁ with registered := toRun :: s₁.registered }.setStack t
      (.addContinuations p [⟨p, toRun, scheduler⟩] :: .user (k toReturn) :: rest)) := by
  refine h.allocate hf nofun rfl rfl rfl rfl (fun hr => List.forall_mem_cons.2
    ⟨.inr ⟨hp.trans_le hf.extends.next_le, fun c hc => ?_⟩,
      List.forall_mem_cons.2 ⟨.inr trivial, forall_tail_mem_or hs⟩⟩) fun _ c => .inl
  obtain rfl := List.mem_singleton.1 hc
  exact ⟨rfl, hr⟩

/-! ### Steps of payloads that are run -/

section

variable [ErrorTraits E] {s₁ : State T U V E} {p : ℕ} {parent : Option ℕ}

/-- A payload gets a result without its callable. -/
theorem step_decides (h : WellFormed s) {r : Expected V E} (hs : s.stack t = .run p parent :: rest)
    (hinput : WorkInput s p parent s₁ (.inl r)) :
    WellFormed ((s₁.setResult p r).setStack t (.doCompletion p :: rest)) := by
  obtain ⟨hheap, hnext⟩ := hinput.heap_next
  have same := hinput.sameRest
  have hp : s.Runnable p := (h.top hs).1
  have hstack : ((s₁.setResult p r).setStack t (.doCompletion p :: rest)).stack =
      update s.stack t (.doCompletion p :: rest) := by rw [← same.stack]; rfl
  refine h.write hp.lt (by show update s₁.heap p _ = _; rw [hheap]) hnext same.sources
    (.setResult _ _) ((h.payload _).setResult r) hstack
    (List.forall_mem_cons.2 ⟨.inr ⟨by exact hnext ▸ hp.lt, by simp⟩, forall_tail_mem_or hs⟩)
    same.queue

/-- A payload invokes its callable. -/
theorem step_invokes (h : WellFormed s) {u : U} (hs : s.stack t = .run p parent :: rest)
    (hinput : WorkInput s p parent s₁ (.inr u)) :
    WellFormed ({ s₁ with invoked := p :: s₁.invoked }.setStack t
      (.user u :: .doWork p :: rest)) := by
  obtain ⟨hheap, hnext⟩ := hinput.heap_next
  have same := hinput.sameRest
  have hstack : ({ s₁ with invoked := p :: s₁.invoked }.setStack t
      (.user u :: .doWork p :: rest)).stack =
      update s.stack t (.user u :: .doWork p :: rest) := by rw [← same.stack]; rfl
  exact h.move hheap hnext same.sources hstack
    (List.forall_mem_cons.2 ⟨.inr trivial,
      List.forall_mem_cons.2 ⟨.inr (h.top hs).1, forall_tail_mem_or hs⟩⟩)
    fun c hc => .inl (same.queue ▸ hc)

end

/-- The continuation of `task_factory` makes its stand-in complete with an error. -/
theorem step_unwrapsError (h : WellFormed s) {p q source : ℕ} {e : E}
    (hs : s.stack t = .run p (some q) :: rest) (hwork : (s.heap p).work = some (.unwrap source)) :
    WellFormed (((s.read q p (.error e)).setResult source (.error e)).setStack t
      (.doCompletion source :: .unwrapping p :: rest)) := by
  have hsrc : source < s.next := (h.payload p).unwraps source hwork
  refine h.write hsrc rfl rfl rfl (.setResult _ _) ((h.payload _).setResult _) rfl
    (List.forall_mem_cons.2 ⟨.inr ⟨hsrc, by simp⟩,
      List.forall_mem_cons.2 ⟨.inr ?_, forall_tail_mem_or hs⟩⟩) rfl
  have hp : s.Runnable p := (h.top hs).1
  have he : s.Extends (((s.read q p (.error e)).setResult source (.error e)).setStack t
      (.doCompletion source :: .unwrapping p :: rest)) := .setPayload rfl rfl (.setResult _ _)
  exact hp.mono he

/-! ### Steps of continuations -/

/-- A payload with a result is completed: its continuations find the result. -/
theorem step_completesPayload (h : WellFormed s) {p : ℕ} (hs : s.stack t = .doCompletion p :: rest)
    (hc : (s.heap p).completed = false) :
    WellFormed ((s.setPayload p ((s.heap p).cannibalized none)).setStack t
      (.runAll (s.heap p).continuation.span :: rest)) := by
  obtain ⟨hp, hr⟩ := h.top hs
  refine h.write hp rfl rfl rfl (.cannibalized hc _)
    ((h.payload p).cannibalized nofun fun _ => hr) rfl
    (List.forall_mem_cons.2 ⟨.inr fun c hcs => ?_, forall_tail_mem_or hs⟩) rfl
  obtain ⟨_, rfl, hrun⟩ := (h.payload p).stored c hcs
  refine ⟨hrun.mono (.setPayload rfl rfl (.cannibalized hc _)), hp, ?_, ?_, ?_⟩
  · simp [Payload.cannibalized]
  · simp [Payload.cannibalized]
  · simpa [Payload.cannibalized] using hr

/-- A payload is completed by a redirect: its continuations get a new parent. -/
theorem step_collapses (h : WellFormed s) {left right : ℕ}
    (hs : s.stack t = .collapseLeftIntoRight left right :: rest)
    (hc : (s.heap left).completed = false) :
    WellFormed ((s.setPayload left ((s.heap left).cannibalized (some right))).setStack t
      (.addContinuations right
        ((s.heap left).continuation.span.map (·.reparent right)) :: rest)) := by
  obtain ⟨hl, hr⟩ := h.top hs
  refine h.write hl rfl rfl rfl (.cannibalized hc _)
    ((h.payload left).cannibalized (fun r e => Option.some.inj e ▸ hr) nofun) rfl
    (List.forall_mem_cons.2 ⟨.inr ⟨hr, fun c hcs => ?_⟩, forall_tail_mem_or hs⟩) rfl
  obtain ⟨c, hcs', rfl⟩ := List.mem_map.1 hcs
  have hrun : s.Runnable c.continuation := ((h.payload left).stored c hcs').2.2
  exact ⟨rfl, hrun.mono (.setPayload rfl rfl (.cannibalized hc _))⟩

/-- The first of the continuations is queued. -/
theorem step_handsDispatcher (h : WellFormed s) {c : Continuation} {cs : List Continuation}
    (hs : s.stack t = .runAll (c :: cs) :: rest) :
    WellFormed ({ s with
      handed := c.continuation :: s.handed
      queue := s.queue ++ [(c.continuation, some c.parent)] }.setStack t
        (.runAll cs :: rest)) := by
  obtain ⟨⟨hrun, hdone⟩, hcs⟩ := List.forall_mem_cons.1 (h.top hs)
  refine h.move rfl rfl rfl rfl (List.forall_mem_cons.2 ⟨.inr hcs, forall_tail_mem_or hs⟩)
    fun c hc => ?_
  rcases List.mem_append.1 hc with hc | hc
  · exact .inl hc
  · obtain rfl := List.mem_singleton.1 hc
    exact .inr ⟨hrun, fun q hq => Option.some.inj hq ▸ hdone⟩

/-- Continuations go along a redirect, which leads to a payload that there is. -/
theorem step_addsAlong (h : WellFormed s) {p q : ℕ} {cs : List Continuation}
    (hs : s.stack t = .addContinuations p cs :: rest) (hr : (s.heap p).taskRedirect = some q) :
    WellFormed (s.setStack t
      (.addContinuations q (cs.map (·.reparent q)) :: .holding p :: rest)) := by
  obtain ⟨hp, hcs⟩ := h.top hs
  refine h.move rfl rfl rfl rfl (List.forall_mem_cons.2
    ⟨.inr ⟨((h.payload p).redirect q hr).2, fun c hc => ?_⟩,
      List.forall_mem_cons.2 ⟨.inr hp, forall_tail_mem_or hs⟩⟩) fun c => .inl
  obtain ⟨c, hc', rfl⟩ := List.mem_map.1 hc
  exact ⟨rfl, (hcs c hc').2⟩

/-- Continuations that come late find a result. -/
theorem step_addsLate (h : WellFormed s) {p : ℕ} {cs : List Continuation}
    (hs : s.stack t = .addContinuations p cs :: rest) (hr : (s.heap p).taskRedirect = none)
    (hc : (s.heap p).completed = true) : WellFormed (s.setStack t (.runAll cs :: rest)) := by
  obtain ⟨hp, hcs⟩ := h.top hs
  have hdone : s.Done p := ⟨hp, hc, hr, (h.payload p).engaged hc hr⟩
  exact h.move rfl rfl rfl rfl (List.forall_mem_cons.2
    ⟨.inr fun c hc => ⟨(hcs c hc).2, (hcs c hc).1 ▸ hdone⟩, forall_tail_mem_or hs⟩)
    fun c => .inl

variable [Fintype T] [ErrorTraits E] {act : U → O → Action U V E}

/-- **Every step keeps the invariant.** -/
theorem step (h : WellFormed s) (hstep : Step act s t o s') : WellFormed s' := by
  cases hstep with
  | idle _ hq =>
    refine h.move rfl rfl rfl rfl (fun f hf => .inr ?_) fun c hc =>
      .inl (List.mem_of_mem_eraseIdx hc)
    obtain rfl := List.mem_singleton.1 hf
    exact h.callable hq
  | mainReturns => exact h.move rfl rfl rfl rfl (fun f hf => nomatch hf) fun c => .inl
  | returns hs => exact h.step_returns hs
  | emits hs | ticksNothing hs | completed hs =>
    exact h.move rfl rfl rfl rfl (List.forall_mem_cons.2 ⟨.inr trivial, forall_tail_mem_or hs⟩)
      fun c => .inl
  | constructs hs => exact h.step_constructs hs
  | completes hs _ hp =>
    exact h.write (h.sources _ hp) rfl rfl rfl (.setResult _ _) ((h.payload _).setResult _) rfl
      (List.forall_mem_cons.2 ⟨.inr ⟨h.sources _ hp, by simp⟩,
        List.forall_mem_cons.2 ⟨.inr trivial, forall_tail_mem_or hs⟩⟩) rfl
  | makeTaskInline hs _ hf =>
    exact h.allocate hf nofun rfl rfl rfl rfl (fun hr => List.forall_mem_cons.2
      ⟨.inr ⟨hr, nofun⟩, List.forall_mem_cons.2 ⟨.inr trivial, forall_tail_mem_or hs⟩⟩)
      fun _ c => .inl
  | makeTaskDispatcher hs _ hf => exact h.step_makeTaskDispatcher hs hf
  | thenDo hs _ hp hf => exact h.step_thenDo hs hp hf
  | ticks hs _ hq =>
    exact h.move rfl rfl rfl rfl (List.forall_mem_cons.2 ⟨.inr (h.callable hq),
      List.forall_mem_cons.2 ⟨.inr trivial, forall_tail_mem_or hs⟩⟩)
      fun c hc => .inl (List.mem_of_mem_eraseIdx hc)
  | runBare hs hw => exact absurd hw (h.top hs).1.work
  | decides hs hinput => exact h.step_decides hs hinput
  | invokes hs hinput => exact h.step_invokes hs hinput
  | unwrapsError hs hwork => exact h.step_unwrapsError hs hwork
  | @unwrapsTask p q source r rest hs hw hr hlt =>
    exact h.move rfl rfl rfl rfl (List.forall_mem_cons.2
      ⟨.inr ⟨(h.payload p).unwraps source hw, hlt⟩,
        List.forall_mem_cons.2 ⟨.inr (h.top hs).1, forall_tail_mem_or hs⟩⟩) fun c => .inl
  | @unwrapped p rest hs =>
    have hp : s.Runnable p := h.top hs
    exact h.write hp.lt rfl rfl rfl (.setResult _ _) ((h.payload _).setResult _) rfl
      (List.forall_mem_cons.2 ⟨.inr ⟨hp.lt, by simp⟩, forall_tail_mem_or hs⟩) rfl
  | completesPayload hs _ hc => exact h.step_completesPayload hs hc
  | refuses hs =>
    refine h.move rfl rfl rfl rfl (List.forall_mem_cons.2 ⟨.inr trivial, fun f hf => .inl ?_⟩)
      fun c => .inl
    rw [hs]
    exact .tail _ (.tail _ hf)
  | ranAll hs | addsNothing hs | unlocks hs =>
    exact h.move rfl rfl rfl rfl (forall_tail_mem_or hs) fun c => .inl
  | handsInline hs =>
    obtain ⟨⟨hrun, hdone⟩, hcs⟩ := List.forall_mem_cons.1 (h.top hs)
    exact h.move rfl rfl rfl rfl (List.forall_mem_cons.2
      ⟨.inr ⟨hrun, fun q hq => Option.some.inj hq ▸ hdone⟩,
        List.forall_mem_cons.2 ⟨.inr hcs, forall_tail_mem_or hs⟩⟩) fun c => .inl
  | handsDispatcher hs => exact h.step_handsDispatcher hs
  | collapses hs _ hc => exact h.step_collapses hs hc
  | addsAlong hs _ _ hr => exact h.step_addsAlong hs hr
  | addsLate hs _ _ hr hc => exact h.step_addsLate hs hr hc
  | @stores p cs rest hs _ _ _ hc =>
    obtain ⟨hp, hcs⟩ := h.top hs
    exact h.write hp rfl rfl rfl (.store _ _) ((h.payload p).store hc hcs) rfl
      (forall_tail_mem_or hs) rfl

end WellFormed

end

end Arcana.Tasks
