import Arcana.Tasks.Memory
import Arcana.Tasks.Results
import Arcana.Tasks.Typing

/-!
# The lifetimes of payloads

What the task machine reads and writes is owned. A call under way borrows payloads through plain
pointers and through the `weak_ptr`s of continuations. Its own scope or one below it on the stack
keeps the payload, or one from which the chain of redirects leads there (`Backed`), unless a task or
source of user code is destroyed while a member function of it is under way. So `parent.lock()` is
never null when a continuation is run, and a payload that is not owned any more is not touched again
(`never_dangles`).

* `Keeps` says that some scopes keep a payload, and `Backed` that every call of a stack borrows what
  its scope or a lower one keeps. `Step.backed` is the step lemma, by the rules of the machine.
* `Finishing` says that a payload with a result is about to be completed, which is why the
  continuations of a payload find its result.
* `Memory.Sound` collects what holds in every state of a run. It rests on `Memory.Sound.references`
  and `Memory.Sound.written`, which say that a step leads to nothing that is destroyed, so that what
  was destroyed stays so (`Memory.Sound.alive`, `Memory.Sound.gone`).
* `never_dangles` is the result about runs, and `dangles_released` a run in which a continuation
  destroys the source whose completion it is part of.
-/

namespace Arcana.Tasks

open Function Foundations

variable {T O U V E : Type*}

/-! ## What the scopes of a stack keep -/

section

variable (heap : ℕ → Payload U V E)

/-- The scopes keep the payload, or one from which the chain of redirects leads to it. -/
def Keeps (scopes : List Scope) (p : ℕ) : Prop :=
  Reached (fun p => ∃ c ∈ scopes, p ∈ c.locals ∨ p ∈ c.object)
    (fun q p => (heap q).taskRedirect = some p) p

/-- Each call of the stack borrows what its scope or a lower one keeps. -/
def Backed : List (Frame U V E) → List Scope → Prop
  | [], [] => True
  | f :: fs, c :: cs => (∀ p ∈ f.borrows, Keeps heap (c :: cs) p) ∧ Backed fs cs
  | _, _ => False

end

variable {heap heap' : ℕ → Payload U V E} {scopes scopes' : List Scope} {c : Scope} {p q : ℕ}
  {f f' g g' : Frame U V E} {fs rest : List (Frame U V E)}

theorem Keeps.mono (h : Keeps heap scopes p)
    (hredirect : ∀ q p, (heap q).taskRedirect = some p → (heap' q).taskRedirect = some p)
    (hscopes : scopes ⊆ scopes') : Keeps heap' scopes' p :=
  Reached.mono h (fun _ ⟨c, hc, hp⟩ => ⟨c, hscopes hc, hp⟩) hredirect

theorem keeps_local (hp : p ∈ c.locals) : Keeps heap (c :: scopes) p :=
  .root ⟨c, .head _, .inl hp⟩

theorem keeps_object (hp : c.object = some p) : Keeps heap (c :: scopes) p :=
  .root ⟨c, .head _, .inr hp⟩

namespace Backed

theorem mono (h : Backed heap fs scopes)
    (hredirect : ∀ q p, (heap q).taskRedirect = some p → (heap' q).taskRedirect = some p) :
    Backed heap' fs scopes := by
  induction fs generalizing scopes with
  | nil =>
    cases scopes with
    | nil => trivial
    | cons => exact h
  | cons f fs ih =>
    cases scopes with
    | nil => exact h
    | cons c cs => exact ⟨fun p hp => (h.1 p hp).mono hredirect (List.Subset.refl _), ih h.2⟩

/-- **What a call borrows is kept.** -/
theorem borrowed (h : Backed heap fs scopes) (hf : f ∈ fs) (hp : p ∈ f.borrows) :
    Keeps heap scopes p := by
  induction fs generalizing scopes with
  | nil => cases hf
  | cons g fs ih =>
    cases scopes with
    | nil => cases h
    | cons c cs =>
      rcases List.mem_cons.1 hf with rfl | hf
      · exact h.1 p hp
      · exact (ih h.2 hf).mono (fun _ _ => id) (List.subset_cons_self c cs)

/-- A stack starts with a call. -/
theorem starts (h : Backed heap [] scopes) (hg : ∀ p ∈ g.borrows, p ∈ (opened [g]).locals) :
    Backed heap [g] (adjust scopes [] [g]) := by
  cases scopes with
  | nil => exact ⟨fun p hp => keeps_local (hg p hp), trivial⟩
  | cons => cases h

/-- A call goes on as `f'`. -/
theorem goesOn (h : Backed heap (f :: rest) scopes) (hf : f'.borrows ⊆ f.borrows) :
    Backed heap (f' :: rest) (adjust scopes (f :: rest) (f' :: rest)) := by
  rw [adjust, if_neg (by simp), if_neg (by simp)]
  cases scopes with
  | nil => cases h
  | cons c cs => exact ⟨fun p hp => h.1 p (hf hp), h.2⟩

/-- A call `g` begins, and the one that makes it is `f'` then. -/
theorem begins (h : Backed heap (f :: rest) scopes) (hf : f'.borrows ⊆ f.borrows)
    (hg : ∀ p ∈ g.borrows, Keeps heap (opened (g :: f' :: rest) :: scopes) p) :
    Backed heap (g :: f' :: rest) (adjust scopes (f :: rest) (g :: f' :: rest)) := by
  rw [adjust, if_pos (by simp)]
  cases scopes with
  | nil => cases h
  | cons c cs => exact ⟨hg, fun p hp => h.1 p (hf hp), h.2⟩

/-- A call ends. -/
theorem ends (h : Backed heap (f :: rest) scopes) :
    Backed heap rest (adjust scopes (f :: rest) rest) := by
  rw [adjust, if_neg (by simp), if_pos (by simp)]
  cases scopes with
  | nil => cases h
  | cons c cs => exact h.2

/-- A call ends, and the one that made it goes on as `g'`. -/
theorem returns (h : Backed heap (f :: g :: rest) scopes) (hg : g'.borrows ⊆ g.borrows) :
    Backed heap (g' :: rest) (adjust scopes (f :: g :: rest) (g' :: rest)) := by
  rw [adjust, if_neg (by simp), if_pos (by simp)]
  match scopes, h with
  | c :: c' :: cs, h => exact ⟨fun p hp => h.2.1 p (hg hp), h.2.2⟩

end Backed

section

variable [DecidableEq T] [Fintype T] [ErrorTraits E] {act : U → O → Action U V E}
  {s s' : State T U V E} {t : T} {o : O}

/-- A redirect stays. -/
theorem Step.redirect_mono (hstep : Step act s t o s') (hw : WellFormed s) (q p : ℕ)
    (h : (s.heap q).taskRedirect = some p) : (s'.heap q).taskRedirect = some p := by
  have hc := ((hw.payload q).redirect p h).1
  have hlt : q < s.next := by
    by_contra hlt
    rw [hw.blank q (by omega)] at hc
    cases hc
  exact ((hstep.extends.payload q hlt).completed hc).2.trans h

/-- **Every step keeps to what is kept.** -/
theorem Step.backed (hstep : Step act s t o s') (hw : WellFormed s)
    (h : Backed s.heap (s.stack t) scopes) :
    Backed s'.heap (s'.stack t) (adjust scopes (s.stack t) (s'.stack t)) := by
  have h := h.mono (hstep.redirect_mono hw)
  cases hstep with
  | idle hs =>
    simp only [State.setStack_stack, update_self, hs] at h ⊢
    exact h.starts fun p hp => hp
  | mainReturns hs | ranAll hs | addsNothing hs | stores hs | unlocks hs =>
    simp only [State.setStack_stack, update_self, hs] at h ⊢
    exact h.ends
  | returns hs | refuses hs =>
    simp only [State.setStack_stack, update_self, hs] at h ⊢
    exact h.returns (by simp [Frame.borrows])
  | emits hs | constructs hs | makeTaskDispatcher hs | ticksNothing hs | completed hs =>
    simp only [State.setStack_stack, update_self, hs] at h ⊢
    exact h.goesOn (List.nil_subset _)
  | completes hs | thenDo hs =>
    simp only [State.setStack_stack, update_self, hs] at h ⊢
    refine h.begins (List.nil_subset _) fun p hp => keeps_object ?_
    rw [List.mem_singleton.1 hp]
    rfl
  | makeTaskInline hs | ticks hs =>
    simp only [State.setStack_stack, update_self, hs] at h ⊢
    exact h.begins (List.nil_subset _) fun p hp => keeps_local hp
  | runBare hs | decides hs | unwrapped hs =>
    simp only [State.setStack_stack, update_self, hs] at h ⊢
    exact h.goesOn (by simp [Frame.borrows])
  | invokes hs =>
    simp only [State.setStack_stack, update_self, hs] at h ⊢
    exact h.begins (by simp [Frame.borrows]) nofun
  | unwrapsError hs | unwrapsTask hs =>
    simp only [State.setStack_stack, update_self, hs] at h ⊢
    exact h.begins (by simp [Frame.borrows]) fun p hp => keeps_local hp
  | @completesPayload p rest hs =>
    simp only [State.setStack_stack, update_self, hs] at h ⊢
    refine h.goesOn fun q hq => ?_
    obtain ⟨c, hc, rfl⟩ := List.mem_map.1 hq
    exact List.mem_singleton.2 ((hw.payload p).stored c hc).2.1
  | handsInline hs =>
    simp only [State.setStack_stack, update_self, hs] at h ⊢
    refine h.begins (List.subset_cons_self ..) fun p hp => keeps_local hp
  | handsDispatcher hs =>
    simp only [State.setStack_stack, update_self, hs] at h ⊢
    exact h.goesOn (List.subset_cons_self ..)
  | collapses hs =>
    simp only [State.setStack_stack, update_self, hs] at h ⊢
    exact h.goesOn (List.subset_cons_self ..)
  | @addsAlong p q cs rest hs _ _ hr =>
    have hkept := h.borrowed (f := .addContinuations p cs) (by rw [hs]; exact .head _) (.head _)
    simp only [State.setStack_stack, update_self, hs] at h ⊢
    refine h.begins (List.Subset.refl _) fun q' hq' => ?_
    obtain rfl := List.mem_singleton.1 hq'
    exact .edge (hkept.mono (fun _ _ => id) (List.subset_cons_self ..)) hr
  | @addsLate p cs rest hs =>
    have hok := hw.top hs
    simp only [State.setStack_stack, update_self, hs] at h ⊢
    refine h.goesOn fun q hq => ?_
    obtain ⟨c, hc, rfl⟩ := List.mem_map.1 hq
    exact List.mem_singleton.2 (hok.2 c hc).1

end

/-! ## Results are on the way to completion -/

/-- A payload that has a result is completed, or its `do_completion` is under way. -/
def Finishing (s : State T U V E) : Prop :=
  ∀ p, (s.heap p).result ≠ none → (s.heap p).completed = false → ∃ t, .doCompletion p ∈ s.stack t

theorem Finishing.init (main : T → U) : Finishing (init main : State T U V E) :=
  fun _ h => absurd rfl h

section

variable [DecidableEq T] {s s' : State T U V E} {t : T}

/-- What a step has to establish. -/
theorem Finishing.next (h : Finishing s) (stack : s'.stack = update s.stack t fs)
    (payload : ∀ p, s'.heap p = s.heap p ∨ (s'.heap p).result = none ∨
      (s'.heap p).completed = true ∨ .doCompletion p ∈ fs ∨
      ((s'.heap p).result = (s.heap p).result ∧ (s'.heap p).completed = (s.heap p).completed))
    (kept : ∀ p, .doCompletion p ∈ s.stack t →
      .doCompletion p ∈ fs ∨ (s'.heap p).completed = true) : Finishing s' := by
  intro p hp hc
  have old (hp : (s.heap p).result ≠ none) (hc' : (s.heap p).completed = false) :
      ∃ t, .doCompletion p ∈ s'.stack t := by
    obtain ⟨t', ht'⟩ := h p hp hc'
    by_cases e : t' = t
    · subst e
      rcases kept p ht' with hfs | hdone
      · exact ⟨t', by rw [stack, update_self]; exact hfs⟩
      · rw [hdone] at hc
        cases hc
    · exact ⟨t', by rw [stack, update_of_ne e]; exact ht'⟩
  rcases payload p with heq | hnone | hdone | hfs | ⟨hr, hcomp⟩
  · rw [heq] at hp hc
    exact old hp hc
  · exact absurd hnone hp
  · rw [hdone] at hc
    cases hc
  · exact ⟨t, by rw [stack, update_self]; exact hfs⟩
  · exact old (hr ▸ hp) (hcomp ▸ hc)

/-- A step that writes one payload. -/
theorem Finishing.write {x : Payload U V E} (h : Finishing s) (heap : s'.heap = update s.heap q x)
    (stack : s'.stack = update s.stack t fs)
    (hx : x.result = none ∨ x.completed = true ∨ .doCompletion q ∈ fs ∨
      (x.result = (s.heap q).result ∧ x.completed = (s.heap q).completed))
    (kept : ∀ p, .doCompletion p ∈ s.stack t →
    .doCompletion p ∈ fs ∨ (s'.heap p).completed = true) :
    Finishing s' := by
  refine h.next stack (fun p => ?_) kept
  rw [heap, update_apply]
  split
  · rename_i e
    subst e
    exact .inr hx
  · exact .inl rfl

omit [DecidableEq T] in
/-- The payloads that are made have no result. -/
theorem Factory.fresh {s₁ : State T U V E} {work : Work U V E} {unwrap : Bool} {toRun toReturn : ℕ}
    (h : Factory s work unwrap s₁ toRun toReturn) (p : ℕ) :
    s₁.heap p = s.heap p ∨ (s₁.heap p).result = none := by
  cases h with
  | plain =>
    simp only [update_apply]
    split
    · exact .inr rfl
    · exact .inl rfl
  | unwrap =>
    simp only [update_apply]
    split_ifs
    · exact .inr rfl
    · exact .inr rfl
    · exact .inr rfl
    · exact .inl rfl

end

section

variable [DecidableEq T] [Fintype T] [ErrorTraits E] {act : U → O → Action U V E}
  {s s' : State T U V E} {t : T} {o : O}

theorem Finishing.step (h : Finishing s) (hw : WellFormed s) (hstep : Step act s t o s') :
    Finishing s' := by
  cases hstep with
  | idle hs | mainReturns hs | emits hs | ticksNothing hs | ticks hs | completed hs | ranAll hs
  | handsInline hs | handsDispatcher hs | addsNothing hs | addsAlong hs | addsLate hs | unlocks hs
  | unwrapsTask hs =>
    refine h.next rfl (fun p => .inl rfl) fun p => ?_
    simp +contextual [hs]
  | runBare hs hbare => exact absurd hbare (hw.top hs).1.work
  | returns hs | unwrapsError hs | unwrapped hs | completes hs =>
    refine h.write rfl rfl (.inr (.inr (.inl (.head _)))) fun p => ?_
    simp +contextual [hs]
  | @decides q parent rest s₁ r hs hinput =>
    have hheap : ((s₁.setResult q r).setStack t (.doCompletion q :: rest)).heap =
        update s.heap q { s.heap q with result := some r } := by rw [← hinput.heap_next.1]; rfl
    have hstack : ((s₁.setResult q r).setStack t (.doCompletion q :: rest)).stack =
        update s.stack t (.doCompletion q :: rest) := by rw [← hinput.sameRest.stack]; rfl
    refine h.write hheap hstack (.inr (.inr (.inl (.head _)))) fun p => ?_
    simp +contextual [hs]
  | @invokes q parent rest s₁ u hs hinput =>
    have hstack : ({ s₁ with invoked := q :: s₁.invoked }.setStack t
        (.user u :: .doWork q :: rest)).stack =
        update s.stack t (.user u :: .doWork q :: rest) := by rw [← hinput.sameRest.stack]; rfl
    refine h.next hstack (fun p => .inl (congrFun hinput.heap_next.1 p)) fun p => ?_
    simp +contextual [hs]
  | constructs hs =>
    refine h.write rfl rfl (.inl rfl) fun p => ?_
    simp +contextual [hs]
  | makeTaskInline hs _ hf | makeTaskDispatcher hs _ hf | thenDo hs _ _ hf =>
    refine h.next (congrArg (update · t _) hf.sameRest.stack)
      (fun p => (hf.fresh p).imp_right .inl) fun p => ?_
    simp +contextual [hs]
  | completesPayload hs =>
    refine h.write rfl rfl (.inr (.inl rfl)) fun p => ?_
    rw [hs]
    rintro (_ | ⟨_, hp⟩)
    · exact .inr (by simp [Payload.cannibalized])
    · exact .inl (.tail _ hp)
  | collapses hs =>
    refine h.write rfl rfl (.inr (.inl rfl)) fun p => ?_
    simp +contextual [hs]
  | refuses hs _ hc =>
    refine h.next rfl (fun p => .inl rfl) fun p => ?_
    rw [hs]
    rintro (_ | ⟨_, _ | ⟨_, hp⟩⟩)
    · exact .inr hc
    · exact .inl (.tail _ hp)
  | stores hs =>
    refine h.write rfl rfl (.inr (.inr (.inr ⟨rfl, rfl⟩))) fun p => ?_
    simp +contextual [hs]

omit [DecidableEq T] [ErrorTraits E] in
/-- A payload that is about to run has no result. -/
theorem Settled.result_eq_none (h : Settled s) (hf : Finishing s) {p : ℕ} {parent : Option ℕ}
    {rest : List (Frame U V E)} (hs : s.stack t = .run p parent :: rest) :
    (s.heap p).result = none := by
  classical
  by_contra hr
  have hrun : s.Runnable p := (h.wellFormed.top hs).1
  have howes : 1 ≤ (Frame.run p parent : Frame U V E).owes (fun q => (s.heap q).work) p := by
    simp [Frame.owes, owes]
  have hc := h.running_not_completed hrun (t := t) (by rw [hs]; exact .head _) howes
  obtain ⟨t', ht'⟩ := hf p hr hc
  have hother : Frame.doCompletion p ∈ update s.stack t rest t' := by
    by_cases e : t' = t
    · subst e
      rw [hs] at ht'
      rw [update_self]
      simpa using ht'
    · rw [update_of_ne e]
      exact ht'
  have hnone :=
    h.sole_owner hrun (show s.stack t = [.run p parent] ++ rest from hs) (.head _) howes hother
  simp [Frame.owes] at hnone

end

/-! ## What is owned -/

namespace Memory

/-- What holds in every state of a run. -/
structure Sound [Fintype T] (m : Memory T U V E) : Prop where
  settled : Settled m.state
  finishing : Finishing m.state
  backed : ∀ t, Backed m.state.heap (m.state.stack t) (m.scopes t)
  outlived : m.Outlived

variable {m m' : Memory T U V E} {p q : ℕ} {t : T} {f : Frame U V E}

theorem Sound.init [Fintype T] (main : T → U) : (init main : Memory T U V E).Sound where
  settled := .init main
  finishing := .init main
  backed t := ⟨nofun, trivial⟩
  outlived t c hc p hp := by
    obtain rfl := List.mem_singleton.1 hc
    cases hp

theorem Alive.reference (h : m.Alive q) (hp : p ∈ (m.state.heap q).references) : m.Alive p :=
  Reached.edge h hp

theorem mem_references_of_span {x : Payload U V E} {c : Continuation}
    (h : c ∈ x.continuation.span) :
    c.continuation ∈ x.references := by
  simp only [Payload.references, List.mem_append]
  exact .inl (.inl (.inl (List.mem_map_of_mem h)))

theorem mem_references_of_redirect {x : Payload U V E} (h : x.taskRedirect = some p) :
    p ∈ x.references := by
  simp [Payload.references, h]

theorem mem_references_of_result {x : Payload U V E} {r : Expected V E} (h : x.result = some r)
    (hp : p ∈ resultTasks r) : p ∈ x.references := by
  simp [Payload.references, h, hp]

theorem mem_references_of_unwrap {x : Payload U V E} (h : x.work = some (.unwrap p))
    (hr : x.result = none) : p ∈ x.references := by
  simp [Payload.references, Payload.captured, h, hr]

variable [Fintype T]

/-- **What a call borrows is owned.** -/
theorem Sound.borrowed (h : m.Sound) (hf : f ∈ m.state.stack t) (hp : p ∈ f.borrows) :
    m.Alive p := by
  refine Reached.of_closed ((h.backed t).borrowed hf hp) (fun q hq => ?_) fun q r hq hr => ?_
  · obtain ⟨c, hc, hlocal | hobject⟩ := hq
    · exact .root (.scope hc hlocal)
    · exact .root (.handle (h.outlived t c hc q hobject))
  · exact hq.reference (mem_references_of_redirect hr)

omit [Fintype T] in
/-- What a call has taken over is owned. -/
theorem carried (hf : f ∈ m.state.stack t) (hp : p ∈ f.carries) : m.Alive p :=
  .root (.frame hf hp)

end Memory

/-! ## What a step refers to -/

section

variable {x : Payload U V E} {r : Expected V E} {p q : ℕ}

theorem references_setResult (hp : p ∈ ({ x with result := some r } : Payload U V E).references) :
    p ∈ x.references ∨ p ∈ resultTasks r := by
  simp only [Payload.references, Payload.captured, List.mem_append, Option.toList_some,
    List.flatMap_cons, List.flatMap_nil, List.append_nil] at hp ⊢
  rcases hp with ((hp | hp) | hp) | hp
  · exact .inl (.inl (.inl (.inl hp)))
  · exact .inl (.inl (.inl (.inr hp)))
  · exact .inr hp
  · split at hp <;> simp_all

theorem references_cannibalized {target : Option ℕ} (hp : p ∈ (x.cannibalized target).references) :
    p ∈ x.references ∨ p ∈ target := by
  simp only [Payload.references, Payload.cannibalized, Payload.captured, List.mem_append,
    ContinuationStorage.span_movedFrom, List.map_nil, List.not_mem_nil, false_or] at hp ⊢
  rcases hp with (hp | hp) | hp
  · exact .inr (by simpa using hp)
  · exact .inl (.inl (.inr hp))
  · exact .inl (.inr hp)

theorem references_store {cs : List Continuation}
    (hp : p ∈ ({ x with continuation := x.continuation.append cs } : Payload U V E).references) :
    p ∈ x.references ∨ p ∈ cs.map Continuation.continuation := by
  simp only [Payload.references, Payload.captured, List.mem_append,
    ContinuationStorage.span_append, List.map_append] at hp ⊢
  rcases hp with (((hp | hp) | hp) | hp) | hp
  · exact .inl (.inl (.inl (.inl hp)))
  · exact .inr hp
  · exact .inl (.inl (.inl (.inr hp)))
  · exact .inl (.inl (.inr hp))
  · exact .inl (.inr hp)

/-- The payloads that are made refer to each other only. -/
theorem Factory.references {s s₁ : State T U V E} {work : Work U V E} {unwrap : Bool}
    {toRun toReturn : ℕ} (h : Factory s work unwrap s₁ toRun toReturn)
    (hwork : ∀ source, work ≠ .unwrap source) (hp : p ∈ (s₁.heap q).references) :
    p ∈ (s.heap q).references ∨ s.next ≤ p := by
  have hbare (st : ContinuationStorage) :
    ({ work := some work, continuation := st } : Payload U V E).references =
      st.span.map Continuation.continuation := by
    cases work with
    | unwrap source => exact absurd rfl (hwork source)
    | start | continuation => simp [Payload.references, Payload.captured]
  cases h with
  | plain =>
    simp only [update_apply] at hp
    split at hp
    · rw [hbare] at hp
      cases hp
    · exact .inl hp
  | unwrap =>
    simp only [update_apply] at hp
    split_ifs at hp
    · obtain rfl : p = s.next + 1 := by simpa [Payload.references, Payload.captured] using hp
      exact .inr (Nat.le_succ _)
    · cases hp
    · rw [hbare] at hp
      obtain rfl : p = s.next + 2 := by simpa using hp
      exact .inr (Nat.le_add_right _ 2)
    · exact .inl hp

theorem tasks_of_outputWrapper [ErrorTraits E] {y : Return V E} (h : outputWrapper y = some r)
    (hp : p ∈ resultTasks r) : p ∈ y.tasks := by
  cases y with
  | value v =>
    cases h
    exact hp
  | expected r' =>
    cases h
    exact hp
  | throws e =>
    simp only [outputWrapper, Option.ite_none_right_eq_some] at h
    obtain ⟨-, h⟩ := h
    cases h
    cases hp
  | task q =>
    cases h
    exact hp

end

namespace Memory.Sound

variable [DecidableEq T] [Fintype T] [ErrorTraits E] {act : U → O → Action U V E}
  {m : Memory T U V E} {s' : State T U V E} {l : Label T O} {p q : ℕ}

omit [DecidableEq T] [ErrorTraits E] in
/-- What the call on top of the stack borrows is owned. -/
theorem top (h : m.Sound) {t : T} {f : Frame U V E} {rest : List (Frame U V E)}
    (hs : m.state.stack t = f :: rest) (hp : p ∈ f.borrows) : m.Alive p :=
  h.borrowed (by rw [hs]; exact .head _) hp

/-- **The references after a step** were there, or lead to what is owned or was made. -/
theorem references (h : m.Sound) (hstep : Step act m.state l.thread l.oracle s')
    (hused : ∀ p ∈ used act m.state l, p ∈ m.handles) (hp : p ∈ (s'.heap q).references) :
    p ∈ (m.state.heap q).references ∨ m.Alive p ∨ m.state.next ≤ p := by
  have written {q₀ : ℕ} {x : Payload U V E} (heap : s'.heap = update m.state.heap q₀ x)
      (hx : p ∈ x.references → p ∈ (m.state.heap q₀).references ∨ m.Alive p ∨ m.state.next ≤ p) :
      p ∈ (m.state.heap q).references ∨ m.Alive p ∨ m.state.next ≤ p := by
    rw [heap, update_apply] at hp
    split at hp
    · rename_i e
      rw [e]
      exact hx hp
    · exact .inl hp
  have set {q₀ : ℕ} {r : Expected V E}
      (heap : s'.heap = update m.state.heap q₀ { m.state.heap q₀ with result := some r })
      (hr : p ∈ resultTasks r → m.Alive p) :
      p ∈ (m.state.heap q).references ∨ m.Alive p ∨ m.state.next ≤ p :=
    written heap fun hp => (references_setResult hp).imp_right fun hp => .inl (hr hp)
  cases hstep with
  | idle | mainReturns | emits | ticksNothing | ticks | completed | ranAll | handsInline
  | handsDispatcher | addsNothing | addsAlong | addsLate | unlocks | unwrapsTask | runBare
    | refuses =>
    exact .inl hp
  | invokes hs hinput =>
    rw [← hinput.heap_next.1]
    exact .inl hp
  | @returns u q₀ rest y x hs ha hy =>
    refine set rfl fun hp => .root (.handle (hused p ?_))
    simp [used, hs, ha, tasks_of_outputWrapper hy hp]
  | @completes u rest q₀ r k hs ha =>
    refine set rfl fun hp => .root (.handle (hused p ?_))
    simp [used, hs, ha, hp]
  | unwrapsError | unwrapped => exact set rfl nofun
  | @decides q₀ parent rest s₁ r hs hinput =>
    have hheap : ((s₁.setResult q₀ r).setStack l.thread (.doCompletion q₀ :: rest)).heap =
        update m.state.heap q₀ { m.state.heap q₀ with result := some r } := by
      rw [← hinput.heap_next.1]
      rfl
    obtain ⟨e, rfl⟩ : ∃ e, r = .error e := by
      generalize hy : Sum.inl r = y at hinput
      cases hinput with
      | start | continuation => exact exists_error_of_wrapCallable hy.symm
    exact set hheap nofun
  | constructs => exact written rfl nofun
  | makeTaskInline _ _ hf | makeTaskDispatcher _ _ hf | thenDo _ _ _ hf =>
    exact (hf.references nofun hp).imp_right .inr
  | completesPayload =>
    exact written rfl fun hp => (references_cannibalized hp).imp_right nofun
  | @collapses left right rest hs =>
    refine written rfl fun hp => (references_cannibalized hp).imp_right fun hp => .inl ?_
    exact h.top hs (by simp [Frame.borrows, Option.mem_some_iff.1 hp])
  | @stores q₀ cs rest hs =>
    refine written rfl fun hp => (references_store hp).imp_right fun hp => .inl ?_
    exact carried (f := .addContinuations q₀ cs) (by rw [hs]; exact .head _) hp

omit [DecidableEq T] [ErrorTraits E] in
/-- The handles that user code gets are of payloads that are owned, or that are made. -/
theorem granted (h : m.Sound) (hp : p ∈ granted act m.state l) : m.Alive p ∨ m.state.next ≤ p := by
  unfold Tasks.granted at hp
  split at hp
  · split at hp
    · exact .inr (List.mem_singleton.1 hp).ge
    · rw [List.mem_singleton.1 hp]
      split <;> omega
    · rw [List.mem_singleton.1 hp]
      split <;> omega
    · cases hp
  · rename_i q₀ q rest hs
    split at hp
    · obtain ⟨r, hr, hp⟩ := List.mem_flatMap.1 hp
      have hq : m.Alive q := h.top hs (by simp [Frame.borrows])
      exact .inl (hq.reference (mem_references_of_result (Option.mem_toList.1 hr) hp))
    · cases hp
  · cases hp

/-- What a call that begins keeps was owned or is made. -/
theorem opened (h : m.Sound) (hstep : Step act m.state l.thread l.oracle s')
    (hlt : (m.state.stack l.thread).length < (s'.stack l.thread).length)
    (hp : p ∈ (opened (s'.stack l.thread)).locals) : m.Alive p ∨ m.state.next ≤ p := by
  cases hstep with
  | mainReturns hs | ranAll hs | addsNothing hs | stores hs | unlocks hs | returns hs | refuses hs
  | emits hs | constructs hs | makeTaskDispatcher hs | ticksNothing hs | completed hs | runBare hs
  | decides hs | unwrapped hs | completesPayload hs | handsDispatcher hs | collapses hs
  | addsLate hs =>
    simp only [State.setStack_stack, update_self, hs, List.length_cons, List.length_nil] at hlt
    omega
  | completes hs | thenDo hs | invokes hs | addsAlong hs =>
    simp [Tasks.opened] at hp
  | idle hs hq | ticks hs _ hq =>
    simp only [State.setStack_stack, update_self, Tasks.opened] at hp
    exact .inl (.root (.queue (List.mem_of_getElem? hq) hp))
  | makeTaskInline hs _ hf =>
    obtain rfl : p = m.state.next := by simpa [Tasks.opened, hf.toRun_eq] using hp
    exact .inr le_rfl
  | @unwrapsError l' q₀ source rest e hs hw =>
    have hl : m.Alive l' := h.top hs (.head _)
    obtain rfl : p = source := by simpa [Tasks.opened] using hp
    have hnone := h.settled.result_eq_none h.finishing hs
    exact .inl (hl.reference (mem_references_of_unwrap hw hnone))
  | @unwrapsTask l' q₀ source r rest hs hw hr =>
    have hl : m.Alive l' := h.top hs (.head _)
    have hq : m.Alive q₀ := h.top hs (by simp [Frame.borrows])
    obtain rfl | rfl : p = source ∨ p = r := by simpa [Tasks.opened] using hp
    · have hnone := h.settled.result_eq_none h.finishing hs
      exact .inl (hl.reference (mem_references_of_unwrap hw hnone))
    · exact .inl (hq.reference (mem_references_of_result hr (.head _)))
  | @handsInline c cs rest hs =>
    obtain rfl | rfl : p = c.continuation ∨ p = c.parent := by simpa [Tasks.opened] using hp
    · exact .inl (carried (f := .runAll (c :: cs)) (by rw [hs]; exact .head _) (.head _))
    · exact .inl (h.top hs (.head _))

/-- What the calls after a step have taken over was owned or is made. -/
theorem carries (h : m.Sound) (hstep : Step act m.state l.thread l.oracle s') {t : T}
    {f : Frame U V E} (hmem : f ∈ s'.stack t) (hp : p ∈ f.carries) :
    m.Alive p ∨ m.state.next ≤ p := by
  have moved {fs : List (Frame U V E)} (stack : s'.stack = update m.state.stack l.thread fs)
      (hfs : ∀ f ∈ fs, f ∈ m.state.stack l.thread ∨
        ∀ p ∈ f.carries, m.Alive p ∨ m.state.next ≤ p) : m.Alive p ∨ m.state.next ≤ p := by
    rw [stack, update_apply] at hmem
    split at hmem
    · exact (hfs f hmem).elim (fun hold => .inl (carried hold hp)) fun hnew => hnew p hp
    · exact .inl (carried hmem hp)
  have tail {f : Frame U V E} {rest : List (Frame U V E)}
    (hs : m.state.stack l.thread = f :: rest) :
      ∀ g ∈ rest, g ∈ m.state.stack l.thread ∨ ∀ p ∈ g.carries, m.Alive p ∨ m.state.next ≤ p :=
    WellFormed.forall_tail_mem_or hs
  have one {g : Frame U V E} {fs : List (Frame U V E)}
    (hg : ∀ p ∈ g.carries, m.Alive p ∨ m.state.next ≤ p)
      (hfs : ∀ f ∈ fs, f ∈ m.state.stack l.thread ∨ ∀ p ∈ f.carries, m.Alive p ∨ m.state.next ≤ p) :
      ∀ f ∈ g :: fs, f ∈ m.state.stack l.thread ∨ ∀ p ∈ f.carries, m.Alive p ∨ m.state.next ≤ p :=
    List.forall_mem_cons.2 ⟨.inr hg, hfs⟩
  cases hstep with
  | idle => exact moved rfl (one nofun nofun)
  | mainReturns => exact moved rfl nofun
  | returns hs | refuses hs =>
    exact moved rfl (one nofun fun g hg => .inl (by rw [hs]; exact .tail _ (.tail _ hg)))
  | emits hs | constructs hs | ticksNothing hs | completed hs | runBare hs | unwrapped hs =>
    exact moved rfl (one nofun (tail hs))
  | completes hs | ticks hs | unwrapsError hs | unwrapsTask hs =>
    exact moved rfl (one nofun (one nofun (tail hs)))
  | ranAll hs | addsNothing hs | stores hs | unlocks hs => exact moved rfl (tail hs)
  | decides hs hinput =>
    exact moved (congrArg (update · _ _) hinput.sameRest.stack) (one nofun (tail hs))
  | invokes hs hinput =>
    exact moved (congrArg (update · _ _) hinput.sameRest.stack) (one nofun (one nofun (tail hs)))
  | makeTaskInline hs _ hf =>
    exact moved (congrArg (update · _ _) hf.sameRest.stack) (one nofun (one nofun (tail hs)))
  | makeTaskDispatcher hs _ hf =>
    exact moved (congrArg (update · _ _) hf.sameRest.stack) (one nofun (tail hs))
  | thenDo hs _ _ hf =>
    refine moved (congrArg (update · _ _) hf.sameRest.stack)
      (one (fun p hp => ?_) (one nofun (tail hs)))
    rw [List.mem_singleton.1 hp, hf.toRun_eq]
    exact .inr le_rfl
  | @completesPayload q rest hs =>
    refine moved rfl (one (fun p hp => .inl ?_) (tail hs))
    obtain ⟨c, hc, rfl⟩ := List.mem_map.1 hp
    exact (h.top hs (.head _)).reference (mem_references_of_span hc)
  | @handsInline c cs rest hs =>
    refine moved rfl (one nofun (one (fun p hp => .inl ?_) (tail hs)))
    exact carried (f := .runAll (c :: cs)) (by rw [hs]; exact .head _) (.tail _ hp)
  | @handsDispatcher c cs rest hs =>
    refine moved rfl (one (fun p hp => .inl ?_) (tail hs))
    exact carried (f := .runAll (c :: cs)) (by rw [hs]; exact .head _) (.tail _ hp)
  | @collapses left right rest hs =>
    refine moved rfl (one (fun p hp => .inl ?_) (tail hs))
    obtain ⟨_, hmoved, rfl⟩ := List.mem_map.1 hp
    obtain ⟨c, hc, rfl⟩ := List.mem_map.1 hmoved
    exact (h.top hs (.head _)).reference (mem_references_of_span (c := c) hc)
  | @addsAlong q₀ q cs rest hs =>
    refine moved rfl (one (fun p hp => .inl ?_) (one nofun (tail hs)))
    refine carried (f := .addContinuations q₀ cs) (by rw [hs]; exact .head _) ?_
    simpa [Frame.carries, Function.comp_def, Continuation.reparent] using hp
  | @addsLate q₀ cs rest hs =>
    refine moved rfl (one (fun p hp => .inl ?_) (tail hs))
    exact carried (f := .addContinuations q₀ cs) (by rw [hs]; exact .head _) hp

/-- What is queued after a step was owned or is made. -/
theorem queued (h : m.Sound) (hstep : Step act m.state l.thread l.oracle s') {c : ℕ × Option ℕ}
    (hc : c ∈ s'.queue) (hp : p ∈ c.1 :: c.2.toList) : m.Alive p ∨ m.state.next ≤ p := by
  have old (hc : c ∈ m.state.queue) : m.Alive p ∨ m.state.next ≤ p := .inl (.root (.queue hc hp))
  cases hstep with
  | idle | ticks => exact old (List.mem_of_mem_eraseIdx hc)
  | decides hs hinput | invokes hs hinput => exact old (hinput.sameRest.queue ▸ hc)
  | makeTaskInline _ _ hf | thenDo _ _ _ hf => exact old (hf.sameRest.queue ▸ hc)
  | @makeTaskDispatcher _ _ _ _ _ _ _ toRun _ _ _ hf =>
    rcases List.mem_append.1 hc with hc | hc
    · exact old (hf.sameRest.queue ▸ hc)
    · obtain rfl := List.mem_singleton.1 hc
      rw [List.mem_singleton.1 hp, hf.toRun_eq]
      exact .inr le_rfl
  | @handsDispatcher c₀ cs rest hs =>
    rcases List.mem_append.1 hc with hc | hc
    · exact old hc
    · obtain rfl := List.mem_singleton.1 hc
      obtain rfl | rfl : p = c₀.continuation ∨ p = c₀.parent := by simpa using hp
      · exact .inl (carried (f := .runAll (c₀ :: cs)) (by rw [hs]; exact .head _) (.head _))
      · exact .inl (h.top hs (.head _))
  | _ => exact old hc

/-- **What a step writes is owned**, or is made by it. -/
theorem written (h : m.Sound) (hstep : Step act m.state l.thread l.oracle s')
    (hused : ∀ p ∈ used act m.state l, p ∈ m.handles) (hp : s'.heap p ≠ m.state.heap p) :
    m.Alive p ∨ m.state.next ≤ p := by
  have one {q : ℕ} {x : Payload U V E} (heap : s'.heap = update m.state.heap q x)
      (hq : m.Alive q ∨ m.state.next ≤ q) : m.Alive p ∨ m.state.next ≤ p := by
    by_cases e : p = q
    · rwa [e]
    · exact absurd (by rw [heap, update_of_ne e]) hp
  cases hstep with
  | idle | mainReturns | emits | ticksNothing | ticks | completed | ranAll | handsInline
  | handsDispatcher | addsNothing | addsAlong | addsLate | unlocks | unwrapsTask | runBare
    | refuses =>
    exact absurd rfl hp
  | invokes _ hinput => exact absurd (congrFun hinput.heap_next.1 p) hp
  | returns hs =>
    exact one rfl
      (.inl (h.borrowed (f := .doWork _) (by rw [hs]; exact .tail _ (.head _)) (.head _)))
  | @completes u rest q r k hs ha =>
    exact one rfl (.inl (.root (.handle (hused q (by simp [used, hs, ha])))))
  | @unwrapsError q₀ q source rest e hs hw =>
    have hnone := h.settled.result_eq_none h.finishing hs
    exact one rfl (.inl ((h.top hs (.head _)).reference (mem_references_of_unwrap hw hnone)))
  | @decides q parent rest s₁ r hs hinput =>
    have hheap : ((s₁.setResult q r).setStack l.thread (.doCompletion q :: rest)).heap =
        update m.state.heap q { m.state.heap q with result := some r } := by
      rw [← hinput.heap_next.1]
      rfl
    exact one hheap (.inl (h.top hs (.head _)))
  | constructs => exact one rfl (.inr le_rfl)
  | makeTaskInline _ _ hf | makeTaskDispatcher _ _ hf | thenDo _ _ _ hf =>
    exact .inr (not_lt.1 fun hlt => hp (hf.heap_of_lt hlt))
  | unwrapped hs | completesPayload hs | collapses hs | stores hs =>
    exact one rfl (.inl (h.top hs (.head _)))

end Memory.Sound

/-! ## Runs -/

section

variable [DecidableEq T] [Fintype T] [ErrorTraits E] {act : U → O → Action U V E}

omit [DecidableEq T] [ErrorTraits E] in
/-- A step changes the stack of one thread. -/
theorem Step.others [DecidableEq T] [ErrorTraits E] {s s' : State T U V E} {t t' : T} {o : O}
    (hstep : Step act s t o s') (ht : t' ≠ t) : s'.stack t' = s.stack t' := by
  cases hstep with
  | decides _ hinput | invokes _ hinput =>
    exact (update_of_ne ht ..).trans (congrFun hinput.sameRest.stack t')
  | makeTaskInline _ _ hf | makeTaskDispatcher _ _ hf | thenDo _ _ _ hf =>
    exact (update_of_ne ht ..).trans (congrFun hf.sameRest.stack t')
  | _ => exact update_of_ne ht ..

namespace Memory

variable {m m' : Memory T U V E} {l : Label T O × List ℕ} {p : ℕ}

/-- What a step of the memory does. -/
structure Stepped (act : U → O → Action U V E) (m : Memory T U V E) (l : Label T O)
    (m' : Memory T U V E) : Prop where
  used : ∀ p ∈ used act m.state l, p ∈ m.handles
  handles : ∀ p ∈ m'.handles, p ∈ m.handles ∨ p ∈ Tasks.granted act m.state l
  step : Step act m.state l.thread l.oracle m'.state
  scopes : m'.scopes = update m.scopes l.thread
    (adjust (m.scopes l.thread) (m.state.stack l.thread) (m'.state.stack l.thread))

theorem step_eq_some (h : m.step act l = some m') :
    Tasks.step act m.state l.1 = some m'.state ∧ m.Stepped act l.1 m' := by
  obtain ⟨⟨hused, hhandles⟩, h⟩ := Option.ite_none_right_eq_some.1 h
  obtain ⟨s, hs, rfl⟩ := Option.map_eq_some_iff.1 h
  exact ⟨hs, hused, hhandles, step_sound hs, rfl⟩

/-- The runs of the memory are runs of the machine. -/
theorem reach_state {ok : Memory T U V E → Label T O × List ℕ → Prop}
    (h : Reach (Memory.step act) ok m m') : Reach (Tasks.step act) anyStep m.state m'.state := by
  induction h with
  | refl => exact .refl
  | tail _ _ hstep ih => exact ih.tail trivial (step_eq_some hstep).1

/-- **What owns a payload after a step** owned it, or it is made. -/
theorem Sound.root {l : Label T O} (h : m.Sound) (hstep : m.Stepped act l m') (hp : m'.Root p) :
    m.Alive p ∨ m.state.next ≤ p := by
  cases hp with
  | handle hp =>
    rcases hstep.handles p hp with hold | hnew
    · exact .inl (.root (.handle hold))
    · exact h.granted hnew
  | @scope t c hc hp =>
    have old {t : T} (hc : c ∈ m.scopes t) : m.Alive p ∨ m.state.next ≤ p :=
      .inl (.root (.scope hc hp))
    rw [hstep.scopes, update_apply] at hc
    split at hc
    · unfold adjust at hc
      split_ifs at hc with hbegins hends
      · rcases List.mem_cons.1 hc with rfl | hc
        · exact h.opened hstep.step hbegins hp
        · exact old hc
      · exact old (List.mem_of_mem_tail hc)
      · exact old hc
    · exact old hc
  | queue hc hp => exact h.queued hstep.step hc hp
  | frame hf hp => exact h.carries hstep.step hf hp

/-- **What is destroyed stays destroyed.** -/
theorem Sound.alive {l : Label T O} (h : m.Sound) (hstep : m.Stepped act l m') (hp : m'.Alive p) :
    m.Alive p ∨ m.state.next ≤ p := by
  refine Reached.changed hp (fun q hq => h.root hstep hq)
    (fun q r hr => h.references hstep.step hstep.used hr) fun q r hq hr => ?_
  rw [h.settled.wellFormed.blank q hq] at hr
  cases hr

theorem Sound.step (h : m.Sound) (ok : m.Outlives act l) (hstep : m.step act l = some m') :
    m'.Sound where
  settled := h.settled.step (step_eq_some hstep).2.step
  finishing := h.finishing.step h.settled.wellFormed (step_eq_some hstep).2.step
  backed t := by
    have hs := (step_eq_some hstep).2
    by_cases e : t = l.1.thread
    · subst e
      rw [hs.scopes, update_self]
      exact hs.step.backed h.settled.wellFormed (h.backed _)
    · rw [hs.scopes, update_of_ne e, hs.step.others e]
      exact (h.backed t).mono (hs.step.redirect_mono h.settled.wellFormed)
  outlived := ok m' hstep

theorem Sound.of_reach (h : Reach (Memory.step act) (Memory.Outlives act) m m') (hm : m.Sound) :
    m'.Sound :=
  h.invariant hm fun _ _ _ ha ok hstep => ha.step ok hstep

/-- What a step touches is owned: a payload that is not stays as it is, and is not owned again. -/
theorem Sound.untouched {l : Label T O} (h : m.Sound) (hstep : m.Stepped act l m')
    (hlt : p < m.state.next) (hp : ¬ m.Alive p) :
    p < m'.state.next ∧ ¬ m'.Alive p ∧ m'.state.heap p = m.state.heap p := by
  refine ⟨hlt.trans_le hstep.step.extends.next_le, fun hp' => ?_, ?_⟩
  · rcases h.alive hstep hp' with hold | hnew
    · exact hp hold
    · omega
  · by_contra hne
    rcases h.written hstep.step hstep.used hne with hold | hnew
    · exact hp hold
    · omega

/-- **What is destroyed is never touched again**, over a run. -/
theorem Sound.gone (h : m.Sound) (hrun : Reach (Memory.step act) (Memory.Outlives act) m m')
    (hlt : p < m.state.next) (hp : ¬ m.Alive p) :
    ¬ m'.Alive p ∧ m'.state.heap p = m.state.heap p := by
  have hinv : m'.Sound ∧ p < m'.state.next ∧ ¬ m'.Alive p ∧ m'.state.heap p = m.state.heap p := by
    refine hrun.invariant (I := fun a => a.Sound ∧ p < a.state.next ∧ ¬ a.Alive p ∧
      a.state.heap p = m.state.heap p) ⟨h, hlt, hp, rfl⟩ fun a l b ⟨ha, hlt, hp, heq⟩ ok hstep => ?_
    obtain ⟨hlt', hp', heq'⟩ := ha.untouched (step_eq_some hstep).2 hlt hp
    exact ⟨ha.step ok hstep, hlt', hp', heq'.trans heq⟩
  exact hinv.2.2

omit [DecidableEq T] [ErrorTraits E] in
theorem Sound.owned (h : m.Sound) {t : T} {f : Frame U V E} (hf : f ∈ m.state.stack t)
    (hp : p ∈ f.borrows ++ f.carries) : m.Alive p := by
  rcases List.mem_append.1 hp with hp | hp
  · exact h.borrowed hf hp
  · exact carried hf hp

end Memory

/-- **No payload dangles.** As long as user code destroys no task or source while a member function
of it is under way, what the calls of every stack use is owned, the parents of continuations among
it, so that `parent.lock()` gives the parent. A payload that is not owned any more is never owned,
used or written again. -/
theorem never_dangles (act : U → O → Action U V E) (main : T → U) {m : Memory T U V E}
    (h : Reach (Memory.step act) (Memory.Outlives act) (Memory.init main) m) :
    Reach (Tasks.step act) anyStep (Tasks.init main) m.state ∧
      (∀ t, ∀ f ∈ m.state.stack t, ∀ p ∈ f.borrows ++ f.carries, m.Alive p) ∧
      ∀ p < m.state.next, ¬ m.Alive p →
        ∀ m', Reach (Memory.step act) (Memory.Outlives act) m m' →
          ¬ m'.Alive p ∧ m'.state.heap p = m.state.heap p ∧
            ∀ t, ∀ f ∈ m'.state.stack t, p ∉ f.borrows ++ f.carries := by
  have hsound : m.Sound := .of_reach h (.init main)
  refine ⟨Memory.reach_state h, fun t f hf p hp => hsound.owned hf hp, fun p hlt hp m' hrun => ?_⟩
  obtain ⟨hdead, heq⟩ := hsound.gone hrun hlt hp
  exact ⟨hdead, heq, fun t f hf hpf => hdead ((hsound.of_reach hrun).owned hf hpf)⟩

end

/-! ## A source that is destroyed while it completes -/

/-- A program that attaches two continuations to a source, and completes it. -/
inductive Release
  | main
  | constructed
  | watched
  | watchedTwice
  | done

def Release.act : Release → Unit → Action Release ℕ ErrorCode
  | .main, _ => .source fun _ => .constructed
  | .constructed, _ =>
    .thenDo 0 .inlineScheduler false false false (fun _ => .done) fun _ => .watched
  | .watched, _ =>
    .thenDo 0 .inlineScheduler false false false (fun _ => .done) fun _ => .watchedTwice
  | .watchedTwice, _ => .complete 0 (.ok (.val 1)) fun _ => .done
  | .done, _ => .ret (.value .void)

/-- The run until the second continuation is about to be run. The first one is invoked by the ninth
step, and the handles from there on are `handles`. -/
def Release.trace (handles : List ℕ) : List (Label Unit Unit × List ℕ) :=
  List.replicate 8 (⟨(), (), 0⟩, [0]) ++ List.replicate 4 (⟨(), (), 0⟩, handles)

instance [Fintype T] (m : Memory T U V E) : Decidable m.Outlived :=
  inferInstanceAs (Decidable (∀ t, ∀ c ∈ m.scopes t, ∀ p ∈ c.object, p ∈ m.handles))

/-- The check of `Outlives`. -/
def outlivesCheck [DecidableEq T] [Fintype T] [ErrorTraits E] (act : U → O → Action U V E)
    (m : Memory T U V E) (l : Label T O × List ℕ) : Bool :=
  (m.step act l).all fun m' => decide m'.Outlived

theorem outlives_of_check [DecidableEq T] [Fintype T] [ErrorTraits E] {act : U → O → Action U V E}
    {m : Memory T U V E} {l : Label T O × List ℕ} (h : outlivesCheck act m l = true) :
    m.Outlives act l := by
  intro m' hstep
  rw [outlivesCheck, hstep] at h
  exact of_decide_eq_true h

/-- When the source is kept, the parent of the second continuation is there. -/
theorem never_dangles_kept : ∃ m, Reach (Memory.step Release.act) (Memory.Outlives Release.act)
    (Memory.init fun _ : Unit => .main) m ∧
      (∃ f ∈ m.state.stack (), f.borrows = [0] ∧ f.carries = [2]) ∧ m.Alive 0 := by
  have hrun : (runWhile (outlivesCheck Release.act) (Memory.step Release.act)
      (Memory.init fun _ : Unit => .main) (Release.trace [0])).map
        (fun m => (m.state.stack ()).map fun f => (f.borrows, f.carries)) =
      some [([0], [2]), ([], [])] := by decide
  obtain ⟨m, hreach, hseen⟩ := exists_reach_of_runWhile (fun _ _ => outlives_of_check) hrun
  obtain ⟨f, hf, hp⟩ := List.mem_map.1 (hseen ▸ List.mem_cons_self)
  obtain ⟨hborrows, hcarries⟩ := Prod.mk.inj hp
  refine ⟨m, hreach, ⟨f, hf, hborrows, hcarries⟩, (never_dangles _ _ hreach).2.1 () f hf 0 ?_⟩
  rw [hborrows]
  exact .head _

/-- **When the first continuation destroys the source**, the second one is run without its
parent. -/
theorem dangles_released : ∃ m, Reach (Memory.step Release.act) anyStep
    (Memory.init fun _ : Unit => .main) m ∧
      (∃ f ∈ m.state.stack (), f.borrows = [0] ∧ f.carries = [2]) ∧ ¬ m.Alive 0 := by
  have hrun : (run (Memory.step Release.act) (Memory.init fun _ : Unit => .main)
      (Release.trace [])).map (fun m => ((m.state.stack ()).map fun f => (f.borrows, f.carries),
        m.handles ++ (m.scopes ()).flatMap Scope.locals ++ (m.state.heap 2).references,
        m.state.queue.length)) = some ([([0], [2]), ([], [])], [], 0) := by decide
  obtain ⟨m, hreach, hseen⟩ := exists_reach_of_run hrun
  simp only [Prod.mk.injEq, List.append_eq_nil_iff, List.length_eq_zero_iff] at hseen
  obtain ⟨hstack, ⟨⟨hhandles, hlocals⟩, hreferences⟩, hqueue⟩ := hseen
  obtain ⟨f, hf, hp⟩ := List.mem_map.1 (hstack ▸ List.mem_cons_self)
  obtain ⟨hborrows, hcarries⟩ := Prod.mk.inj hp
  refine ⟨m, hreach, ⟨f, hf, hborrows, hcarries⟩, ?_⟩
  -- the second continuation is all that is owned, and it refers to nothing
  refine not_reached (S := (· = 2)) (fun p hp => ?_) (fun q p hq hp => ?_) (by decide)
  · cases hp with
    | handle hp =>
      rw [hhandles] at hp
      cases hp
    | @scope t c hc hp =>
      have hmem : p ∈ (m.scopes ()).flatMap Scope.locals := List.mem_flatMap.2 ⟨c, hc, hp⟩
      rw [hlocals] at hmem
      cases hmem
    | queue hc =>
      rw [hqueue] at hc
      cases hc
    | @frame t g hg hp =>
      have hmem : (g.borrows, g.carries) ∈ (m.state.stack ()).map fun f => (f.borrows, f.carries) :=
        List.mem_map_of_mem hg
      rw [hstack] at hmem
      simp only [List.mem_cons, Prod.mk.injEq, List.not_mem_nil, or_false] at hmem
      rcases hmem with ⟨-, hg⟩ | ⟨-, hg⟩
      · rw [hg] at hp
        exact List.mem_singleton.1 hp
      · rw [hg] at hp
        cases hp
  · subst hq
    rw [hreferences] at hp
    cases hp

end Arcana.Tasks
