import Arcana.Tasks.Lifetimes
import Arcana.Tasks.Waits

/-!
# The release of payloads

A payload is destroyed when the last `shared_ptr` to it is, so that payloads that refer to each
other in a circle are never destroyed. The library makes no such circle: the references between
payloads have no cycle in every run that respects the types and in which no collapse closes a circle
of tasks that wait for each other. Counting references destroys exactly what is not owned any more
then (`counts_suffice`).

A cycle of references lies among the payloads that are stored in continuations, or outside of them
(`State.Stored`). Among them, to be referred to is to wait (`State.Waits`). The references outside
are those of redirects, which lead to payloads of one type and come to an end, and those of results,
which lead to a smaller type; and nothing but its continuation refers to the payload inside of
`task_factory` (`Discreet`).

* `Memory.Discreet.step` says that user code, which names only what it has a handle to, never gets
  hold of the payload of the continuation inside of `task_factory`.
* `Settled.stored_not_completed` and `Settled.stored_result` separate the payloads in continuations
  from those that others refer to.
* `State.depth` is the measure of the references outside: how deep tasks are nested in the type.
* `Memory.Tidy` collects what holds in every state of a run that closes no circle, and
  `Memory.Tidy.acyclic` says that the references have no cycle then.
* `counts_suffice` is the result about runs, and `leaks_held` a run in which a callable returns its
  own task.
-/

namespace Arcana.Tasks

open Function Foundations Relation

variable {T O U V E κ : Type*}

/-! ## Payloads that are known outside -/

/-- The payload is not that of the continuation inside of `task_factory`. -/
structure State.Public (s : State T U V E) (p : ℕ) : Prop where
  lt : p < s.next
  work : ∀ source, (s.heap p).work ≠ some (.unwrap source)

/-- What the payload refers to, apart from continuations, is known outside. -/
structure Payload.Discreet (s : State T U V E) (x : Payload U V E) : Prop where
  standIn : ∀ source, x.work = some (.unwrap source) → s.Public source
  result : ∀ r, x.result = some r → ∀ p ∈ resultTasks r, s.Public p
  redirect : ∀ p, x.taskRedirect = some p → s.Public p

/-- The task that a stand-in is collapsed into is known outside. -/
def Frame.Discreet (s : State T U V E) : Frame U V E → Prop
  | .collapseLeftIntoRight _ right => s.Public right
  | _ => True

/-- **Only a continuation refers to the payload of the continuation inside of `task_factory`.** -/
structure Memory.Discreet (m : Memory T U V E) : Prop where
  handles : ∀ p ∈ m.handles, m.state.Public p
  payload : ∀ p, (m.state.heap p).Discreet m.state
  frames : ∀ t, ∀ f ∈ m.state.stack t, f.Discreet m.state

section

variable {s s' : State T U V E} {p : ℕ} {x : Payload U V E}

theorem State.Public.mono (h : s.Public p) (he : s.Extends s') : s'.Public p where
  lt := h.lt.trans_le he.next_le
  work source := by
    rw [(he.payload p h.lt).work]
    exact h.work source

namespace Payload.Discreet

theorem mono (h : x.Discreet s) (he : s.Extends s') : x.Discreet s' where
  standIn source hw := (h.standIn source hw).mono he
  result r hr p hp := (h.result r hr p hp).mono he
  redirect p hp := (h.redirect p hp).mono he

theorem setResult (h : x.Discreet s) {r : Expected V E} (hr : ∀ p ∈ resultTasks r, s.Public p) :
    Payload.Discreet s { x with result := some r } where
  standIn := h.standIn
  result _ e := Option.some.inj e ▸ hr
  redirect := h.redirect

theorem cannibalized (h : x.Discreet s) {q : Option ℕ} (hq : ∀ p, q = some p → s.Public p) :
    (x.cannibalized q).Discreet s where
  standIn := h.standIn
  result := h.result
  redirect := hq

theorem store (h : x.Discreet s) (cs : List Continuation) :
    Payload.Discreet s { x with continuation := x.continuation.append cs } where
  standIn := h.standIn
  result := h.result
  redirect := h.redirect

/-- A payload that nothing has happened to. -/
theorem fresh {work : Option (Work U V E)} {st : ContinuationStorage}
    (hwork : ∀ source, work = some (.unwrap source) → s.Public source) :
    Payload.Discreet s { work, continuation := st } where
  standIn := hwork
  result := nofun
  redirect := nofun

end Payload.Discreet

theorem Frame.Discreet.mono {f : Frame U V E} (h : f.Discreet s) (he : s.Extends s') :
    f.Discreet s' := by
  cases f with
  | collapseLeftIntoRight => exact State.Public.mono h he
  | _ => trivial

end

theorem Memory.Discreet.init (main : T → U) : (Memory.init main : Memory T U V E).Discreet where
  handles := nofun
  payload p := .fresh nofun
  frames t f hf := by
    obtain rfl := List.mem_singleton.1 hf
    trivial

/-- What `task_factory` makes is discreet, and what it returns is known outside. -/
theorem Factory.discreet {s s₁ : State T U V E} {work : Work U V E} {unwrap : Bool}
    {toRun toReturn : ℕ}
    (hf : Factory s work unwrap s₁ toRun toReturn) (hwork : ∀ source, work ≠ .unwrap source) :
    (∀ p, s₁.heap p = s.heap p ∨ (s₁.heap p).Discreet s₁) ∧
      s₁.Public (if unwrap then s.next + 1 else s.next) := by
  have hwork' {P : ℕ → Prop} : ∀ source, some work = some (.unwrap source) → P source :=
    fun source e => absurd (Option.some.inj e) (hwork source)
  cases hf with
  | plain =>
    refine ⟨fun p => ?_, Nat.lt_succ_self _, fun source => ?_⟩
    · simp only [update_apply]
      split
      · exact .inr (.fresh hwork')
      · exact .inl rfl
    · simpa using hwork source
  | unwrap =>
    refine ⟨fun p => ?_, Nat.lt_succ_of_lt (Nat.lt_succ_self _), fun source => ?_⟩
    · simp only [update_apply]
      split_ifs
      · refine .inr (.fresh fun source e => ?_)
        cases e
        exact ⟨Nat.lt_succ_of_lt (Nat.lt_succ_self _), fun source => by simp⟩
      · exact .inr (.fresh nofun)
      · exact .inr (.fresh hwork')
      · exact .inl rfl
    · simp

namespace Memory.Discreet

variable [DecidableEq T] {m m' : Memory T U V E} {t : T} {fs : List (Frame U V E)}

/-- What a step has to establish. -/
theorem next (h : m.Discreet) (he : m.state.Extends m'.state)
    (handles : ∀ p ∈ m'.handles, m'.state.Public p)
    (payload : ∀ p, m'.state.heap p = m.state.heap p ∨ (m'.state.heap p).Discreet m'.state)
    (stack : m'.state.stack = update m.state.stack t fs)
    (frames : ∀ f ∈ fs, f ∈ m.state.stack t ∨ f.Discreet m'.state) : m'.Discreet where
  handles := handles
  payload p := by
    rcases payload p with heq | hp
    · rw [heq]
      exact (h.payload p).mono he
    · exact hp
  frames t' f hf := by
    rw [stack, update_apply] at hf
    split at hf
    · rcases frames f hf with hold | hnew
      · exact (h.frames _ f hold).mono he
      · exact hnew
    · exact (h.frames _ f hf).mono he

variable [Fintype T] [ErrorTraits E] {act : U → O → Action U V E} {l : Label T O}

/-- The handles that user code gets are of payloads that are known outside. -/
theorem granted {s' : State T U V E} (h : m.Discreet) (hw : WellFormed m.state)
    (hstep : Step act m.state l.thread l.oracle s') {p : ℕ} (hp : p ∈ granted act m.state l) :
    s'.Public p := by
  have he := hstep.extends
  have made {s₁ : State T U V E} {work : Work U V E} {unwrap : Bool} {toRun toReturn : ℕ}
      (hf : Factory m.state work unwrap s₁ toRun toReturn) (hwork : ∀ source, work ≠ .unwrap source)
      (heap : s'.heap = s₁.heap) (next : s'.next = s₁.next)
      (hp : p = if unwrap then m.state.next + 1 else m.state.next) : s'.Public p := by
    obtain ⟨hlt, hbare⟩ := (hf.discreet hwork).2
    rw [hp]
    exact ⟨next ▸ hlt, fun source => by rw [heap]; exact hbare source⟩
  have reads {q : ℕ} {parent : Option ℕ} {rest : List (Frame U V E)} {s₁ : State T U V E}
      {x : Expected V E ⊕ U} (hs : m.state.stack l.thread = .run q parent :: rest)
      (hinput : WorkInput m.state q parent s₁ x) : m.state.Public p := by
    cases hinput with
    | start hwork =>
      cases parent with
      | none => simp [Tasks.granted, hs] at hp
      | some => simp [Tasks.granted, hs, hwork] at hp
    | @continuation _ _ _ q' input hwork hparent hresult =>
      subst hparent
      have hp : p ∈ resultTasks input := by simpa [Tasks.granted, hs, hwork, hresult] using hp
      exact (h.payload q').result input hresult p hp
  cases hstep with
  | idle hs | ranAll hs | addsNothing hs | stores hs | unlocks hs | refuses hs | completed hs
    | unwrapped hs
  | completesPayload hs | handsDispatcher hs | collapses hs | addsLate hs | addsAlong hs
    | handsInline hs =>
    simp [Tasks.granted, hs] at hp
  | mainReturns hs ha | returns hs ha | emits hs ha | ticksNothing hs ha | completes hs ha
    | ticks hs ha =>
    simp [Tasks.granted, hs, ha] at hp
  | runBare hs hbare => exact absurd hbare (hw.top hs).1.work
  | unwrapsError hs hwork | unwrapsTask hs hwork => simp [Tasks.granted, hs, hwork] at hp
  | decides hs hinput | invokes hs hinput => exact (reads hs hinput).mono he
  | constructs hs ha =>
    simp only [Tasks.granted, hs, ha, List.mem_singleton] at hp
    subst hp
    exact ⟨Nat.lt_succ_self _, fun source => by simp⟩
  | makeTaskInline hs ha hf | makeTaskDispatcher hs ha hf | thenDo hs ha _ hf =>
    simp only [Tasks.granted, hs, ha, List.mem_singleton] at hp
    exact made hf nofun rfl rfl hp

/-- **Every step is discreet**: user code names what it has handles to. -/
theorem step (h : m.Discreet) (hw : WellFormed m.state) (hstep : m.Stepped act l m') :
    m'.Discreet := by
  obtain ⟨hused, hhandles, hrule, -⟩ := hstep
  have he := hrule.extends
  have handles : ∀ p ∈ m'.handles, m'.state.Public p := fun p hp => by
    rcases hhandles p hp with hold | hnew
    · exact (h.handles p hold).mono he
    · exact h.granted hw hrule hnew
  generalize hs' : m'.state = s' at hrule he handles
  have next {fs : List (Frame U V E)} (payload : ∀ p, s'.heap p = m.state.heap p ∨
    (s'.heap p).Discreet s')
      (stack : s'.stack = update m.state.stack l.thread fs)
      (frames : ∀ f ∈ fs, f ∈ m.state.stack l.thread ∨ f.Discreet s') : m'.Discreet := by
    subst hs'
    exact h.next he handles payload stack frames
  have move {fs : List (Frame U V E)} (heap : s'.heap = m.state.heap)
      (stack : s'.stack = update m.state.stack l.thread fs)
      (frames : ∀ f ∈ fs, f ∈ m.state.stack l.thread ∨ f.Discreet s') : m'.Discreet :=
    next (fun p => .inl (congrFun heap p)) stack frames
  have write {q : ℕ} {x : Payload U V E} {fs : List (Frame U V E)}
      (heap : s'.heap = update m.state.heap q x) (hx : x.Discreet m.state)
      (stack : s'.stack = update m.state.stack l.thread fs)
      (frames : ∀ f ∈ fs, f ∈ m.state.stack l.thread ∨ f.Discreet s') : m'.Discreet := by
    refine next (fun p => ?_) stack frames
    rw [heap, update_apply]
    split
    · exact .inr (hx.mono he)
    · exact .inl rfl
  have one {g : Frame U V E} {fs : List (Frame U V E)} (hg : g.Discreet s')
      (hfs : ∀ f ∈ fs, f ∈ m.state.stack l.thread ∨ f.Discreet s') :
      ∀ f ∈ g :: fs, f ∈ m.state.stack l.thread ∨ f.Discreet s' :=
    List.forall_mem_cons.2 ⟨.inr hg, hfs⟩
  have tail {f : Frame U V E} {rest : List (Frame U V E)}
    (hs : m.state.stack l.thread = f :: rest) :
      ∀ g ∈ rest, g ∈ m.state.stack l.thread ∨ g.Discreet s' := WellFormed.forall_tail_mem_or hs
  have made {work : Work U V E} {unwrap : Bool} {s₁ : State T U V E} {toRun toReturn : ℕ}
      (hf : Factory m.state work unwrap s₁ toRun toReturn) (hwork : ∀ source, work ≠ .unwrap source)
      (heap : s'.heap = s₁.heap) (hnext : s'.next = s₁.next) (p : ℕ) :
      s'.heap p = m.state.heap p ∨ (s'.heap p).Discreet s' := by
    rw [heap]
    exact ((hf.discreet hwork).1 p).imp_right (·.mono (.of_heap_eq heap hnext))
  cases hrule with
  | idle => exact move rfl rfl (one trivial (List.forall_mem_nil _))
  | mainReturns => exact move rfl rfl (List.forall_mem_nil _)
  | @returns u q rest y r hs ha hy =>
    refine write rfl ((h.payload q).setResult fun p hp => h.handles p (hused p ?_)) rfl
      (one trivial fun g hg => .inl (by rw [hs]; exact .tail _ (.tail _ hg)))
    simp [used, hs, ha, tasks_of_outputWrapper hy hp]
  | refuses hs =>
    exact move rfl rfl (one trivial fun g hg => .inl (by rw [hs]; exact .tail _ (.tail _ hg)))
  | emits hs | ticksNothing hs | completed hs | runBare hs =>
    exact move rfl rfl (one trivial (tail hs))
  | ticks hs | handsInline hs | addsAlong hs =>
    exact move rfl rfl (one trivial (one trivial (tail hs)))
  | handsDispatcher hs | addsLate hs => exact move rfl rfl (one trivial (tail hs))
  | ranAll hs | addsNothing hs | unlocks hs => exact move rfl rfl (tail hs)
  | @completes u rest q r k hs ha =>
    refine write rfl ((h.payload q).setResult fun p hp => h.handles p (hused p ?_)) rfl
      (one trivial (one trivial (tail hs)))
    simp [used, hs, ha, hp]
  | @unwrapsError l' q source rest e hs =>
    exact write rfl ((h.payload source).setResult (List.forall_mem_nil _)) rfl
      (one trivial (one trivial (tail hs)))
  | @unwrapped q rest hs =>
    exact write rfl ((h.payload q).setResult (List.forall_mem_nil _)) rfl (one trivial (tail hs))
  | @decides q parent rest s₁ r hs hinput =>
    have hheap : ((s₁.setResult q r).setStack l.thread (.doCompletion q :: rest)).heap =
        update m.state.heap q { m.state.heap q with result := some r } := by
      rw [← hinput.heap_next.1]
      rfl
    obtain ⟨e, rfl⟩ : ∃ e, r = .error e := by
      generalize hy : Sum.inl r = y at hinput
      cases hinput with
      | start | continuation => exact exists_error_of_wrapCallable hy.symm
    exact write hheap ((h.payload q).setResult (List.forall_mem_nil _))
      (congrArg (update · _ _) hinput.sameRest.stack) (one trivial (tail hs))
  | invokes hs hinput =>
    exact move hinput.heap_next.1 (congrArg (update · _ _) hinput.sameRest.stack)
      (one trivial (one trivial (tail hs)))
  | constructs hs => exact write rfl (.fresh (by simp)) rfl (one trivial (tail hs))
  | makeTaskInline hs _ hf =>
    exact next (made hf (by simp) rfl rfl) (congrArg (update · _ _) hf.sameRest.stack)
      (one trivial (one trivial (tail hs)))
  | makeTaskDispatcher hs _ hf =>
    exact next (made hf (by simp) rfl rfl) (congrArg (update · _ _) hf.sameRest.stack)
      (one trivial (tail hs))
  | thenDo hs _ _ hf =>
    exact next (made hf (by simp) rfl rfl) (congrArg (update · _ _) hf.sameRest.stack)
      (one trivial (one trivial (tail hs)))
  | @unwrapsTask l' q source r rest hs _ hr =>
    have hright : m.state.Public r := (h.payload q).result _ hr r (.head _)
    exact move rfl rfl (one (hright.mono he) (one trivial (tail hs)))
  | @completesPayload q rest hs =>
    exact write rfl ((h.payload q).cannibalized (by simp)) rfl (one trivial (tail hs))
  | @collapses left right rest hs =>
    refine write rfl ((h.payload left).cannibalized fun p e => ?_) rfl (one trivial (tail hs))
    cases e
    exact h.frames _ (.collapseLeftIntoRight left right) (by rw [hs]; exact .head _)
  | @stores q cs rest hs => exact write rfl ((h.payload q).store cs) rfl (tail hs)

end Memory.Discreet

/-! ## Payloads in continuations -/

/-- The payload is run by a continuation that is stored in a payload, or it is the stand-in that
this completes. -/
def State.Stored (s : State T U V E) (p : ℕ) : Prop :=
  ∃ q, ∃ c ∈ (s.heap q).continuation.span,
    c.continuation = p ∨ (s.heap c.continuation).work = some (.unwrap p)

section

variable [Fintype T] {s : State T U V E} {p q : ℕ}

/-- What is stored in a payload owes what its continuation completes. -/
theorem owes_of_stored {c : Continuation} {work : ℕ → Option (Work U V E)} {cs : List Continuation}
    (hc : c ∈ cs) (hp : c.continuation = p ∨ work c.continuation = some (.unwrap p)) :
    1 ≤ owesAll work p cs := by
  have hone : 1 ≤ owes work p c.continuation := by
    rcases hp with hp | hp
    · simp [owes, hp]
    · simp [owes_of_unwrap hp]
  exact hone.trans (List.single_le_sum (by simp) _ (List.mem_map_of_mem hc))

/-- Where a payload is stored, and that no user code completes it. -/
theorem Settled.stored (h : Settled s) (hp : s.Stored p) :
    p < s.next ∧ p ∉ s.sources ∧ ∃ q < s.next, (s.heap q).completed = false ∧
      1 ≤ (Weight.owners (fun q => (s.heap q).work) p).payload q (s.heap q) := by
  obtain ⟨q, c, hc, hp⟩ := hp
  obtain ⟨hcompleted, -, hrun⟩ := (h.wellFormed.payload q).stored c hc
  have hq : q < s.next := by
    by_contra hlt
    rw [h.wellFormed.blank q (by omega)] at hc
    cases hc
  refine ⟨?_, ?_, q, hq, hcompleted, ?_⟩
  · rcases hp with rfl | hp
    · exact hrun.lt
    · exact (h.wellFormed.payload _).unwraps p hp
  · rcases hp with rfl | hp
    · exact fun hs => hrun.work (h.apart.bare _ hs)
    · exact h.apart.standIn _ p hp
  · have hone : 1 ≤ owesAll (fun q => (s.heap q).work) p (s.heap q).continuation.span :=
      owes_of_stored hc hp
    exact hone.trans (by simp)

/-- **A payload that is stored has not been completed.** -/
theorem Settled.stored_not_completed (h : Settled s) (hp : s.Stored p) :
    (s.heap p).completed = false := by
  obtain ⟨hlt, hsource, q, hq, hcompleted, hone⟩ := h.stored hp
  by_contra hc
  have hc : (s.heap p).completed = true := by simpa using hc
  have hne : q ≠ p := by
    rintro rfl
    rw [hcompleted] at hc
    cases hc
  have hsum := h.owned (fun q => (s.heap q).work) (fun _ _ => rfl) p hsource
  have hle := s.payload_add_payload_le (.owners (fun q => (s.heap q).work) p) hq hlt hne
  have hdone : 1 ≤ (Weight.owners (fun q => (s.heap q).work) p).payload p (s.heap p) := by simp [hc]
  rw [if_pos hlt] at hsum
  omega

/-- **A payload that is stored has no result.** -/
theorem Settled.stored_result (h : Settled s) (hf : Finishing s) (hp : s.Stored p) :
    (s.heap p).result = none := by
  obtain ⟨hlt, hsource, q, hq, -, hone⟩ := h.stored hp
  by_contra hr
  obtain ⟨t, ht⟩ := hf p hr (h.stored_not_completed hp)
  have hsum := h.owned (fun q => (s.heap q).work) (fun _ _ => rfl) p hsource
  have hle := s.payload_add_frame_le (.owners (fun q => (s.heap q).work) p) hq ht
  simp only [Weight.owners_frame, Frame.owes, if_pos] at hle
  rw [if_pos hlt] at hsum
  omega

end

/-! ## The references have no cycle -/

/-- What a payload refers to. -/
theorem mem_references {x : Payload U V E} {p : ℕ} : p ∈ x.references ↔
    (∃ c ∈ x.continuation.span, c.continuation = p) ∨ x.taskRedirect = some p ∨
      (∃ r, x.result = some r ∧ p ∈ resultTasks r) ∨ x.work = some (.unwrap p) ∧ x.result =
      none := by
  have hcaptured : p ∈ x.captured ↔ x.work = some (.unwrap p) ∧ x.result = none := by
    unfold Payload.captured
    split
    · rename_i source hwork hresult
      simp [hwork, hresult, eq_comm]
    · rename_i hne
      exact ⟨nofun, fun ⟨hwork, hresult⟩ => (hne p hwork hresult).elim⟩
  simp only [Payload.references, List.mem_append, List.mem_map, Option.mem_toList, List.mem_flatMap,
    hcaptured, or_assoc]

/-- How deep tasks are nested in a type. -/
def TaskType.depth : TaskType κ → ℕ
  | plain _ _ => 0
  | nested result _ => result.depth + 1

/-- The tasks in a result are of smaller types. -/
theorem Typing.Fits.depth_lt {Γ : Typing κ} {τ : TaskType κ} {r : Expected V E} {p : ℕ}
    (h : Γ.Fits τ r) (hp : p ∈ resultTasks r) : (Γ.made p).depth < τ.depth := by
  cases r with
  | error => cases hp
  | ok v =>
    cases v with
    | void | val => cases hp
    | task q =>
      rw [List.mem_singleton.1 hp]
      cases τ with
      | plain => exact h.elim
      | nested result error =>
        have hmade : Γ.made q = result := h
        rw [hmade]
        exact Nat.lt_succ_self _

open Classical in
/-- The measure of the references outside of continuations. -/
noncomputable def State.depth (Γ : Typing κ) (s : State T U V E) (p : ℕ) : WithTop ℕ :=
  if ∃ source, (s.heap p).work = some (.unwrap source) then ⊤ else WithTop.some (Γ.made p).depth

theorem State.Public.depth {Γ : Typing κ} {s : State T U V E} {p : ℕ} (h : s.Public p) :
    s.depth Γ p = WithTop.some (Γ.made p).depth :=
  if_neg (not_exists.2 h.work)

/-- What holds in every state of a run that closes no circle. -/
structure Memory.Tidy [Fintype T] (Γ : Typing κ) (m : Memory T U V E) : Prop where
  settled : Settled m.state
  finishing : Finishing m.state
  typed : m.state.Typed Γ
  untangled : Untangled m.state
  discreet : m.Discreet

namespace Memory.Tidy

variable [Fintype T] {Γ : Typing κ} {m : Memory T U V E} {p q : ℕ}

/-- What a stored payload refers to is stored, and waits for it. -/
theorem stored (h : m.Tidy Γ) (hq : m.state.Stored q) (hp : p ∈ (m.state.heap q).references) :
    m.state.Stored p ∧ m.state.Waits q p := by
  rcases mem_references.1 hp with ⟨c, hc, rfl⟩ | hredirect | ⟨r, hr, -⟩ | ⟨hwork, -⟩
  · exact ⟨⟨q, c, hc, .inl rfl⟩, .stored hc⟩
  · have hc := h.settled.stored_not_completed hq
    rw [((h.settled.wellFormed.payload q).redirect p hredirect).1] at hc
    cases hc
  · rw [h.settled.stored_result h.finishing hq] at hr
    cases hr
  · refine ⟨?_, .standIn hwork⟩
    obtain ⟨q', c, hc, rfl | hstandIn⟩ := hq
    · exact ⟨q', c, hc, .inr hwork⟩
    · exact absurd hwork (((h.discreet.payload _).standIn q hstandIn).work p)

/-- A reference outside of continuations goes down, or it is a redirect. -/
theorem descends (h : m.Tidy Γ) (hstored : ¬ m.state.Stored p)
    (hp : p ∈ (m.state.heap q).references) :
    m.state.depth Γ p < m.state.depth Γ q ∨
      m.state.depth Γ p = m.state.depth Γ q ∧ m.state.redirect q = some p := by
  have top {source : ℕ} (hwork : (m.state.heap q).work = some (.unwrap source))
    (hpublic : m.state.Public p) :
      m.state.depth Γ p < m.state.depth Γ q := by
    have htop : m.state.depth Γ q = ⊤ := if_pos ⟨_, hwork⟩
    rw [hpublic.depth, htop]
    exact WithTop.coe_lt_top _
  have ofType (hpublic : m.state.Public p) (hq :
    (∀ source, (m.state.heap q).work ≠ some (.unwrap source)) →
      (Γ.made p).depth < (Γ.made q).depth ∨ (Γ.made p).depth = (Γ.made q).depth ∧
      m.state.redirect q = some p) :
      m.state.depth Γ p < m.state.depth Γ q ∨
        m.state.depth Γ p = m.state.depth Γ q ∧ m.state.redirect q = some p := by
    by_cases hwork : ∃ source, (m.state.heap q).work = some (.unwrap source)
    · exact .inl (top hwork.choose_spec hpublic)
    · have hdepth : m.state.depth Γ q = WithTop.some (Γ.made q).depth := if_neg hwork
      rw [hpublic.depth, hdepth]
      exact (hq (not_exists.1 hwork)).imp (WithTop.coe_lt_coe.2) fun e => ⟨by rw [e.1], e.2⟩
  rcases mem_references.1 hp with ⟨c, hc, rfl⟩ | hredirect | ⟨r, hr, htask⟩ | ⟨hwork, -⟩
  · exact absurd ⟨q, c, hc, .inl rfl⟩ hstored
  · refine ofType ((h.discreet.payload q).redirect p hredirect) fun _ => .inr ⟨?_, hredirect⟩
    rw [(h.typed.payload q).redirect p hredirect]
  · refine ofType ((h.discreet.payload q).result r hr p htask) fun _ => .inl ?_
    exact ((h.typed.payload q).result r hr).depth_lt htask
  · exact .inl (top hwork ((h.discreet.payload q).standIn p hwork))

/-- **The references between payloads have no cycle.** -/
theorem acyclic (h : m.Tidy Γ) : Acyclic fun q p => p ∈ (m.state.heap q).references := by
  refine Acyclic.of_closed (S := m.state.Stored) (fun q p hq hp => (h.stored hq hp).1) ?_ ?_
  · exact h.untangled.acyclic.mono fun q p ⟨hq, hp⟩ => (h.stored hq hp).2
  · exact Acyclic.of_measure (f := m.state.depth Γ) h.untangled.rooted.not_cycle
      fun q p ⟨_, hstored, hp⟩ => h.descends hstored hp

/-- Only payloads that were made refer to others. -/
theorem wellFounded (h : m.Tidy Γ) : WellFounded fun q p => p ∈ (m.state.heap q).references := by
  refine h.acyclic.wellFounded ((Set.finite_Iio m.state.next).subset fun q ⟨p, hp⟩ => ?_)
  by_contra hlt
  rw [h.settled.wellFormed.blank q (not_lt.1 hlt)] at hp
  cases hp

end Memory.Tidy

/-! ## Runs -/

section

variable [DecidableEq T] [Fintype T] [ErrorTraits E] {act : U → O → Action U V E} {Γ : Typing κ}
  {m m' : Memory T U V E} {l : Label T O × List ℕ}

/-- The step respects the types, with the assertions on error types, and closes no circle. -/
structure Memory.Straight (act : U → O → Action U V E) (Γ : Typing κ) (m : Memory T U V E)
    (l : Label T O × List ℕ) : Prop where
  wellTyped : WellTyped act Γ m.state l.1
  converts : Converts act Γ m.state l.1
  noCircle : NoCircle m.state l.1

omit [DecidableEq T] [ErrorTraits E] in
theorem Memory.Tidy.init (Γ : Typing κ) (main : T → U) :
    (Memory.init main : Memory T U V E).Tidy Γ where
  settled := .init main
  finishing := .init main
  typed := .init Γ main
  untangled := .init main
  discreet := .init main

theorem Memory.Tidy.step (h : m.Tidy Γ) (ok : m.Straight act Γ l) (hstep : m.step act l = some m') :
    m'.Tidy Γ := by
  have hs := (step_eq_some hstep).2
  have hw := h.settled.wellFormed
  exact {
    settled := h.settled.step hs.step
    finishing := h.finishing.step hw hs.step
    typed := h.typed.step hw ok.wellTyped ok.converts hs.step
    untangled := h.untangled.step hw ok.noCircle hs.step
    discreet := h.discreet.step hw hs }

/-- **Counting references is enough.** In every run that respects the types and closes no circle of
tasks that wait for each other, the references between payloads have no cycle, and counting them
destroys a payload exactly when it is not owned any more. -/
theorem counts_suffice (act : U → O → Action U V E) (Γ : Typing κ) (main : T → U)
    (h : Reach (Memory.step act) (Memory.Straight act Γ) (Memory.init main) m) :
    (∀ p, ¬ TransGen (fun q p => p ∈ (m.state.heap q).references) p p) ∧
      ∀ p, Released m.Root (fun q p => p ∈ (m.state.heap q).references) p ↔ ¬ m.Alive p := by
  have htidy : m.Tidy Γ := h.invariant (.init Γ main) fun _ _ _ ha ok hstep => ha.step ok hstep
  exact ⟨htidy.acyclic, fun p => released_iff htidy.wellFounded⟩

end

/-! ## A callable that returns a task -/

/-- The call is about to store continuations. -/
def Frame.adding : Frame U V E → Bool
  | .addContinuations _ _ => true
  | _ => false

/-- A check that is enough for `NoCircle`: a stand-in that nothing waits for is collapsed into
another payload, which is not redirected. -/
def circleCheck [Fintype T] (s : State T U V E) (l : Label T O) : Bool :=
  match s.stack l.thread with
  | .collapseLeftIntoRight left right :: _ =>
    right != left && (s.redirect right).isNone && (s.heap left).continuation.span.isEmpty &&
      (s.heap left).work.isNone && decide (∀ t, ∀ f ∈ s.stack t, f.adding = false)
  | _ => true

theorem noCircle_of_check [Fintype T] {s : State T U V E} {l : Label T O}
    (h : circleCheck s l = true) :
    NoCircle s l := by
  intro left right rest r hs hr hpath
  simp only [circleCheck, hs, Bool.and_eq_true, bne_iff_ne, Option.isNone_iff_eq_none,
    List.isEmpty_iff, decide_eq_true_eq] at h
  obtain ⟨⟨⟨⟨hne, hredirect⟩, hspan⟩, hwork⟩, hadds⟩ := h
  obtain rfl := hr.unique (.root hredirect)
  rcases ReflTransGen.cases_head hpath with rfl | ⟨c, hc, -⟩
  · exact hne rfl
  · cases hc with
    | stored hc =>
      rw [hspan] at hc
      cases hc
    | adding hmem => cases hadds _ _ hmem
    | standIn hunwrap =>
      rw [hwork] at hunwrap
      cases hunwrap

/-- The check of `Straight`, up to `NoCircle`. -/
def straightCheck [Fintype T] [ErrorTraits E] [DecidableEq κ] (act : U → O → Action U V E)
    (Γ : Typing κ) (m : Memory T U V E) (l : Label T O × List ℕ) : Bool :=
  decide (WellTyped act Γ m.state l.1) && decide (Converts act Γ m.state l.1) &&
    circleCheck m.state l.1

theorem straight_of_check [Fintype T] [ErrorTraits E] [DecidableEq κ] {act : U → O → Action U V E}
    {Γ : Typing κ} {m : Memory T U V E} {l : Label T O × List ℕ}
    (h : straightCheck act Γ m l = true) :
    m.Straight act Γ l := by
  simp only [straightCheck, Bool.and_eq_true, decide_eq_true_eq] at h
  exact ⟨h.1.1, h.1.2, noCircle_of_check h.2⟩

/-- The run of `ReturnTask` to its end. User code keeps the task of `make_task`, and the source
while the callable runs. -/
def ReturnTask.kept : List (Label Unit Unit × List ℕ) :=
  (List.replicate 2 [1] ++ List.replicate 5 [1, 3] ++ List.replicate 21 [1]).map fun ps =>
  (⟨(), (), 0⟩, ps)

/-- At the end the stand-in is kept, and the source that it is redirected to. The payload of the
callable, which refers to the source as well, is destroyed. -/
theorem counts_suffice_returned : ∃ m, Reach (Memory.step ReturnTask.act)
    (Memory.Straight ReturnTask.act (ReturnTask.typing .errorCode .exceptionPtr))
    (Memory.init fun _ : Unit => .main) m ∧
      m.handles = [1] ∧ (m.state.heap 1).references = [3] ∧ (m.state.heap 0).references = [3] ∧
      (∀ p, ¬ TransGen (fun q p => p ∈ (m.state.heap q).references) p p) ∧
      ∀ p, Released m.Root (fun q p => p ∈ (m.state.heap q).references) p ↔ ¬ m.Alive p := by
  have hrun : (runWhile (straightCheck ReturnTask.act (ReturnTask.typing .errorCode .exceptionPtr))
      (Memory.step ReturnTask.act) (Memory.init fun _ : Unit => .main) ReturnTask.kept).map
        (fun m => (m.handles, (m.state.heap 1).references, (m.state.heap 0).references)) =
      some ([1], [3], [3]) := by
    decide +kernel
  obtain ⟨m, hreach, hseen⟩ := exists_reach_of_runWhile (fun _ _ => straight_of_check) hrun
  simp only [Prod.mk.injEq] at hseen
  exact ⟨m, hreach, hseen.1, hseen.2.1, hseen.2.2, counts_suffice _ _ _ hreach⟩

/-- The run of `ReturnHeld` to its end, when the variable holds the task of `make_task`. User code
keeps that task until it is returned. -/
def ReturnHeld.dropped : List (Label Unit ℕ × List ℕ) :=
  ([[0]] ++ List.replicate 3 [2] ++ List.replicate 11 []).map fun ps => (⟨(), 2, 0⟩, ps)

/-- **A callable that returns its own task leaks the stand-in**, which is redirected to itself. -/
theorem leaks_held : ∃ m, Reach (Memory.step ReturnHeld.act) anyStep
    (Memory.init fun _ : Unit => .main) m ∧ ¬ m.Alive 2 ∧
      ¬ Released m.Root (fun q p => p ∈ (m.state.heap q).references) 2 := by
  have hrun : (run (Memory.step ReturnHeld.act) (Memory.init fun _ : Unit => .main)
      ReturnHeld.dropped).map (fun m => (m.handles ++ (m.scopes ()).flatMap Scope.locals,
        m.state.queue.length, (m.state.stack ()).length, (m.state.heap 2).references)) =
      some ([], 0, 0, [2]) := by decide +kernel
  obtain ⟨m, hreach, hseen⟩ := exists_reach_of_run hrun
  simp only [Prod.mk.injEq, List.append_eq_nil_iff, List.length_eq_zero_iff] at hseen
  obtain ⟨⟨hhandles, hlocals⟩, hqueue, hstack, hreferences⟩ := hseen
  refine ⟨m, hreach, ?_, fun h => h.irrefl (by rw [hreferences]; exact .head _)⟩
  -- nothing is a root any more
  refine not_reached (S := fun _ => False) (fun p hp => ?_) (fun _ _ h _ => h) id
  cases hp with
  | handle hp =>
    rw [hhandles] at hp
    cases hp
  | @scope t c hc hp =>
    have hmem : p ∈ (m.scopes ()).flatMap Scope.locals := List.mem_flatMap.2 ⟨c, hc, hp⟩
    rw [hlocals] at hmem
    cases hmem
  | queue hc =>
    rw [hqueue] at hc
    cases hc
  | @frame t f hf =>
    have hmem : f ∈ m.state.stack () := hf
    rw [hstack] at hmem
    cases hmem

end Arcana.Tasks
