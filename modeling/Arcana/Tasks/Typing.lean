import Arcana.Tasks.Redirects

/-!
# The types behind the payloads

A continuation is handed its parent as a `base_task_payload`, and casts it to the payload of the
type of task that `then` was called on. A collapse gives the continuations of a stand-in to another
payload, so that the casts are right only if the two are payloads of one type. `task_factory` gives
the stand-in the larger one of the two error types at hand, and nothing in it says that this is the
error type of the other payload. What does is the assertion of `then` on error types, at the
continuation that `task_factory` adds (`made_source`).

* `Typing` is what the compiler knows of the payloads, by their number.
* `WellTyped` says that a step of user code respects it, and `Converts` that the assertions on error
  types hold. No step is checked for anything else.
* `casts_are_right` is the result, and `cast_is_wrong` a run without the assertions.

The invariant is `State.Typed`. `State.Typed.step_thenDo`, `State.Typed.step_collapses` and so on
show that the steps keep it, one lemma for each rule that is not immediate, and `State.Typed.step`
puts these together.
-/

namespace Arcana.Tasks

open Function Foundations

/-! ## Types -/

/-- The types `task<ResultT, ErrorT>`, with the result types that are not tasks in `κ`. -/
inductive TaskType (κ : Type*)
  | plain (result : κ) (error : ErrorKind)
  | nested (result : TaskType κ) (error : ErrorKind)
  deriving DecidableEq

namespace TaskType

variable {κ : Type*}

def error : TaskType κ → ErrorKind
  | plain _ error => error
  | nested _ error => error

/-- A task with the same result and another error type. -/
def withError : TaskType κ → ErrorKind → TaskType κ
  | plain result _, error => plain result error
  | nested result _, error => nested result error

theorem withError_error (τ : TaskType κ) : τ.withError τ.error = τ := by
  cases τ with
  | plain | nested => rfl

end TaskType

/-- What the compiler knows of the payloads: the type with which each one is made, and for the
payload of a continuation the type that it casts its parent to. -/
structure Typing (κ : Type*) where
  void : κ
  made : ℕ → TaskType κ
  casts : ℕ → TaskType κ

variable {κ T O U V E : Type*} {Γ : Typing κ}

namespace Typing

/-- A result is one of a payload of the given type. -/
def Fits (Γ : Typing κ) : TaskType κ → Expected V E → Prop
  | _, .error _ => True
  | .nested result _, .ok (.task p) => Γ.made p = result
  | .nested _ _, .ok _ => False
  | .plain _ _, .ok (.task _) => False
  | .plain _ _, .ok _ => True

/-- The types of what `task_factory` makes, from the given number on: the payload to run and, when
the callable returns a task, the stand-in and the payload of its continuation. -/
def Makes (Γ : Typing κ) (n : ℕ) (unwrap : Bool) : Prop :=
  match unwrap, Γ.made n with
  | false, .plain _ _ => True
  | true, .nested result error =>
    Γ.made (n + 1) = result.withError (largestError error result.error) ∧
      Γ.made (n + 2) = .plain Γ.void result.error ∧ Γ.casts (n + 2) = Γ.made n
  | _, _ => False

/-- The assertion of `then` on error types: that of the parent converts to that of the child. -/
def Propagates (Γ : Typing κ) (parent child : ℕ) : Prop :=
  (Γ.made parent).error.priority ≤ (Γ.made child).error.priority

/-- What the payload of a callable holds when it returned. -/
def Returns (Γ : Typing κ) (rest : List (Frame U V E)) (result : Option (Expected V E)) : Prop :=
  match rest, result with
  | .doWork p :: _, some x => Γ.Fits (Γ.made p) x
  | _, _ => True

/-- What user code does is in accordance with the types. `rest` is what its frame stands on. -/
def Acts [ErrorTraits E] (Γ : Typing κ) (s : State T U V E) (rest : List (Frame U V E)) :
    Action U V E → Prop
  | .ret r => Γ.Returns rest (outputWrapper r)
  | .complete p r _ => Γ.Fits (Γ.made p) r
  | .makeTask _ _ unwrap _ _ => Γ.Makes s.next unwrap
  | .thenDo p _ _ _ unwrap _ _ => Γ.Makes s.next unwrap ∧ Γ.casts s.next = Γ.made p
  | .emit _ _ | .source _ | .tick _ _ => True

/-- The assertions of the calls of `then` that user code makes, its own and the one in
`task_factory`. -/
def Asserts (Γ : Typing κ) (s : State T U V E) : Action U V E → Prop
  | .makeTask _ _ unwrap _ _ => unwrap = true → Γ.Propagates s.next (s.next + 2)
  | .thenDo p _ _ _ unwrap _ _ =>
    Γ.Propagates p s.next ∧ (unwrap = true → Γ.Propagates s.next (s.next + 2))
  | _ => True

end Typing

section

variable (act : U → O → Action U V E)

/-- A step of user code respects the types. -/
def WellTyped [ErrorTraits E] (Γ : Typing κ) (s : State T U V E) (l : Label T O) : Prop :=
  match s.stack l.thread with
  | .user u :: rest => Γ.Acts s rest (act u l.oracle)
  | _ => True

/-- The assertions on error types hold at a step of user code. -/
def Converts (Γ : Typing κ) (s : State T U V E) (l : Label T O) : Prop :=
  match s.stack l.thread with
  | .user u :: _ => Γ.Asserts s (act u l.oracle)
  | _ => True

variable {act} {s : State T U V E} {l : Label T O} {u : U} {rest : List (Frame U V E)}
  {a : Action U V E}

theorem WellTyped.acts [ErrorTraits E] (h : WellTyped act Γ s l)
    (hs : s.stack l.thread = .user u :: rest) (ha : act u l.oracle = a) : Γ.Acts s rest a := by
  rw [WellTyped, hs] at h
  exact ha ▸ h

theorem Converts.asserts (h : Converts act Γ s l) (hs : s.stack l.thread = .user u :: rest)
    (ha : act u l.oracle = a) : Γ.Asserts s a := by
  rw [Converts, hs] at h
  exact ha ▸ h

end

theorem Typing.Makes.nested {n : ℕ} (h : Γ.Makes n true) :
    ∃ result error, Γ.made n = .nested result error ∧
    Γ.made (n + 1) = result.withError (largestError error result.error) ∧
    Γ.made (n + 2) = .plain Γ.void result.error ∧ Γ.casts (n + 2) = Γ.made n := by
  unfold Typing.Makes at h
  split at h
  · rename_i heq _
    cases heq
  · rename_i result error _ hmade
    exact ⟨result, error, hmade, h⟩
  · exact h.elim

/-- **The stand-in of a factory has the type of the task that it stands for**, by the assertion. -/
theorem made_source {n : ℕ} (h : Γ.Makes n true) (hassert : Γ.Propagates n (n + 2)) :
    ∃ error, Γ.made n = .nested (Γ.made (n + 1)) error := by
  obtain ⟨result, error, hrun, hsource, hcontinuation, -⟩ := h.nested
  rw [Typing.Propagates, hrun, hcontinuation] at hassert
  have hlargest : largestError error result.error = result.error := if_pos hassert
  refine ⟨error, ?_⟩
  rw [hsource, hlargest, TaskType.withError_error]
  exact hrun

/-! ## The invariant -/

/-- What holds of the payload `x` with the number `p`. -/
structure Payload.Typed (Γ : Typing κ) (p : ℕ) (x : Payload U V E) : Prop where
  stored : ∀ c ∈ x.continuation.span, Γ.casts c.continuation = Γ.made p
  redirect : ∀ q, x.taskRedirect = some q → Γ.made q = Γ.made p
  result : ∀ r, x.result = some r → Γ.Fits (Γ.made p) r
  unwraps : ∀ source, x.work = some (.unwrap source) →
    (∃ error, Γ.casts p = .nested (Γ.made source) error) ∧ ∃ error, Γ.made p = .plain Γ.void error

/-- What holds of a call under way. -/
def Frame.Typed (Γ : Typing κ) : Frame U V E → Prop
  | .run p parent => ∀ q, parent = some q → Γ.casts p = Γ.made q
  | .runAll cs => ∀ c ∈ cs, Γ.casts c.continuation = Γ.made c.parent
  | .addContinuations p cs => ∀ c ∈ cs, Γ.casts c.continuation = Γ.made p
  | .collapseLeftIntoRight left right => Γ.made right = Γ.made left
  | .unwrapping p => ∃ error, Γ.made p = .plain Γ.void error
  | .user _ | .completing _ | .doWork _ | .doCompletion _ | .holding _ => True

/-- Every cast that was made, or can still be made, is right. -/
structure State.Typed (Γ : Typing κ) (s : State T U V E) : Prop where
  payload : ∀ p, (s.heap p).Typed Γ p
  frames : ∀ t, ∀ f ∈ s.stack t, f.Typed Γ
  queue : ∀ c ∈ s.queue, ∀ q, c.2 = some q → Γ.casts c.1 = Γ.made q
  reads : ∀ q p r, (q, p, r) ∈ s.reads → Γ.casts p = Γ.made q ∧ Γ.Fits (Γ.made q) r

namespace Payload.Typed

variable {x : Payload U V E} {p : ℕ}

/-- A payload without continuations that nothing has happened to, and that does not unwrap. -/
theorem bare (Γ : Typing κ) (p : ℕ) (work : Option (Work U V E))
    (hwork : ∀ source, work ≠ some (.unwrap source)) :
    Payload.Typed Γ p { work } where
  stored := nofun
  redirect := nofun
  result := nofun
  unwraps source h := absurd h (hwork source)

theorem setResult (h : x.Typed Γ p) {r : Expected V E} (hr : Γ.Fits (Γ.made p) r) :
    Payload.Typed Γ p { x with result := some r } where
  stored := h.stored
  redirect := h.redirect
  result _ e := Option.some.inj e ▸ hr
  unwraps := h.unwraps

theorem cannibalized (h : x.Typed Γ p) {q : Option ℕ} (hq : ∀ r, q = some r → Γ.made r = Γ.made p) :
    (x.cannibalized q).Typed Γ p where
  stored c hc := by simp [Payload.cannibalized] at hc
  redirect := hq
  result := h.result
  unwraps := h.unwraps

theorem store (h : x.Typed Γ p) {cs : List Continuation}
    (hcs : ∀ c ∈ cs, Γ.casts c.continuation = Γ.made p) :
    Payload.Typed Γ p { x with continuation := x.continuation.append cs } where
  stored c hc := by
    rw [ContinuationStorage.span_append, List.mem_append] at hc
    exact hc.elim (h.stored c) (hcs c)
  redirect := h.redirect
  result := h.result
  unwraps := h.unwraps

end Payload.Typed

namespace State.Typed

theorem init (Γ : Typing κ) (main : T → U) : (Tasks.init main : State T U V E).Typed Γ where
  payload p := .bare Γ p none nofun
  frames t f hf := by
    obtain rfl := List.mem_singleton.1 hf
    trivial
  queue _ h := by cases h
  reads _ _ _ h := by cases h

variable [DecidableEq T] {s s' : State T U V E} {t : T} {fs : List (Frame U V E)}

/-- What a step has to establish: the facts about what it wrote, pushed, queued and read. -/
theorem next (h : s.Typed Γ) (payload : ∀ p, s'.heap p = s.heap p ∨ (s'.heap p).Typed Γ p)
    (stack : s'.stack = update s.stack t fs) (frames : ∀ f ∈ fs, f ∈ s.stack t ∨ f.Typed Γ)
    (queue : ∀ c ∈ s'.queue, c ∈ s.queue ∨ ∀ q, c.2 = some q → Γ.casts c.1 = Γ.made q)
    (reads : ∀ q p r, (q, p, r) ∈ s'.reads →
      (q, p, r) ∈ s.reads ∨ Γ.casts p = Γ.made q ∧ Γ.Fits (Γ.made q) r) : s'.Typed Γ where
  payload p := (payload p).elim (fun hp => hp ▸ h.payload p) id
  frames t' f hf := by
    rw [stack, update_apply] at hf
    split at hf
    · exact (frames f hf).elim (h.frames _ f) id
    · exact h.frames _ f hf
  queue c hc := (queue c hc).elim (h.queue c) id
  reads q p r hr := (reads q p r hr).elim (h.reads q p r) id

/-- A step that leaves the heap alone and reads nothing. -/
theorem move (h : s.Typed Γ) (heap : s'.heap = s.heap) (hreads : s'.reads = s.reads)
    (stack : s'.stack = update s.stack t fs) (frames : ∀ f ∈ fs, f ∈ s.stack t ∨ f.Typed Γ)
    (queue : ∀ c ∈ s'.queue, c ∈ s.queue ∨ ∀ q, c.2 = some q → Γ.casts c.1 = Γ.made q) :
    s'.Typed Γ :=
  h.next (fun p => .inl (by rw [heap])) stack frames queue fun _ _ _ hr => .inl (hreads ▸ hr)

/-- A step that writes one payload and reads nothing. -/
theorem write (h : s.Typed Γ) {p : ℕ} {x : Payload U V E} (heap : s'.heap = update s.heap p x)
    (hx : x.Typed Γ p) (hreads : s'.reads = s.reads) (stack : s'.stack = update s.stack t fs)
    (frames : ∀ f ∈ fs, f ∈ s.stack t ∨ f.Typed Γ) (queue : s'.queue = s.queue) : s'.Typed Γ := by
  refine h.next (fun q => ?_) stack frames (fun c hc => .inl (queue ▸ hc)) fun _ _ _ hr =>
    .inl (hreads ▸ hr)
  rw [heap, update_apply]
  split
  · rename_i e
    exact .inr (e ▸ hx)
  · exact .inl rfl

end State.Typed

/-! ## Every step keeps the invariant -/

/-- What `task_factory` makes is in accordance with the types. -/
theorem Factory.typed {s s₁ : State T U V E} {work : Work U V E} {unwrap : Bool}
    {toRun toReturn : ℕ}
    (hf : Factory s work unwrap s₁ toRun toReturn) (hwork : ∀ source, work ≠ .unwrap source)
    (hmakes : Γ.Makes s.next unwrap) (hassert : unwrap = true → Γ.Propagates s.next (s.next + 2))
    (p : ℕ) :
    s₁.heap p = s.heap p ∨ (s₁.heap p).Typed Γ p := by
  have hwork' : ∀ source, some work ≠ some (.unwrap source) :=
    fun source e => hwork source (Option.some.inj e)
  cases hf with
  | plain =>
    simp only [update_apply]
    split
    · exact .inr (.bare Γ p _ hwork')
    · exact .inl rfl
  | unwrap =>
    have hsource := made_source hmakes (hassert rfl)
    obtain ⟨result, error, -, -, hvoid, hcasts⟩ := hmakes.nested
    simp only [update_apply]
    split_ifs with h₂ h₁ h₀
    · subst h₂
      refine .inr ⟨nofun, nofun, nofun, fun source e => ⟨?_, _, hvoid⟩⟩
      obtain rfl : s.next + 1 = source := Work.unwrap.inj (Option.some.inj e)
      rw [hcasts]
      exact hsource
    · exact .inr (.bare Γ p none nofun)
    · subst h₀
      refine .inr ⟨fun c hc => ?_, nofun, nofun, fun source e => absurd e (hwork' source)⟩
      obtain rfl := List.mem_singleton.1 hc
      exact hcasts
    · exact .inl rfl

/-- A step that allocates. -/
theorem State.Typed.allocate [DecidableEq T] {s s₁ s' : State T U V E} {t : T}
    {fs : List (Frame U V E)}
    {work : Work U V E} {unwrap : Bool} {toRun toReturn : ℕ} (h : s.Typed Γ)
    (hf : Factory s work unwrap s₁ toRun toReturn) (hwork : ∀ source, work ≠ .unwrap source)
    (hmakes : Γ.Makes s.next unwrap) (hassert : unwrap = true → Γ.Propagates s.next (s.next + 2))
    (heap : s'.heap = s₁.heap) (hreads : s'.reads = s₁.reads)
    (stack : s'.stack = update s₁.stack t fs) (frames : ∀ f ∈ fs, f ∈ s.stack t ∨ f.Typed Γ)
    (queue : ∀ c ∈ s'.queue, c ∈ s₁.queue ∨ ∀ q, c.2 = some q → Γ.casts c.1 = Γ.made q) :
    s'.Typed Γ := by
  have hsame := hf.sameRest
  refine h.next (fun p => ?_) (hsame.stack ▸ stack) frames (fun c hc => hsame.queue ▸ queue c hc)
    fun _ _ _ hr => .inl (hf.reads ▸ hreads ▸ hr)
  rw [heap]
  exact hf.typed hwork hmakes hassert p

section

variable [ErrorTraits E] {act : U → O → Action U V E} {s s' : State T U V E} {t : T} {o : O}

/-- A work reads its parent as what it is. -/
theorem WorkInput.typed {s₁ : State T U V E} {p : ℕ} {parent : Option ℕ} {x : Expected V E ⊕ U}
    (h : WorkInput s p parent s₁ x) (hs : s.Typed Γ)
    (hcast : ∀ q, parent = some q → Γ.casts p = Γ.made q)
    (q w : ℕ) (r : Expected V E) (hr : (q, w, r) ∈ s₁.reads) :
    (q, w, r) ∈ s.reads ∨ Γ.casts w = Γ.made q ∧ Γ.Fits (Γ.made q) r := by
  cases h with
  | start => exact .inl hr
  | continuation _ hparent hresult =>
    rcases List.mem_cons.1 hr with e | hr
    · cases e
      exact .inr ⟨hcast q hparent, (hs.payload q).result r hresult⟩
    · exact .inl hr

/-- A wrapper that does not invoke its callable yields an error. -/
theorem exists_error_of_wrapCallable {handlesExpected cancelled : Bool}
    {callable : Expected V E → U}
    {input r : Expected V E} (h : wrapCallable handlesExpected cancelled callable input = .inl r) :
    ∃ e, r = .error e := by
  unfold wrapCallable at h
  split at h
  · split at h
    · exact ⟨_, (Sum.inl.inj h).symm⟩
    · cases h
  · split at h
    · exact ⟨_, (Sum.inl.inj h).symm⟩
    · split at h
      · exact ⟨_, (Sum.inl.inj h).symm⟩
      · cases h

theorem WorkInput.fits {s₁ : State T U V E} {p : ℕ} {parent : Option ℕ} {x : Expected V E ⊕ U}
    {r : Expected V E} (h : WorkInput s p parent s₁ x) (hx : x = .inl r) (τ : TaskType κ) :
    Γ.Fits τ r := by
  have herror : ∃ e, r = .error e := by
    cases h with
    | start | continuation => exact exists_error_of_wrapCallable hx
  obtain ⟨e, rfl⟩ := herror
  trivial

namespace State.Typed

variable [DecidableEq T] {rest : List (Frame U V E)} {s₁ : State T U V E} {u : U}
  {toRun toReturn : ℕ}

omit [ErrorTraits E] [DecidableEq T] in
theorem top (h : s.Typed Γ) {f : Frame U V E} (hs : s.stack t = f :: rest) : f.Typed Γ :=
  h.frames t f (by rw [hs]; exact .head _)

/-! ### Steps of user code -/

omit [ErrorTraits E] in
/-- A task is made on a dispatcher: what is queued reads no parent. -/
theorem step_makeTaskDispatcher (h : s.Typed Γ) {cancelled unwrap : Bool} {callable : U} {k : ℕ → U}
    (hs : s.stack t = .user u :: rest)
    (hf : Factory s (.start cancelled callable) unwrap s₁ toRun toReturn)
    (hmakes : Γ.Makes s.next unwrap)
    (hassert : unwrap = true → Γ.Propagates s.next (s.next + 2)) :
    State.Typed Γ ({ s₁ with queue := s₁.queue ++ [(toRun, none)] }.setStack t
      (.user (k toReturn) :: rest)) := by
  refine h.allocate hf nofun hmakes hassert rfl rfl rfl
    (List.forall_mem_cons.2 ⟨.inr trivial, WellFormed.forall_tail_mem_or hs⟩) fun c hc => ?_
  rcases List.mem_append.1 hc with hc | hc
  · exact .inl hc
  · obtain rfl := List.mem_singleton.1 hc
    exact .inr nofun

omit [ErrorTraits E] in
/-- The continuation that `then` makes casts to the type of task that it is called on. -/
theorem step_thenDo (h : s.Typed Γ) {p : ℕ} {scheduler : Scheduler}
    {cancelled handlesExpected unwrap : Bool} {callable : Expected V E → U} {k : ℕ → U}
    (hs : s.stack t = .user u :: rest)
    (hf : Factory s (.continuation handlesExpected cancelled callable) unwrap s₁ toRun toReturn)
    (hmakes : Γ.Makes s.next unwrap) (hcast : Γ.casts s.next = Γ.made p)
    (hassert : unwrap = true → Γ.Propagates s.next (s.next + 2)) :
    State.Typed Γ ({ s₁ with registered := toRun :: s₁.registered }.setStack t
      (.addContinuations p [⟨p, toRun, scheduler⟩] :: .user (k toReturn) :: rest)) := by
  refine h.allocate hf nofun hmakes hassert rfl rfl rfl
    (List.forall_mem_cons.2 ⟨.inr fun c hc => ?_, List.forall_mem_cons.2
      ⟨.inr trivial, WellFormed.forall_tail_mem_or hs⟩⟩) fun c => .inl
  obtain rfl := List.mem_singleton.1 hc
  rw [hf.toRun_eq]
  exact hcast

/-! ### Steps of payloads that are run -/

/-- A payload whose callable is not invoked gets an error, which any type allows. -/
theorem step_decides (h : s.Typed Γ) {p : ℕ} {parent : Option ℕ} {r : Expected V E}
    (hs : s.stack t = .run p parent :: rest) (hwork : WorkInput s p parent s₁ (.inl r)) :
    State.Typed Γ ((s₁.setResult p r).setStack t (.doCompletion p :: rest)) := by
  obtain ⟨hheap, -⟩ := hwork.heap_next
  have hsame := hwork.sameRest
  refine h.next (fun q => ?_) (congrArg (update · _ _) hsame.stack)
    (List.forall_mem_cons.2 ⟨.inr trivial, WellFormed.forall_tail_mem_or hs⟩)
    (fun c hc => .inl (hsame.queue ▸ hc)) (hwork.typed h (h.top hs))
  change update s₁.heap p _ q = _ ∨ Payload.Typed Γ q (update s₁.heap p _ q)
  rw [hheap, update_apply]
  split
  · rename_i e
    subst e
    exact .inr ((h.payload q).setResult (hwork.fits rfl _))
  · exact .inl rfl

/-- A payload that invokes its callable reads its parent as what it is. -/
theorem step_invokes (h : s.Typed Γ) {p : ℕ} {parent : Option ℕ}
    (hs : s.stack t = .run p parent :: rest) (hwork : WorkInput s p parent s₁ (.inr u)) :
    State.Typed Γ ({ s₁ with invoked := p :: s₁.invoked }.setStack t
      (.user u :: .doWork p :: rest)) := by
  obtain ⟨hheap, -⟩ := hwork.heap_next
  have hsame := hwork.sameRest
  exact h.next (fun q => .inl (congrFun hheap q)) (congrArg (update · _ _) hsame.stack)
    (List.forall_mem_cons.2 ⟨.inr trivial, List.forall_mem_cons.2
      ⟨.inr trivial, WellFormed.forall_tail_mem_or hs⟩⟩)
    (fun c hc => .inl (hsame.queue ▸ hc)) (hwork.typed h (h.top hs))

omit [ErrorTraits E] in
/-- The continuation of `task_factory` reads an error as what it is. -/
theorem step_unwrapsError (h : s.Typed Γ) {p q source : ℕ} {e : E}
    (hs : s.stack t = .run p (some q) :: rest) (hwork : (s.heap p).work = some (.unwrap source)) :
    State.Typed Γ (((s.read q p (.error e)).setResult source (.error e)).setStack t
      (.doCompletion source :: .unwrapping p :: rest)) := by
  obtain ⟨-, hvoid⟩ := (h.payload p).unwraps source hwork
  refine h.next (fun q' => ?_) rfl (List.forall_mem_cons.2 ⟨.inr trivial, List.forall_mem_cons.2
    ⟨.inr hvoid, WellFormed.forall_tail_mem_or hs⟩⟩) (fun c => .inl) fun q' p' r' hread => ?_
  · simp only [State.setStack_heap, State.setResult_heap, State.read_heap, update_apply]
    split
    · rename_i e
      subst e
      exact .inr ((h.payload _).setResult trivial)
    · exact .inl rfl
  · rcases List.mem_cons.1 hread with heq | hread
    · cases heq
      exact .inr ⟨h.top hs q rfl, trivial⟩
    · exact .inl hread

omit [ErrorTraits E] in
/-- The continuation of `task_factory` reads a task of the type of its stand-in. -/
theorem step_unwrapsTask (h : s.Typed Γ) {p q source r : ℕ}
    (hs : s.stack t = .run p (some q) :: rest) (hwork : (s.heap p).work = some (.unwrap source))
    (hr : (s.heap q).result = some (.ok (.task r))) :
    State.Typed Γ ((s.read q p (.ok (.task r))).setStack t
      (.collapseLeftIntoRight source r :: .unwrapping p :: rest)) := by
  obtain ⟨⟨error, hcast⟩, hvoid⟩ := (h.payload p).unwraps source hwork
  have hparent : Γ.casts p = Γ.made q := h.top hs q rfl
  have hfits := (h.payload q).result _ hr
  refine h.next (fun _ => .inl rfl) rfl (List.forall_mem_cons.2 ⟨.inr ?_, List.forall_mem_cons.2
    ⟨.inr hvoid, WellFormed.forall_tail_mem_or hs⟩⟩) (fun c => .inl) fun q' p' r' hread => ?_
  · rw [← hparent, hcast] at hfits
    exact hfits
  · rcases List.mem_cons.1 hread with heq | hread
    · cases heq
      exact .inr ⟨hparent, hfits⟩
    · exact .inl hread

omit [ErrorTraits E] in
/-- The continuation of `task_factory` is a task without a value. -/
theorem step_unwrapped (h : s.Typed Γ) {p : ℕ} (hs : s.stack t = .unwrapping p :: rest) :
    State.Typed Γ ((s.setResult p (.ok .void)).setStack t (.doCompletion p :: rest)) := by
  obtain ⟨error, hvoid⟩ := h.top hs
  refine h.write rfl ((h.payload p).setResult ?_) rfl rfl
    (List.forall_mem_cons.2 ⟨.inr trivial, WellFormed.forall_tail_mem_or hs⟩) rfl
  rw [hvoid]
  trivial

/-! ### Steps of continuations -/

omit [ErrorTraits E] in
/-- The continuations of a payload that is completed cast to its type. -/
theorem step_completesPayload (h : s.Typed Γ) (hw : WellFormed s) {p : ℕ}
    (hs : s.stack t = .doCompletion p :: rest) :
    State.Typed Γ ((s.setPayload p ((s.heap p).cannibalized none)).setStack t
      (.runAll (s.heap p).continuation.span :: rest)) := by
  refine h.write rfl ((h.payload p).cannibalized nofun) rfl rfl
    (List.forall_mem_cons.2 ⟨.inr fun c hc => ?_, WellFormed.forall_tail_mem_or hs⟩) rfl
  rw [((hw.payload p).stored c hc).2.1]
  exact (h.payload p).stored c hc

omit [ErrorTraits E] in
/-- The first of the continuations is queued with a parent of its type. -/
theorem step_handsDispatcher (h : s.Typed Γ) {c : Continuation} {cs : List Continuation}
    (hs : s.stack t = .runAll (c :: cs) :: rest) :
    State.Typed Γ ({ s with
      handed := c.continuation :: s.handed
      queue := s.queue ++ [(c.continuation, some c.parent)] }.setStack t
        (.runAll cs :: rest)) := by
  obtain ⟨hc, hcs⟩ := List.forall_mem_cons.1 (h.top hs)
  refine h.move rfl rfl rfl
    (List.forall_mem_cons.2 ⟨.inr hcs, WellFormed.forall_tail_mem_or hs⟩) fun c hmem => ?_
  rcases List.mem_append.1 hmem with hmem | hmem
  · exact .inl hmem
  · obtain rfl := List.mem_singleton.1 hmem
    exact .inr fun q hq => Option.some.inj hq ▸ hc

omit [ErrorTraits E] in
/-- A collapse gives continuations a parent of the same type. -/
theorem step_collapses (h : s.Typed Γ) {left right : ℕ}
    (hs : s.stack t = .collapseLeftIntoRight left right :: rest) :
    State.Typed Γ ((s.setPayload left ((s.heap left).cannibalized (some right))).setStack t
      (.addContinuations right
        ((s.heap left).continuation.span.map (·.reparent right)) :: rest)) := by
  have hsame : Γ.made right = Γ.made left := h.top hs
  refine h.write rfl ((h.payload left).cannibalized fun r hr => ?_) rfl rfl
    (List.forall_mem_cons.2 ⟨.inr fun c hc => ?_, WellFormed.forall_tail_mem_or hs⟩) rfl
  · obtain rfl := Option.some.inj hr
    exact hsame
  · obtain ⟨d, hd, rfl⟩ := List.mem_map.1 hc
    exact ((h.payload left).stored d hd).trans hsame.symm

omit [ErrorTraits E] in
/-- So does a redirect. -/
theorem step_addsAlong (h : s.Typed Γ) {p q : ℕ} {cs : List Continuation}
    (hs : s.stack t = .addContinuations p cs :: rest) (hr : (s.heap p).taskRedirect = some q) :
    State.Typed Γ (s.setStack t
      (.addContinuations q (cs.map (·.reparent q)) :: .holding p :: rest)) := by
  refine h.move rfl rfl rfl (List.forall_mem_cons.2 ⟨.inr fun c hc => ?_,
    List.forall_mem_cons.2 ⟨.inr trivial, WellFormed.forall_tail_mem_or hs⟩⟩) fun c => .inl
  obtain ⟨d, hd, rfl⟩ := List.mem_map.1 hc
  have hcast : Γ.casts d.continuation = Γ.made p := h.top hs d hd
  exact hcast.trans ((h.payload p).redirect q hr).symm

end State.Typed

variable [DecidableEq T] [Fintype T]

/-- **Every step keeps the types**, when user code respects them and the assertions hold. -/
theorem State.Typed.step {l : Label T O} (hw : WellFormed s) (h : s.Typed Γ)
    (hacts : WellTyped act Γ s l) (hassert : Converts act Γ s l)
    (hstep : Step act s l.thread l.oracle s') : s'.Typed Γ := by
  have hrest {f : Frame U V E} {rest : List (Frame U V E)} (hs : s.stack l.thread = f :: rest) :
      ∀ g ∈ rest, g ∈ s.stack l.thread ∨ g.Typed Γ := WellFormed.forall_tail_mem_or hs
  cases hstep with
  | idle _ hq =>
    refine h.move rfl rfl rfl (fun f hf => .inr ?_) fun c hc => .inl (List.mem_of_mem_eraseIdx hc)
    obtain rfl := List.mem_singleton.1 hf
    exact h.queue _ (List.mem_of_getElem? hq)
  | mainReturns => exact h.move rfl rfl rfl (fun f hf => nomatch hf) fun c => .inl
  | @returns u p rest r x hs ha hx =>
    have hfits := hacts.acts hs ha
    rw [Typing.Acts, hx] at hfits
    refine h.write rfl ((h.payload p).setResult hfits) rfl rfl ?_ rfl
    refine List.forall_mem_cons.2 ⟨.inr trivial, fun f hf => .inl ?_⟩
    rw [hs]
    exact .tail _ (.tail _ hf)
  | emits hs | ticksNothing hs | completed hs | runBare hs =>
    exact h.move rfl rfl rfl (List.forall_mem_cons.2 ⟨.inr trivial, hrest hs⟩) fun c => .inl
  | constructs hs =>
    exact h.write rfl (.bare Γ _ none nofun) rfl rfl
      (List.forall_mem_cons.2 ⟨.inr trivial, hrest hs⟩) rfl
  | @completes u rest p r k hs ha =>
    exact h.write rfl ((h.payload p).setResult (hacts.acts hs ha)) rfl rfl
      (List.forall_mem_cons.2 ⟨.inr trivial, List.forall_mem_cons.2 ⟨.inr trivial, hrest hs⟩⟩) rfl
  | makeTaskInline hs ha hf =>
    exact h.allocate hf nofun (hacts.acts hs ha) (hassert.asserts hs ha) rfl rfl rfl
      (List.forall_mem_cons.2 ⟨.inr nofun, List.forall_mem_cons.2 ⟨.inr trivial, hrest hs⟩⟩)
      fun c => .inl
  | makeTaskDispatcher hs ha hf =>
    exact h.step_makeTaskDispatcher hs hf (hacts.acts hs ha) (hassert.asserts hs ha)
  | thenDo hs ha _ hf =>
    exact h.step_thenDo hs hf (hacts.acts hs ha).1 (hacts.acts hs ha).2 (hassert.asserts hs ha).2
  | ticks hs _ hq =>
    refine h.move rfl rfl rfl (List.forall_mem_cons.2 ⟨.inr ?_, List.forall_mem_cons.2
      ⟨.inr trivial, hrest hs⟩⟩) fun c hc => .inl (List.mem_of_mem_eraseIdx hc)
    exact h.queue _ (List.mem_of_getElem? hq)
  | decides hs hwork => exact h.step_decides hs hwork
  | invokes hs hwork => exact h.step_invokes hs hwork
  | unwrapsError hs hwork => exact h.step_unwrapsError hs hwork
  | unwrapsTask hs hwork hr => exact h.step_unwrapsTask hs hwork hr
  | unwrapped hs => exact h.step_unwrapped hs
  | completesPayload hs => exact h.step_completesPayload hw hs
  | refuses hs =>
    refine h.move rfl rfl rfl (List.forall_mem_cons.2 ⟨.inr trivial, fun f hf => .inl ?_⟩)
      fun c => .inl
    rw [hs]
    exact .tail _ (.tail _ hf)
  | ranAll hs | addsNothing hs | unlocks hs => exact h.move rfl rfl rfl (hrest hs) fun c => .inl
  | @handsInline c cs rest hs =>
    obtain ⟨hc, hcs⟩ := List.forall_mem_cons.1 (h.top hs)
    exact h.move rfl rfl rfl (List.forall_mem_cons.2 ⟨.inr fun q hq => Option.some.inj hq ▸ hc,
      List.forall_mem_cons.2 ⟨.inr hcs, hrest hs⟩⟩) fun c => .inl
  | handsDispatcher hs => exact h.step_handsDispatcher hs
  | collapses hs => exact h.step_collapses hs
  | addsAlong hs _ _ hr => exact h.step_addsAlong hs hr
  | @addsLate p cs rest hs =>
    refine h.move rfl rfl rfl (List.forall_mem_cons.2 ⟨.inr fun c hc => ?_, hrest hs⟩) fun c => .inl
    rw [((hw.top hs).2 c hc).1]
    exact h.top hs c hc
  | @stores p cs rest hs =>
    exact h.write rfl ((h.payload p).store (h.top hs)) rfl rfl (hrest hs) rfl

/-- **The casts of the continuations are right.** In every run whose user code respects the types,
and of which the assertions on error types hold, each result that a work read from its parent was
read from a payload of the type that the work casts to, and is a result of that type; so it is for
the results still to be read, whatever the collapses did to the parents. -/
theorem casts_are_right {main : T → U}
    (h : Reach (Tasks.step act) (fun s l => WellTyped act Γ s l ∧ Converts act Γ s l)
      (init main) s) :
    (∀ q p r, (q, p, r) ∈ s.reads → Γ.casts p = Γ.made q ∧ Γ.Fits (Γ.made q) r) ∧
    (∀ t p q rest, s.stack t = .run p (some q) :: rest → Γ.casts p = Γ.made q) ∧
    ∀ p q, (s.heap p).taskRedirect = some q → Γ.made q = Γ.made p := by
  have hs : WellFormed s ∧ s.Typed Γ := h.invariant (I := fun s => WellFormed s ∧ s.Typed Γ)
    ⟨.init main, .init Γ main⟩ fun a l b ha hok hstep =>
      ⟨ha.1.step (step_sound hstep), ha.2.step ha.1 hok.1 hok.2 (step_sound hstep)⟩
  refine ⟨hs.2.reads, fun t p q rest hstack => ?_, fun p => (hs.2.payload p).redirect⟩
  exact hs.2.frames t (.run p (some q)) (by rw [hstack]; exact .head _) q rfl

end

/-! ## A callable that returns a task of another error type -/

section

variable [DecidableEq κ]

instance (τ : TaskType κ) : (r : Expected V E) → Decidable (Γ.Fits τ r)
  | .error _ => .isTrue (by cases τ <;> trivial)
  | .ok (.task p) =>
    match τ with
    | .nested result _ => inferInstanceAs (Decidable (Γ.made p = result))
    | .plain _ _ => .isFalse id
  | .ok .void | .ok (.val _) =>
    match τ with
    | .nested _ _ => .isFalse id
    | .plain _ _ => .isTrue trivial

instance (n : ℕ) (unwrap : Bool) : Decidable (Γ.Makes n unwrap) := by
  unfold Typing.Makes
  split <;> infer_instance

instance (rest : List (Frame U V E)) (result : Option (Expected V E)) :
    Decidable (Γ.Returns rest result) := by
  unfold Typing.Returns
  split <;> infer_instance

instance (p q : ℕ) : Decidable (Γ.Propagates p q) := inferInstanceAs (Decidable (_ ≤ _))

variable [ErrorTraits E] {act : U → O → Action U V E}

instance (s : State T U V E) (rest : List (Frame U V E)) :
    (a : Action U V E) → Decidable (Γ.Acts s rest a)
  | .ret r => inferInstanceAs (Decidable (Γ.Returns rest (outputWrapper r)))
  | .complete p r _ => inferInstanceAs (Decidable (Γ.Fits (Γ.made p) r))
  | .makeTask _ _ unwrap _ _ => inferInstanceAs (Decidable (Γ.Makes s.next unwrap))
  | .thenDo p _ _ _ unwrap _ _ =>
    inferInstanceAs (Decidable (Γ.Makes s.next unwrap ∧ Γ.casts s.next = Γ.made p))
  | .emit _ _ | .source _ | .tick _ _ => .isTrue trivial

instance (s : State T U V E) : (a : Action U V E) → Decidable (Γ.Asserts s a)
  | .makeTask _ _ unwrap _ _ =>
    inferInstanceAs (Decidable (unwrap = true → Γ.Propagates s.next (s.next + 2)))
  | .thenDo p _ _ _ unwrap _ _ => inferInstanceAs
    (Decidable (Γ.Propagates p s.next ∧ (unwrap = true → Γ.Propagates s.next (s.next + 2))))
  | .ret _ | .complete _ _ _ | .emit _ _ | .source _ | .tick _ _ => .isTrue trivial

instance (s : State T U V E) (l : Label T O) : Decidable (WellTyped act Γ s l) := by
  unfold WellTyped
  split <;> infer_instance

instance (s : State T U V E) (l : Label T O) : Decidable (Converts act Γ s l) := by
  unfold Converts
  split <;> infer_instance

end

/-- A program with a callable that returns a task, and a continuation on the task that `make_task`
returned for it. -/
inductive ReturnTask
  | main
  | made (task : ℕ)
  | callable
  | constructed (source : ℕ)
  | returns (task : ℕ)
  | done

def ReturnTask.act : ReturnTask → Unit → Action ReturnTask ℕ ErrorCode
  | .main, _ => .makeTask .inlineScheduler false true .callable .made
  | .made task, _ => .thenDo task .inlineScheduler false true false (fun _ => .done) fun _ => .done
  | .callable, _ => .source .constructed
  | .constructed source, _ => .complete source (.ok (.val 7)) fun _ => .returns source
  | .returns task, _ => .ret (.task task)
  | .done, _ => .ret (.value .void)

/-- The types of the program, for the error types of the callable and of the task that it returns. A
result is an integer or `void`. -/
def ReturnTask.typing (callable task : ErrorKind) : Typing Bool where
  void := false
  made
    | 0 => .nested (.plain true task) callable
    | 1 => .plain true (largestError callable task)
    | 2 => .plain false task
    | 3 => .plain true task
    | _ => .plain false .exceptionPtr
  casts
    | 2 => .nested (.plain true task) callable
    | _ => .plain true (largestError callable task)

def ReturnTask.trace : List (Label Unit Unit) := List.replicate 28 ⟨(), (), 0⟩

/-- The callable does not throw, and the task that it returns may hold an exception. -/
theorem casts_are_right_returned : ∃ s, Reach (step ReturnTask.act) (fun s l =>
    WellTyped ReturnTask.act (ReturnTask.typing .errorCode .exceptionPtr) s l ∧
      Converts ReturnTask.act (ReturnTask.typing .errorCode .exceptionPtr) s l)
    (init fun _ : Unit => ReturnTask.main) s ∧
    s.reads = [(3, 4, .ok (.val 7)), (0, 2, .ok (.task 3))] ∧
    ∀ q p r, (q, p, r) ∈ s.reads → (ReturnTask.typing .errorCode .exceptionPtr).casts p =
      (ReturnTask.typing .errorCode .exceptionPtr).made q := by
  have hrun : (runWhile (fun s l => decide
      (WellTyped ReturnTask.act (ReturnTask.typing .errorCode .exceptionPtr) s l ∧
        Converts ReturnTask.act (ReturnTask.typing .errorCode .exceptionPtr) s l))
          (step ReturnTask.act)
      (init fun _ : Unit => .main) ReturnTask.trace).map (fun s => s.reads) =
      some [(3, 4, .ok (.val 7)), (0, 2, .ok (.task 3))] := by rfl
  obtain ⟨s, hreach, hreads⟩ := exists_reach_of_runWhile (fun _ _ => of_decide_eq_true) hrun
  exact ⟨s, hreach, hreads, fun q p r hr => ((casts_are_right hreach).1 q p r hr).1⟩

/-- **The assertion is what it takes.** With a callable that may throw and a task that holds error
codes, a run that respects the types reads the task through a payload that holds exceptions. -/
theorem cast_is_wrong : ∃ s, Reach (step ReturnTask.act)
    (WellTyped ReturnTask.act (ReturnTask.typing .exceptionPtr .errorCode))
    (init fun _ : Unit => ReturnTask.main) s ∧
    (3, 4, .ok (.val 7)) ∈ s.reads ∧ (ReturnTask.typing .exceptionPtr .errorCode).casts 4 ≠
      (ReturnTask.typing .exceptionPtr .errorCode).made 3 := by
  have hrun : (runWhile (fun s l => decide
      (WellTyped ReturnTask.act (ReturnTask.typing .exceptionPtr .errorCode) s l))
        (step ReturnTask.act)
      (init fun _ : Unit => .main) ReturnTask.trace).map (fun s => s.reads) =
      some [(3, 4, .ok (.val 7)), (0, 2, .ok (.task 3))] := by rfl
  obtain ⟨s, hreach, hreads⟩ := exists_reach_of_runWhile (fun _ _ => of_decide_eq_true) hrun
  refine ⟨s, hreach, ?_, by decide⟩
  rw [hreads]
  exact .head _

end Arcana.Tasks
