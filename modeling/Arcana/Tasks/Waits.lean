import Arcana.Foundations.Acyclic
import Arcana.Tasks.Redirects

/-!
# What waits for a task

A payload waits for another one when the other one holds a continuation that runs it, or when it is
the stand-in that the continuation of `task_factory` completes (`State.Waits`). The continuations
that `add_continuations` is about to store are held by the payload at the end of the redirects
already. A collapse gives what waits for the stand-in to the payload at the end of the redirects
from the right. As long as that one is not the stand-in itself and does not wait for it
(`NoCircle`), nothing ever waits for itself (`Untangled`).

* `State.Waits` and `Frame.Adds` say what waits, and what a call is about to store.
* `NoCircle` is the condition on a step, and `Untangled` the invariant.
* `Untangled.collapse` is the one step that lets payloads wait for another one than before.
* `Untangled.step` says that every step that closes no circle keeps what waits untangled.
-/

namespace Arcana.Tasks

open Function Foundations Relation

variable {T O U V E : Type*}

/-- The payload `c` waits for the payload `p`. -/
inductive State.Waits (s : State T U V E) : ℕ → ℕ → Prop
  | stored {p : ℕ} {c : Continuation} : c ∈ (s.heap p).continuation.span → Waits s p c.continuation
  | adding {t : T} {q p : ℕ} {cs : List Continuation} {c : Continuation} :
    .addContinuations q cs ∈ s.stack t → c ∈ cs → Leads s.redirect q p → Waits s p c.continuation
  | standIn {p source : ℕ} : (s.heap p).work = some (.unwrap source) → Waits s p source

/-- The step does not collapse a payload into itself, or into one that waits for it. -/
def NoCircle (s : State T U V E) (l : Label T O) : Prop :=
  ∀ left right rest r, s.stack l.thread = .collapseLeftIntoRight left right :: rest →
    Leads s.redirect right r → ¬ ReflTransGen s.Waits left r

/-- Nothing waits for itself, and every chain of redirects ends. -/
structure Untangled (s : State T U V E) : Prop where
  rooted : Rooted s.redirect
  acyclic : Acyclic s.Waits

/-- The continuations that a call is about to store are waiting already. -/
def Frame.Adds (s : State T U V E) : Frame U V E → Prop
  | .addContinuations q cs => ∀ c ∈ cs, ∀ p, Leads s.redirect q p → s.Waits p c.continuation
  | _ => True

variable {s s' : State T U V E} {t : T} {fs : List (Frame U V E)} {p c : ℕ}

namespace State.Waits

variable [DecidableEq T]

/-- A step that redirects and allocates nothing. -/
theorem moved (h : s'.Waits p c) (redirect : s'.redirect = s.redirect)
    (heap : ∀ q, (s'.heap q).work = (s.heap q).work ∧
      ∀ c ∈ (s'.heap q).continuation.span, s.Waits q c.continuation)
    (stack : s'.stack = update s.stack t fs) (frames : ∀ f ∈ fs, f ∈ s.stack t ∨ f.Adds s) :
    s.Waits p c := by
  cases h with
  | stored hc => exact (heap p).2 _ hc
  | @adding t' q p cs c hf hc hp =>
    rw [redirect] at hp
    rw [stack, update_apply] at hf
    split at hf
    · rcases frames _ hf with hold | hadds
      · exact .adding hold hc hp
      · exact hadds c hc p hp
    · exact .adding hf hc hp
  | standIn hwork => exact .standIn ((heap p).1 ▸ hwork)

/-- A step that leaves the heap alone. -/
theorem move (h : s'.Waits p c) (heap : s'.heap = s.heap) (stack : s'.stack = update s.stack t fs)
    (frames : ∀ f ∈ fs, f ∈ s.stack t ∨ f.Adds s) : s.Waits p c :=
  h.moved (redirect_of_heap_eq heap) (fun q => ⟨by rw [heap], fun c hc => .stored (heap ▸ hc)⟩)
    stack frames

/-- A step that writes a payload and does not redirect it. -/
theorem write {q : ℕ} {x : Payload U V E} (h : s'.Waits p c) (heap : s'.heap = update s.heap q x)
    (redirect : x.taskRedirect = (s.heap q).taskRedirect) (work : x.work = (s.heap q).work)
    (span : ∀ c ∈ x.continuation.span, s.Waits q c.continuation)
    (stack : s'.stack = update s.stack t fs)
    (frames : ∀ f ∈ fs, f ∈ s.stack t ∨ f.Adds s) : s.Waits p c := by
  refine h.moved (redirect_update_of_eq heap redirect) (fun q' => ?_) stack frames
  rw [heap, update_apply]
  split
  · rename_i e
    subst e
    exact ⟨work, span⟩
  · exact ⟨rfl, fun c => .stored⟩

/-- A step that sets a result. -/
theorem setResult {q : ℕ} {r : Expected V E} (h : s'.Waits p c)
    (heap : s'.heap = update s.heap q { s.heap q with result := some r })
    (stack : s'.stack = update s.stack t fs) (frames : ∀ f ∈ fs, f ∈ s.stack t ∨
    f.Adds s) : s.Waits p c :=
  h.write heap rfl rfl (fun _ => .stored) stack frames

end State.Waits

/-- The end of the redirects from a payload is one. -/
theorem WellFormed.leads_lt (h : WellFormed s) {q : ℕ} (hq : q < s.next)
    (hp : Leads s.redirect q p) :
    p < s.next := by
  induction hp with
  | root => exact hq
  | @hop x y r hxy _ ih => exact ih ((h.payload x).redirect y hxy).2

/-- What is waited for is a payload. -/
theorem State.Waits.lt (h : s.Waits p c) (hw : WellFormed s) : p < s.next := by
  have hlt (hp : s.heap p ≠ {}) : p < s.next := by
    by_contra hlt
    exact hp (hw.blank p (by omega))
  cases h with
  | stored hc =>
    refine hlt fun e => ?_
    rw [e] at hc
    cases hc
  | adding hf _ hp => exact hw.leads_lt (hw.frames _ _ hf).1 hp
  | standIn hwork =>
    refine hlt fun e => ?_
    rw [e] at hwork
    cases hwork

/-! ## What a step adds -/

section

variable [DecidableEq T]

/-- What waits after an allocation: the new continuation, and the continuation inside of
`task_factory` with its stand-in. -/
theorem Factory.waits {s₁ : State T U V E} {work : Work U V E} {unwrap : Bool} {toRun toReturn : ℕ}
    (hf : Factory s work unwrap s₁ toRun toReturn) (hw : WellFormed s)
    (hwork : ∀ source, work ≠ .unwrap source)
    (heap : s'.heap = s₁.heap) (stack : s'.stack = update s.stack t fs)
    (frames : ∀ f ∈ fs, f ∈ s.stack t ∨ ∀ q cs, f = .addContinuations q cs →
      q < s.next ∧ ∀ c ∈ cs, c.continuation = s.next) (h : s'.Waits p c) :
    s.Waits p c ∨ p = s.next ∧ c = s.next + 2 ∨ p = s.next + 2 ∧ c = s.next + 1 ∨
      p < s.next ∧ c = s.next := by
  have hredirect : s'.redirect = s.redirect := by
    rw [State.redirect_of_heap_eq heap, hf.redirect hw]
  have hnew : s₁.heap p = s.heap p ∨
      ((∀ c ∈ (s₁.heap p).continuation.span, p = s.next ∧ c.continuation = s.next + 2) ∧
        ∀ source, (s₁.heap p).work = some (.unwrap source) →
        p = s.next + 2 ∧ source = s.next + 1) := by
    cases hf with
    | plain =>
      simp only [update_apply]
      split
      · exact .inr ⟨nofun, fun source e => absurd (Option.some.inj e) (hwork source)⟩
      · exact .inl rfl
    | unwrap =>
      simp only [update_apply]
      split_ifs with h₂ h₁ h₀
      · exact .inr ⟨nofun, fun source e => ⟨h₂, (Work.unwrap.inj (Option.some.inj e)).symm⟩⟩
      · exact .inr ⟨nofun, nofun⟩
      · refine .inr ⟨fun c hc => ⟨h₀, ?_⟩, fun source e => absurd (Option.some.inj e)
          (hwork source)⟩
        rw [List.mem_singleton.1 hc]
      · exact .inl rfl
  cases h with
  | stored hc =>
    rw [heap] at hc
    rcases hnew with hold | ⟨hspan, -⟩
    · exact .inl (.stored (hold ▸ hc))
    · exact .inr (.inl (hspan _ hc))
  | @adding t' q p cs c hmem hc hp =>
    rw [hredirect] at hp
    rw [stack, update_apply] at hmem
    split at hmem
    · rcases frames _ hmem with hold | hadds
      · exact .inl (.adding hold hc hp)
      · obtain ⟨hq, hcs⟩ := hadds q cs rfl
        exact .inr (.inr (.inr ⟨hw.leads_lt hq hp, hcs c hc⟩))
    · exact .inl (.adding hmem hc hp)
  | standIn hwork' =>
    rw [heap] at hwork'
    rcases hnew with hold | ⟨-, hunwrap⟩
    · exact .inl (.standIn (hold ▸ hwork'))
    · exact .inr (.inr (.inl (hunwrap _ hwork')))

/-- An allocation tangles nothing: what is new waits for what was there, or for what is new. -/
theorem Untangled.allocate {s₁ : State T U V E} {work : Work U V E} {unwrap : Bool}
    {toRun toReturn : ℕ}
    (h : Untangled s) (hf : Factory s work unwrap s₁ toRun toReturn) (hw : WellFormed s)
    (hwork : ∀ source, work ≠ .unwrap source) (heap : s'.heap = s₁.heap)
    (stack : s'.stack = update s.stack t fs)
    (frames : ∀ f ∈ fs, f ∈ s.stack t ∨ ∀ q cs, f = .addContinuations q cs →
      q < s.next ∧ ∀ c ∈ cs, c.continuation = s.next) : Untangled s' := by
  have hwaits {p c : ℕ} (hpc : s'.Waits p c) := hf.waits hw hwork heap stack frames hpc
  refine ⟨?_, Acyclic.of_closed (S := (s.next ≤ ·)) (fun p c hp hpc => ?_) ?_ ?_⟩
  · rw [State.redirect_of_heap_eq heap, hf.redirect hw]
    exact h.rooted
  · rcases hwaits hpc with hold | ⟨-, rfl⟩ | ⟨-, rfl⟩ | ⟨-, rfl⟩
    · have := hold.lt hw
      omega
    · omega
    · omega
    · exact le_rfl
  · let f (x : ℕ) : ℕ := if x = s.next then 2 else if x = s.next + 2 then 1 else 0
    refine Acyclic.of_measure (f := f) (Acyclic.of_empty (r := fun _ _ => False) fun _ _ => id)
      fun p c ⟨hp, hpc⟩ => .inl ?_
    rcases hwaits hpc with hold | ⟨rfl, rfl⟩ | ⟨rfl, rfl⟩ | ⟨hlt, -⟩
    · have := hold.lt hw
      omega
    · simp [f]
    · simp [f]
    · omega
  · refine h.acyclic.mono fun p c ⟨hp, hc, hpc⟩ => ?_
    rcases hwaits hpc with hold | ⟨rfl, -⟩ | ⟨rfl, -⟩ | ⟨-, rfl⟩
    · exact hold
    · exact absurd le_rfl hp
    · omega
    · exact absurd le_rfl hc

/-- What waits after a collapse: the payload at the end of the redirects from the right takes over
what waited for the one on the left. -/
theorem State.Waits.collapse {left right r : ℕ} {rest : List (Frame U V E)}
    (hrooted : Rooted s.redirect)
    (hs : s.stack t = .collapseLeftIntoRight left right :: rest) (hleft : s.redirect left = none)
    (hr : Leads s.redirect right r) (hne : r ≠ left)
    (h : ((s.setPayload left ((s.heap left).cannibalized (some right))).setStack t
      (.addContinuations right ((s.heap left).continuation.span.map (·.reparent right)) ::
        rest)).Waits p c) :
    s.Waits p c ∨ p = r ∧ s.Waits left c := by
  set s' := (s.setPayload left ((s.heap left).cannibalized (some right))).setStack t
    (.addContinuations right ((s.heap left).continuation.span.map (·.reparent right)) ::
      rest) with hs'
  have hredirect : s'.redirect = update s.redirect left (some right) :=
    redirect_update ((s.heap left).cannibalized (some right)) rfl
  have hr' : Leads s'.redirect right r := by
    rw [hredirect]
    exact hr.update_of_ne hleft hne
  -- a payload whose redirects ended on the left is redirected to the end from the right
  have ends {q p : ℕ} (hp : Leads s'.redirect q p) : Leads s.redirect q p ∨
      Leads s.redirect q left ∧ p = r := by
    obtain ⟨r₀, hr₀⟩ := hrooted q
    by_cases e : r₀ = left
    · subst e
      have hq : Leads s'.redirect q r := by
        rw [hredirect] at hr' ⊢
        exact hr₀.update_of_eq hr'
      exact .inr ⟨hr₀, hp.unique hq⟩
    · have hq : Leads s'.redirect q r₀ := by
        rw [hredirect]
        exact hr₀.update_of_ne hleft e
      rw [hp.unique hq]
      exact .inl hr₀
  cases h with
  | stored hc =>
    simp only [hs', State.setStack_heap, State.setPayload_heap, update_apply] at hc
    split at hc
    · simp [Payload.cannibalized] at hc
    · exact .inl (.stored hc)
  | @adding t' q p cs c hmem hc hp =>
    have old (hmem : .addContinuations q cs ∈ s.stack t') :
        s.Waits p c.continuation ∨ p = r ∧ s.Waits left c.continuation := by
      rcases ends hp with hp | ⟨hq, rfl⟩
      · exact .inl (.adding hmem hc hp)
      · exact .inr ⟨rfl, .adding hmem hc hq⟩
    simp only [hs', State.setStack_stack, update_apply] at hmem
    split at hmem
    · rename_i e
      subst e
      rcases List.mem_cons.1 hmem with heq | hmem
      · cases heq
        obtain ⟨d, hd, rfl⟩ := List.mem_map.1 hc
        exact .inr ⟨hp.unique hr', .stored (c := d) hd⟩
      · exact old (by rw [hs]; exact .tail _ hmem)
    · exact old hmem
  | standIn hwork =>
    refine .inl (.standIn ?_)
    simp only [hs', State.setStack_heap, State.setPayload_heap, update_apply] at hwork
    split at hwork
    · rename_i e
      rw [e]
      exact hwork
    · exact hwork

/-- **A collapse that closes no circle tangles nothing.** -/
theorem Untangled.collapse {left right : ℕ} {rest : List (Frame U V E)} (h : Untangled s)
    (hs : s.stack t = .collapseLeftIntoRight left right :: rest) (hleft : s.redirect left = none)
    (ok : ∀ r, Leads s.redirect right r → ¬ ReflTransGen s.Waits left r) :
    Untangled ((s.setPayload left ((s.heap left).cannibalized (some right))).setStack t
      (.addContinuations right ((s.heap left).continuation.span.map (·.reparent right)) ::
        rest)) := by
  obtain ⟨r, hr⟩ := h.rooted right
  have hne : r ≠ left := by
    rintro rfl
    exact ok r hr .refl
  have hpass : ¬ Passes s.redirect right left :=
    fun hpass => hne (hr.unique (Passes.leads hpass hleft))
  constructor
  · exact Eq.mpr (congrArg Rooted
      (State.redirect_update ((s.heap left).cannibalized (some right)) rfl))
      (h.rooted.update hleft hpass)
  · exact h.acyclic.adopt (ok r hr) fun p c hpc => hpc.collapse h.rooted hs hleft hr hne

end

/-! ## Runs -/

theorem Untangled.init (main : T → U) : Untangled (init main : State T U V E) where
  rooted p := ⟨p, .root rfl⟩
  acyclic := Acyclic.of_empty fun p c h => by
    cases h with
    | stored hc => cases hc
    | adding hmem => cases List.mem_singleton.1 hmem
    | standIn hwork => cases hwork

section

variable [DecidableEq T] [Fintype T] [ErrorTraits E] {act : U → O → Action U V E} {o : O}
  {l : Label T O}

/-- **Every step that closes no circle keeps what waits untangled.** -/
theorem Untangled.step (h : Untangled s) (hw : WellFormed s) (ok : NoCircle s l)
    (hstep : Step act s l.thread l.oracle s') : Untangled s' := by
  have keep (redirect : s'.redirect = s.redirect) (waits : ∀ p c, s'.Waits p c → s.Waits p c) :
      Untangled s' :=
    ⟨redirect ▸ h.rooted, h.acyclic.mono waits⟩
  have move {fs : List (Frame U V E)} (heap : s'.heap = s.heap)
    (stack : s'.stack = update s.stack l.thread fs)
      (frames : ∀ f ∈ fs, f ∈ s.stack l.thread ∨ f.Adds s) : Untangled s' :=
    keep (State.redirect_of_heap_eq heap) fun p c hpc => hpc.move heap stack frames
  have set {q : ℕ} {r : Expected V E} {fs : List (Frame U V E)}
      (heap : s'.heap = update s.heap q { s.heap q with result := some r })
      (stack : s'.stack = update s.stack l.thread fs)
      (frames : ∀ f ∈ fs, f ∈ s.stack l.thread ∨ f.Adds s) : Untangled s' :=
    keep (State.redirect_update_of_eq heap rfl) fun p c hpc => hpc.setResult heap stack frames
  have one {g : Frame U V E} {fs : List (Frame U V E)} (hg : g.Adds s)
      (hfs : ∀ f ∈ fs, f ∈ s.stack l.thread ∨ f.Adds s) :
      ∀ f ∈ g :: fs, f ∈ s.stack l.thread ∨ f.Adds s :=
    List.forall_mem_cons.2 ⟨.inr hg, hfs⟩
  have tail {f : Frame U V E} {rest : List (Frame U V E)} (hs : s.stack l.thread = f :: rest) :
      ∀ g ∈ rest, g ∈ s.stack l.thread ∨ g.Adds s := WellFormed.forall_tail_mem_or hs
  have unredirected {p : ℕ} (hc : (s.heap p).completed = false) :
      (s.heap p).taskRedirect = none := by
    by_contra hne
    obtain ⟨q, hq⟩ := Option.ne_none_iff_exists'.1 hne
    rw [((hw.payload p).redirect q hq).1] at hc
    cases hc
  cases hstep with
  | idle => exact move rfl rfl (one trivial nofun)
  | mainReturns => exact move rfl rfl nofun
  | returns hs =>
    exact set rfl rfl (one trivial fun g hg => .inl (by rw [hs]; exact .tail _ (.tail _ hg)))
  | refuses hs =>
    exact move rfl rfl (one trivial fun g hg => .inl (by rw [hs]; exact .tail _ (.tail _ hg)))
  | emits hs | ticksNothing hs | completed hs | runBare hs =>
    exact move rfl rfl (one trivial (tail hs))
  | ticks hs | unwrapsTask hs | handsInline hs =>
    exact move rfl rfl (one trivial (one trivial (tail hs)))
  | handsDispatcher hs | addsLate hs => exact move rfl rfl (one trivial (tail hs))
  | ranAll hs | addsNothing hs | unlocks hs => exact move rfl rfl (tail hs)
  | completes hs | unwrapsError hs => exact set rfl rfl (one trivial (one trivial (tail hs)))
  | unwrapped hs => exact set rfl rfl (one trivial (tail hs))
  | @decides q parent rest s₁ r hs hinput =>
    have hheap : ((s₁.setResult q r).setStack l.thread (.doCompletion q :: rest)).heap =
        update s.heap q { s.heap q with result := some r } := by
      rw [← hinput.heap_next.1]
      rfl
    exact set hheap (congrArg (update · _ _) hinput.sameRest.stack) (one trivial (tail hs))
  | invokes hs hinput =>
    exact move hinput.heap_next.1 (congrArg (update · _ _) hinput.sameRest.stack)
      (one trivial (one trivial (tail hs)))
  | constructs hs =>
    have hblank := hw.blank s.next le_rfl
    refine keep (State.redirect_update_of_eq rfl (by rw [hblank])) fun p c hpc => ?_
    exact hpc.write rfl (by rw [hblank]) (by rw [hblank]) nofun rfl (one trivial (tail hs))
  | makeTaskInline hs _ hf =>
    refine h.allocate hf hw nofun rfl (congrArg (update · _ _) hf.sameRest.stack) ?_
    exact List.forall_mem_cons.2 ⟨.inr nofun, List.forall_mem_cons.2
      ⟨.inr nofun, WellFormed.forall_tail_mem_or hs⟩⟩
  | makeTaskDispatcher hs _ hf =>
    refine h.allocate hf hw nofun rfl (congrArg (update · _ _) hf.sameRest.stack) ?_
    exact List.forall_mem_cons.2 ⟨.inr nofun, WellFormed.forall_tail_mem_or hs⟩
  | @thenDo _ _ p _ _ _ _ _ _ _ toRun _ hs _ hlt hf =>
    refine h.allocate hf hw nofun rfl (congrArg (update · _ _) hf.sameRest.stack) ?_
    refine List.forall_mem_cons.2 ⟨.inr fun q cs e => ?_, List.forall_mem_cons.2
      ⟨.inr nofun, WellFormed.forall_tail_mem_or hs⟩⟩
    cases e
    refine ⟨hlt, fun c hc => ?_⟩
    rw [List.mem_singleton.1 hc]
    exact hf.toRun_eq
  | @completesPayload p rest hs _ hc =>
    refine keep (State.redirect_update_of_eq rfl (unredirected hc).symm) fun q c hpc => ?_
    refine hpc.write rfl (unredirected hc).symm rfl (fun c hc => ?_) rfl (one trivial (tail hs))
    simp [Payload.cannibalized] at hc
  | @collapses left right rest hs _ hc =>
    exact h.collapse hs (unredirected hc) fun r => ok left right rest r hs
  | @addsAlong p q cs rest hs _ _ hr =>
    refine move rfl rfl (one (fun c hc a ha => ?_) (one trivial (tail hs)))
    obtain ⟨d, hd, rfl⟩ := List.mem_map.1 hc
    exact .adding (c := d) (by rw [hs]; exact .head _) hd (.hop hr ha)
  | @stores p cs rest hs _ _ hr hc =>
    refine keep (State.redirect_update_of_eq rfl rfl) fun q c hpc => ?_
    refine hpc.write rfl rfl rfl (fun d hd => ?_) rfl (tail hs)
    rw [ContinuationStorage.span_append, List.mem_append] at hd
    rcases hd with hd | hd
    · exact .stored hd
    · exact .adding (by rw [hs]; exact .head _) hd (.root hr)

end

end Arcana.Tasks
