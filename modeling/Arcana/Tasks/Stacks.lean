import Mathlib.Data.List.Chain
import Arcana.Tasks.Invariant

/-!
# Call stacks

Which call can be under way inside which other one. `Frame.Carries` lists the pairs of adjacent
frames of a call stack, the lower one first, with what the lower call knows about the upper one: a
source is completed by user code, the stand-in of `task_factory` is completed or collapsed by the
callable that was made for it, and a payload whose mutex is held during the recursion of
`add_continuations` is redirected to the payload that the recursion goes to. Every reachable call
stack is a chain of such pairs (`Stacked`).

* `Frame.Carries` lists the pairs, and `Stacked` says that all adjacent frames are among them.
* `NotLate` is the condition under which no continuations are run inside `add_continuations`.
* `Stacked.step` says that every step keeps the call stacks in shape, under the condition or without
  it.
* `Working` says of every `do_work` that invoked its callable that the call of it is on top.
-/

namespace Arcana.Tasks

open Function Foundations

variable {T O U V E : Type*}

/-- The call `g` can have the call `f` directly on top of it. With `late` the loop over
continuations that were added late can run inside `add_continuations`. -/
def Frame.Carries (late : Bool) (s : State T U V E) (g f : Frame U V E) : Prop :=
  match g, f with
  | .user _, .run _ _ | .user _, .doWork _ | .user _, .unwrapping _ | .user _, .doCompletion _
  | .user _, .runAll _ | .user _, .addContinuations _ _ | .user _, .holding _ => True
  | .completing _, .doCompletion p => p ∈ s.sources
  | .completing _, .runAll _ => True
  | .doWork _, .user _ | .doWork _, .completing _ => True
  | .unwrapping l, .doCompletion p | .unwrapping l, .collapseLeftIntoRight p _ =>
    (s.heap l).work = some (.unwrap p)
  | .unwrapping _, .runAll _ | .unwrapping _, .addContinuations _ _
  | .unwrapping _, .holding _ => True
  | .runAll _, .run _ _ | .runAll _, .doWork _ | .runAll _, .unwrapping _
  | .runAll _, .doCompletion _ | .runAll _, .runAll _ => True
  | .holding p, .holding q | .holding p, .addContinuations q _ =>
    (s.heap p).taskRedirect = some q
  | .holding _, .runAll _ => late = true
  | _, _ => False

/-- Adjacent frames of every call stack fit. -/
def Stacked (late : Bool) (s : State T U V E) : Prop :=
  ∀ t, (s.stack t).IsChain fun f g => g.Carries late s f

theorem Stacked.init (late : Bool) (main : T → U) : Stacked late (init main : State T U V E) :=
  fun _ => .singleton _

/-- What the lower call knows stays true. -/
theorem Frame.Carries.mono {late : Bool} {s s' : State T U V E} (h : WellFormed s)
    (he : s.Extends s') (hs : ∀ p ∈ s.sources, p ∈ s'.sources) {g f : Frame U V E} (hg : g.Ok s)
    (hc : g.Carries late s f) : g.Carries late s' f := by
  have work {l p : ℕ} (hl : l < s.next) (hw : (s.heap l).work = some (.unwrap p)) :
      (s'.heap l).work = some (.unwrap p) := (he.payload l hl).work.trans hw
  have redirect {p q : ℕ} (hp : p < s.next) (hr : (s.heap p).taskRedirect = some q) :
      (s'.heap p).taskRedirect = some q :=
    ((he.payload p hp).completed ((h.payload p).redirect q hr).1).2.trans hr
  cases g <;> cases f <;> try exact hc
  · exact hs _ hc
  · exact work hg.lt hc
  · exact work hg.lt hc
  · exact redirect hg hc
  · exact redirect hg hc

section

variable [DecidableEq T] [Fintype T] [ErrorTraits E] {act : U → O → Action U V E}
  {late : Bool} {s s' : State T U V E} {t : T} {o : O}

theorem Step.sources_subset (hstep : Step act s t o s') : ∀ p ∈ s.sources, p ∈ s'.sources := by
  intro p hp
  cases hstep with
  | constructs => exact .tail _ hp
  | makeTaskInline _ _ hf | makeTaskDispatcher _ _ hf | thenDo _ _ _ hf =>
    exact hf.sameRest.sources ▸ hp
  | decides _ hw | invokes _ hw => exact hw.sameRest.sources ▸ hp
  | _ => exact hp

/-- A step constructs a source at a fresh address. -/
theorem Step.mem_sources (hstep : Step act s t o s') {q : ℕ} (hq : q ∈ s'.sources) :
    q ∈ s.sources ∨ s.next ≤ q := by
  cases hstep with
  | constructs =>
    rcases List.mem_cons.1 hq with rfl | hq
    · exact .inr le_rfl
    · exact .inl hq
  | makeTaskInline _ _ hf | makeTaskDispatcher _ _ hf | thenDo _ _ _ hf =>
    exact .inl (hf.sameRest.sources ▸ hq)
  | decides _ hw | invokes _ hw => exact .inl (hw.sameRest.sources ▸ hq)
  | _ => exact .inl hq

omit [Fintype T] [ErrorTraits E] in
/-- The stacks stay stacked when the new one of the thread is. -/
theorem Stacked.next {fs : List (Frame U V E)} (h : WellFormed s) (hst : Stacked late s)
    (he : s.Extends s') (hsub : ∀ p ∈ s.sources, p ∈ s'.sources)
    (stack : s'.stack = update s.stack t fs)
    (hfs : ((s.stack t).IsChain fun f g => g.Carries late s' f) →
      fs.IsChain fun f g => g.Carries late s' f) : Stacked late s' := by
  have keep (t' : T) : (s.stack t').IsChain fun f g => g.Carries late s' f := by
    refine (hst t').imp_of_mem_imp fun f g _ hg hc => ?_
    exact hc.mono h he hsub (h.frames t' g hg)
  intro t'
  rw [stack, update_apply]
  split
  · exact hfs (keep t)
  · exact keep t'

omit [Fintype T] [ErrorTraits E] in
/-- A step that replaces the call on top. -/
theorem Stacked.replace {f f' : Frame U V E} {rest : List (Frame U V E)} (h : WellFormed s)
    (hst : Stacked late s) (he : s.Extends s') (hsub : ∀ p ∈ s.sources, p ∈ s'.sources)
    (hs : s.stack t = f :: rest) (stack : s'.stack = update s.stack t (f' :: rest))
    (hf : ∀ g : Frame U V E, g.Carries late s' f → g.Carries late s' f') : Stacked late s' := by
  refine hst.next h he hsub stack fun hc => ?_
  rw [hs] at hc
  exact hc.imp_head fun hg => hf _ hg

omit [Fintype T] [ErrorTraits E] in
/-- A step that replaces the call on top and makes a call. -/
theorem Stacked.call {f g f' : Frame U V E} {rest : List (Frame U V E)} (h : WellFormed s)
    (hst : Stacked late s) (he : s.Extends s') (hsub : ∀ p ∈ s.sources, p ∈ s'.sources)
    (hs : s.stack t = f :: rest) (stack : s'.stack = update s.stack t (f' :: g :: rest))
    (hf : ∀ g' : Frame U V E, g'.Carries late s' f → g'.Carries late s' g)
    (hg : g.Carries late s' f') : Stacked late s' := by
  refine hst.next h he hsub stack fun hc => ?_
  rw [hs] at hc
  exact .cons_cons hg (hc.imp_head fun hg' => hf _ hg')

omit [Fintype T] [ErrorTraits E] in
/-- A step that returns from the call on top. -/
theorem Stacked.pop {f : Frame U V E} {rest : List (Frame U V E)} (h : WellFormed s)
    (hst : Stacked late s) (he : s.Extends s') (hsub : ∀ p ∈ s.sources, p ∈ s'.sources)
    (hs : s.stack t = f :: rest) (stack : s'.stack = update s.stack t rest) : Stacked late s' := by
  refine hst.next h he hsub stack fun hc => ?_
  rw [hs] at hc
  exact hc.tail

/-- The step does not run continuations inside `add_continuations`: when the recursion of
`add_continuations` has come to the end of the redirects, that payload is not completed. -/
def NotLate (s : State T U V E) (t : T) : Prop :=
  ∀ p cs q rest, s.stack t = .addContinuations p cs :: .holding q :: rest → cs ≠ [] →
    (s.heap p).taskRedirect = none → (s.heap p).completed = false

/-- **Every step keeps the call stacks in shape.** -/
theorem Stacked.step (h : WellFormed s) (hst : Stacked late s) (hlate : late = false → NotLate s t)
    (hstep : Step act s t o s') : Stacked late s' := by
  have he := hstep.extends
  have hsub := hstep.sources_subset
  cases hstep with
  | idle | mainReturns =>
    exact hst.next h he hsub rfl fun _ => by simp
  | returns hs =>
    refine hst.next h he hsub rfl fun hc => ?_
    rw [hs] at hc
    refine hc.tail.imp_head fun {g} hg => ?_
    cases g <;> first | exact hg | exact hg.elim
  | emits hs | constructs hs | ticksNothing hs | completed hs =>
    refine hst.replace h he hsub hs rfl fun g hg => ?_
    cases g <;> exact hg
  | completes hs _ hp =>
    refine hst.call h he hsub hs rfl (fun g hg => ?_) hp
    cases g <;> exact hg
  | makeTaskInline hs _ hf | thenDo hs _ _ hf =>
    refine hst.call h he hsub hs (by rw [← hf.sameRest.stack]; rfl) (fun g hg => ?_) ?_
    · cases g <;> exact hg
    · trivial
  | makeTaskDispatcher hs _ hf =>
    refine hst.replace h he hsub hs (by rw [← hf.sameRest.stack]; rfl) fun g hg => ?_
    cases g <;> exact hg
  | ticks hs =>
    refine hst.call h he hsub hs rfl (fun g hg => ?_) trivial
    cases g <;> exact hg
  | runBare hs hw => exact absurd hw (h.top hs).1.work
  | decides hs hw =>
    refine hst.replace h he hsub hs (by rw [← hw.sameRest.stack]; rfl) fun g hg => ?_
    cases g <;> first | exact hg | exact hg.elim
  | invokes hs hw =>
    refine hst.call h he hsub hs (by rw [← hw.sameRest.stack]; rfl) (fun g hg => ?_) ?_
    · cases g <;> exact hg
    · trivial
  | unwrapsError hs hw =>
    refine hst.call h he hsub hs rfl (fun g hg => ?_) ?_
    · cases g <;> exact hg
    · exact (he.payload _ (h.top hs).1.lt).work.trans hw
  | unwrapsTask hs hw =>
    refine hst.call h he hsub hs rfl (fun g hg => ?_) hw
    cases g <;> exact hg
  | unwrapped hs =>
    refine hst.replace h he hsub hs rfl fun g hg => ?_
    cases g <;> first | exact hg | exact hg.elim
  | completesPayload hs =>
    refine hst.replace h he hsub hs rfl fun g hg => ?_
    cases g <;> trivial
  | refuses hs =>
    refine hst.next h he hsub rfl fun hc => ?_
    rw [hs] at hc
    refine hc.tail.imp_head fun {g} hg => ?_
    cases g <;> exact hg
  | ranAll hs | addsNothing hs | unlocks hs | stores hs => exact hst.pop h he hsub hs rfl
  | handsInline hs =>
    refine hst.call h he hsub hs rfl (fun g hg => ?_) trivial
    cases g <;> exact hg
  | handsDispatcher hs =>
    refine hst.replace h he hsub hs rfl fun g hg => ?_
    cases g <;> exact hg
  | collapses hs =>
    refine hst.replace h he hsub hs rfl fun g hg => ?_
    cases g <;> trivial
  | addsAlong hs _ _ hr =>
    refine hst.call h he hsub hs rfl (fun g hg => ?_) hr
    cases g <;> exact hg
  | @addsLate p cs rest hs hcs _ hr hc =>
    refine hst.next h he hsub rfl fun hk => ?_
    rw [hs] at hk
    cases rest with
    | nil => exact .singleton _
    | cons g rest =>
      obtain ⟨hg, hk⟩ := List.isChain_cons_cons.1 hk
      refine .cons_cons ?_ hk
      cases g with
      | holding q =>
        cases late with
        | false =>
          have hnot := hlate rfl p cs q rest hs hcs hr
          rw [hnot] at hc
          cases hc
        | true => rfl
      | _ => first | exact hg | trivial

/-- Every `do_work` that invoked its callable has the call of it on top. -/
def Working (s : State T U V E) : Prop := ∀ t p rest, s.stack t ≠ .doWork p :: rest

omit [Fintype T] [ErrorTraits E] in
theorem Working.of_top {fs : List (Frame U V E)} (h : Working s)
    (stack : s'.stack = update s.stack t fs) (top : ∀ p rest, fs ≠ .doWork p :: rest) :
    Working s' := by
  intro t' p rest hs
  rw [stack, update_apply] at hs
  split at hs
  · exact top p rest hs
  · exact h t' p rest hs

/-- A call that returns was not the call of a callable. -/
theorem Working.step (hst : Stacked late s) (h : Working s) (hstep : Step act s t o s') :
    Working s' := by
  have hc := hst t
  cases hstep with
  | ranAll hs | addsNothing hs | unlocks hs | stores hs =>
    refine h.of_top rfl fun p rest' e => ?_
    rw [hs, e] at hc
    exact (List.isChain_cons_cons.1 hc).1
  | makeTaskInline _ _ hf | makeTaskDispatcher _ _ hf | thenDo _ _ _ hf =>
    exact h.of_top (by rw [← hf.sameRest.stack]; rfl) (by simp)
  | decides _ hw | invokes _ hw => exact h.of_top (by rw [← hw.sameRest.stack]; rfl) (by simp)
  | _ => exact h.of_top rfl (by simp)

end

end Arcana.Tasks
