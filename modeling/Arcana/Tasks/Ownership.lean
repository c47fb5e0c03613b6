import Arcana.Tasks.Stacks
import Arcana.Tasks.Weight

/-!
# Every payload is completed by one owner

A payload that no user code completes has an owner that will: the continuation or queued callable
that runs it, the call that does, or, for the stand-in of `task_factory`, whoever owns the callable
made for it. `Weight.owners` counts the owners of a payload and its completion together, and the
total stays one from the allocation on (`Owned`). So a payload that has an owner is not completed,
and nothing is run twice.

* `owes` and `Frame.owes` count how often a payload is completed by what runs a continuation, and by
  a call.
* `Weight.owners` is the weight that adds these up, with the completion of the payload itself.
* `Owned` is the invariant, and `SourcesApart` the part of it about the sources of user code.
* `Step.owners` says that every step passes the owners on, from which `Owned.step` follows.
-/

namespace Arcana.Tasks

open Function Foundations

variable {T O U V E : Type*}

/-- The stand-in that a work completes besides its own payload. -/
def Work.standIn : Work U V E → Option ℕ
  | .unwrap source => some source
  | _ => none

/-- How often `p` is completed by running `l`, given the works of all payloads. -/
def owes (work : ℕ → Option (Work U V E)) (p l : ℕ) : ℕ :=
  (if l = p then 1 else 0) + if (work l).bind Work.standIn = some p then 1 else 0

/-- How often `p` is completed by running the continuations `cs`. -/
def owesAll (work : ℕ → Option (Work U V E)) (p : ℕ) (cs : List Continuation) : ℕ :=
  (cs.map fun c => owes work p c.continuation).sum

/-- How often `p` is completed by a call under way. -/
def Frame.owes (work : ℕ → Option (Work U V E)) (p : ℕ) : Frame U V E → ℕ
  | .run l _ => Tasks.owes work p l
  | .doWork l | .unwrapping l | .doCompletion l | .collapseLeftIntoRight l _ =>
    if l = p then 1 else 0
  | .runAll cs | .addContinuations _ cs => owesAll work p cs
  | .user _ | .completing _ | .holding _ => 0

/-- The weight that counts the owners of `p`, and its completion. -/
@[simps] def Weight.owners (work : ℕ → Option (Work U V E)) (p : ℕ) : Weight U V E where
  payload q y := owesAll work p y.continuation.span + if q = p ∧ y.completed = true then 1 else 0
  frame f := f.owes work p
  callable c := Tasks.owes work p c.1

section owes

variable {work : ℕ → Option (Work U V E)} {p l : ℕ}

@[simp] theorem owesAll_nil : owesAll work p [] = 0 := rfl

@[simp] theorem owesAll_cons (c : Continuation) (cs : List Continuation) :
    owesAll work p (c :: cs) = owes work p c.continuation + owesAll work p cs := by
  simp [owesAll]

@[simp] theorem owesAll_append (cs ds : List Continuation) :
    owesAll work p (cs ++ ds) = owesAll work p cs + owesAll work p ds := by
  simp [owesAll]

@[simp] theorem owesAll_reparent (cs : List Continuation) (q : ℕ) :
    owesAll work p (cs.map (·.reparent q)) = owesAll work p cs := by
  simp [owesAll, Function.comp_def]

theorem owes_of_standIn_eq_none (h : (work l).bind Work.standIn = none) :
    owes work p l = if l = p then 1 else 0 := by
  simp [owes, h]

theorem owes_of_unwrap {source : ℕ} (h : work l = some (.unwrap source)) :
    owes work p l = (if l = p then 1 else 0) + if source = p then 1 else 0 := by
  simp [owes, h, Work.standIn]

end owes

/-- **Every payload that user code does not complete has one owner until it is completed.** The
works are given by a function that agrees with the heap, so that the count does not change with
it. -/
def Owned [Fintype T] (s : State T U V E) : Prop :=
  ∀ work : ℕ → Option (Work U V E), (∀ q < s.next, (s.heap q).work = work q) →
    ∀ p ∉ s.sources, s.weight (.owners work p) = if p < s.next then 1 else 0

/-- No callable of the program completes a source of user code: it has no work, and it is not the
stand-in of another work. -/
structure SourcesApart (s : State T U V E) : Prop where
  bare : ∀ p ∈ s.sources, (s.heap p).work = none
  standIn : ∀ l p, (s.heap l).work = some (.unwrap p) → p ∉ s.sources

section

variable [Fintype T] {s s₁ s' : State T U V E} {t : T} {o : O}

omit [Fintype T] in
theorem WorkInput.standIn [ErrorTraits E] {p : ℕ} {parent : Option ℕ} {x : Expected V E ⊕ U}
    (h : WorkInput s p parent s₁ x) : (s.heap p).work.bind Work.standIn = none := by
  cases h with
  | start hw => simp [hw, Work.standIn]
  | continuation hw => simp [hw, Work.standIn]

theorem Owned.init (main : T → U) : Owned (init main : State T U V E) := by
  intro work _ p _
  simp [State.weight, State.stackWeight, Weight.payloads, Tasks.init, Frame.owes]

/-- Allocation gives every fresh payload an owner, but for the one to run. -/
theorem Factory.owners {work : Work U V E} {unwrap : Bool} {toRun toReturn : ℕ}
    (hf : Factory s work unwrap s₁ toRun toReturn) (hw : work.standIn = none)
    {works : ℕ → Option (Work U V E)} (hworks : ∀ q < s₁.next, (s₁.heap q).work = works q) (p : ℕ) :
    s₁.weight (.owners works p) + (owes works p toRun + if p < s.next then 1 else 0) =
      s.weight (.owners works p) + if p < s₁.next then 1 else 0 := by
  have hlt (q : ℕ) (hq : q < s.next) : s₁.heap q = s.heap q := hf.heap_of_lt hq
  cases hf with
  | plain =>
    have hrun : works s.next = some work := by rw [← hworks s.next (by simp)]; simp
    rw [State.weight_alloc _ 1 rfl hlt rfl rfl, owes_of_standIn_eq_none (by simp [hrun, hw])]
    simp
    split_ifs <;> omega
  | unwrap =>
    have hrun : works s.next = some work := by
      rw [← hworks s.next (by simp)]
      simp
    have hunwrap : works (s.next + 2) = some (.unwrap (s.next + 1)) := by
      rw [← hworks (s.next + 2) (by simp)]
      simp
    rw [State.weight_alloc _ 3 rfl hlt rfl rfl, owes_of_standIn_eq_none (by simp [hrun, hw])]
    simp [Finset.sum_range_succ, update_apply, owes_of_unwrap hunwrap]
    split_ifs <;> omega

variable [DecidableEq T] [ErrorTraits E] {act : U → O → Action U V E} {late : Bool}

/-- **Every step passes the owners on.** -/
theorem Step.owners (h : WellFormed s) (hst : Stacked late s) (hstep : Step act s t o s')
    {works : ℕ → Option (Work U V E)} (hworks : ∀ q < s'.next, (s'.heap q).work = works q) {p : ℕ}
    (hp : p ∉ s'.sources) :
    s'.weight (.owners works p) + (if p < s.next then 1 else 0) =
      s.weight (.owners works p) + if p < s'.next then 1 else 0 := by
  have hold (q : ℕ) (hq : q < s.next) : works q = (s.heap q).work := by
    have hext := hstep.extends
    rw [← hworks q (hq.trans_le hext.next_le), (hext.payload q hq).work]
  have hsub := hstep.sources_subset
  cases hstep with
  | idle hs hq =>
    refine State.Shifts.eq (State.weight_take _ hq rfl rfl rfl rfl) ?_
    simp [hs, Frame.owes]
  | ticks hs _ hq =>
    refine State.Shifts.eq (State.weight_take _ hq rfl rfl rfl rfl) ?_
    simp [hs, Frame.owes]
    omega
  | mainReturns hs | emits hs | ticksNothing hs | completed hs | ranAll hs | addsNothing hs
  | unlocks hs =>
    refine State.Shifts.eq (State.weight_move _ rfl rfl rfl rfl) ?_
    simp [hs, Frame.owes]
  | returns hs | unwrapped hs =>
    refine State.Shifts.eq (State.weight_rewrite _ rfl rfl rfl rfl rfl) ?_
    simp [hs, Frame.owes]
  | constructs hs =>
    have hsource : s.makeSource.weight (.owners works p) = s.weight (.owners works p) := by
      rw [State.weight_makeSource]
      simp
    have hne : p ≠ s.next := by
      rintro rfl
      exact hp (.head _)
    rw [← hsource]
    refine State.Shifts.eq (State.weight_move _ rfl rfl rfl rfl) ?_
    simp [hs, Frame.owes]
    split_ifs <;> omega
  | @completes u rest q r k hs _ hq =>
    have hne : q ≠ p := by
      rintro rfl
      exact hp (hsub q hq)
    refine State.Shifts.eq (State.weight_rewrite _ rfl rfl rfl rfl rfl) ?_
    simp [hs, Frame.owes, hne]
  | makeTaskInline hs _ hf =>
    have same := hf.sameRest
    rw [← same.stack] at hs
    refine State.weight_trans (hf.owners rfl hworks p)
      (State.Shifts.eq (State.weight_move _ rfl rfl rfl rfl) ?_)
    simp [hs, Frame.owes]
    omega
  | makeTaskDispatcher hs _ hf =>
    have same := hf.sameRest
    rw [← same.stack] at hs
    refine State.weight_trans (hf.owners rfl hworks p)
      (State.Shifts.eq (State.weight_put _ rfl rfl rfl rfl) ?_)
    simp [hs, Frame.owes]
    omega
  | thenDo hs _ _ hf =>
    have same := hf.sameRest
    rw [← same.stack] at hs
    refine State.weight_trans (hf.owners rfl hworks p)
      (State.Shifts.eq (State.weight_move _ rfl rfl rfl rfl) ?_)
    simp [hs, Frame.owes]
    omega
  | runBare hs hw => exact absurd hw (h.top hs).1.work
  | @decides q parent rest s₁ r hs hw =>
    have same := hw.sameRest
    have hnone : (works q).bind Work.standIn = none := by
      rw [hold q (h.top hs).1.lt, hw.standIn]
    rw [← same.stack] at hs
    rw [← hw.weight, ← hw.heap_next.2]
    refine State.Shifts.eq (State.weight_rewrite _ rfl rfl rfl rfl rfl) ?_
    simp [hs, Frame.owes, owes_of_standIn_eq_none hnone]
  | @invokes q parent rest s₁ u hs hw =>
    have same := hw.sameRest
    have hnone : (works q).bind Work.standIn = none := by
      rw [hold q (h.top hs).1.lt, hw.standIn]
    rw [← same.stack] at hs
    rw [← hw.weight, ← hw.heap_next.2]
    refine State.Shifts.eq (State.weight_move _ rfl rfl rfl rfl) ?_
    simp [hs, Frame.owes, owes_of_standIn_eq_none hnone]
  | @unwrapsError l q source rest e hs hw =>
    have hunwrap : works l = some (.unwrap source) := by rw [hold l (h.top hs).1.lt, hw]
    refine State.Shifts.eq (State.weight_rewrite _ rfl rfl rfl rfl rfl) ?_
    simp [hs, Frame.owes, owes_of_unwrap hunwrap]
    omega
  | @unwrapsTask l q source r rest hs hw =>
    have hunwrap : works l = some (.unwrap source) := by rw [hold l (h.top hs).1.lt, hw]
    refine State.Shifts.eq (State.weight_move _ rfl rfl rfl rfl) ?_
    simp [hs, Frame.owes, owes_of_unwrap hunwrap]
    omega
  | completesPayload hs _ hc =>
    refine State.Shifts.eq (State.weight_write _ (h.top hs).1 rfl rfl rfl rfl) ?_
    simp [hs, Frame.owes, Payload.cannibalized, hc]
    omega
  | @refuses q k rest hs _ hc =>
    have hne : q ≠ p := by
      rintro rfl
      have hchain := hst t
      rw [hs] at hchain
      exact hp (List.isChain_cons_cons.1 hchain).1
    refine State.Shifts.eq (State.weight_move _ rfl rfl rfl rfl) ?_
    simp [hs, Frame.owes, hne]
  | handsInline hs =>
    refine State.Shifts.eq (State.weight_move _ rfl rfl rfl rfl) ?_
    simp [hs, Frame.owes]
    omega
  | handsDispatcher hs =>
    refine State.Shifts.eq (State.weight_put _ rfl rfl rfl rfl) ?_
    simp [hs, Frame.owes]
    omega
  | addsAlong hs | addsLate hs =>
    refine State.Shifts.eq (State.weight_move _ rfl rfl rfl rfl) ?_
    simp [hs, Frame.owes]
  | collapses hs _ hc =>
    refine State.Shifts.eq (State.weight_write _ (h.top hs).1 rfl rfl rfl rfl) ?_
    simp [hs, Frame.owes, Payload.cannibalized, hc]
    omega
  | stores hs _ _ _ hc =>
    refine State.Shifts.eq (State.weight_write _ (h.top hs).1 rfl rfl rfl rfl) ?_
    simp [hs, Frame.owes, hc]
    omega

theorem Owned.step (h : WellFormed s) (hst : Stacked late s) (ho : Owned s)
    (hstep : Step act s t o s') : Owned s' := by
  intro works hworks p hp
  have hworks₀ (q : ℕ) (hq : q < s.next) : (s.heap q).work = works q := by
    have hext := hstep.extends
    rw [← hworks q (hq.trans_le hext.next_le), (hext.payload q hq).work]
  have hp₀ : p ∉ s.sources := fun hp' => hp (hstep.sources_subset p hp')
  have hsum := ho works hworks₀ p hp₀
  have hkeep := hstep.owners h hst hworks hp
  omega

omit [Fintype T] [DecidableEq T] [ErrorTraits E] in
theorem SourcesApart.congr (ha : SourcesApart s)
    (work : ∀ q, (s'.heap q).work = (s.heap q).work) (sources : s'.sources = s.sources) :
    SourcesApart s' where
  bare p hp := by
    rw [work]
    exact ha.bare p (sources ▸ hp)
  standIn l p hl := by
    rw [work] at hl
    rw [sources]
    exact ha.standIn l p hl

omit [Fintype T] [DecidableEq T] [ErrorTraits E] in
/-- Writing a payload without touching its work. -/
theorem SourcesApart.write (ha : SourcesApart s) {p : ℕ} {x : Payload U V E}
    (heap : s'.heap = update s.heap p x) (work : x.work = (s.heap p).work)
    (sources : s'.sources = s.sources) : SourcesApart s' := by
  refine ha.congr (fun q => ?_) sources
  rw [heap, update_apply]
  split
  · rename_i e
    rw [e, work]
  · rfl

omit [Fintype T] [DecidableEq T] [ErrorTraits E] in
/-- A fresh payload is no source, and its work completes no source. -/
theorem Factory.apart {work : Work U V E} {unwrap : Bool} {toRun toReturn : ℕ}
    (hf : Factory s work unwrap s₁ toRun toReturn) (h : WellFormed s) (hw : work.standIn = none)
    (ha : SourcesApart s) : SourcesApart s₁ := by
  have hfresh (q : ℕ) (hq : s.next ≤ q) : q ∉ s.sources := fun hs => by
    have := h.sources q hs
    omega
  constructor
  · intro p hp
    rw [hf.sameRest.sources] at hp
    rw [hf.heap_of_lt (h.sources p hp)]
    exact ha.bare p hp
  · intro l p hl
    rw [hf.sameRest.sources]
    by_cases hlt : l < s.next
    · rw [hf.heap_of_lt hlt] at hl
      exact ha.standIn l p hl
    · have hblank : (s.heap l).work = none := by rw [h.blank l (by omega)]
      cases hf with
      | plain =>
        simp only [update_apply] at hl
        split at hl
        · cases hl
          simp [Work.standIn] at hw
        · rw [hblank] at hl
          cases hl
      | unwrap =>
        simp only [update_apply] at hl
        split_ifs at hl
        · cases hl
          exact hfresh _ (by omega)
        · cases hl
          simp [Work.standIn] at hw
        · rw [hblank] at hl
          cases hl

/-- Sources of user code stay apart. -/
theorem SourcesApart.step (h : WellFormed s) (ha : SourcesApart s) (hstep : Step act s t o s') :
    SourcesApart s' := by
  cases hstep with
  | returns | completes | unwrapsError | unwrapped | completesPayload | collapses | stores =>
    exact ha.write rfl rfl rfl
  | decides _ hw =>
    have same : SourcesApart _ := ha.congr (fun q => by rw [hw.heap_next.1]) hw.sameRest.sources
    exact same.write rfl rfl rfl
  | invokes _ hw => exact ha.congr (fun q => by rw [← hw.heap_next.1]; rfl) hw.sameRest.sources
  | makeTaskInline _ _ hf | makeTaskDispatcher _ _ hf | thenDo _ _ _ hf =>
    exact (hf.apart h rfl ha).congr (fun _ => rfl) rfl
  | constructs =>
    have hblank : (s.heap s.next).work = none := by rw [h.blank s.next le_rfl]
    have hwork (q : ℕ) : (s.makeSource.heap q).work = (s.heap q).work := by
      simp only [State.makeSource_heap, update_apply]
      split
      · rename_i e
        rw [e, hblank]
      · rfl
    constructor
    · intro p hp
      simp only [State.setStack_sources, State.makeSource_sources, List.mem_cons] at hp
      rw [State.setStack_heap, hwork]
      rcases hp with rfl | hp
      · exact hblank
      · exact ha.bare p hp
    · intro l p hl
      rw [State.setStack_heap, hwork] at hl
      have hlt : p < s.next := (h.payload l).unwraps p hl
      have hp := ha.standIn l p hl
      simp only [State.setStack_sources, State.makeSource_sources, List.mem_cons, not_or]
      exact ⟨by omega, hp⟩
  | _ => exact ha.congr (fun _ => rfl) rfl

omit [DecidableEq T] [ErrorTraits E] in
/-- A payload with an owner is not completed. -/
theorem Owned.not_completed (ho : Owned s) {p : ℕ} (hp : p < s.next) (hs : p ∉ s.sources)
    {f : Frame U V E} (hf : f ∈ s.stack t) (hfp : 1 ≤ f.owes (fun q => (s.heap q).work) p) :
    (s.heap p).completed = false := by
  have hsum := ho (fun q => (s.heap q).work) (fun _ _ => rfl) p hs
  have hle := s.payload_add_frame_le (.owners (fun q => (s.heap q).work) p) hp hf
  rw [if_pos hp] at hsum
  by_contra hc
  have hone : 1 ≤ (Weight.owners (fun q => (s.heap q).work) p).payload p (s.heap p) := by
    have hc' : (s.heap p).completed = true := by simpa using hc
    simp [hc']
  simp only [Weight.owners_frame] at hle
  omega

omit [DecidableEq T] [ErrorTraits E] in
/-- When nothing is under way or queued, a payload that is not completed waits for a stored
continuation. -/
theorem Owned.stored (ho : Owned s) (hstack : ∀ t, s.stack t = []) (hqueue : s.queue = []) {p : ℕ}
    (hp : p < s.next) (hs : p ∉ s.sources) (hc : (s.heap p).completed = false) :
    ∃ q c, c ∈ (s.heap q).continuation.span ∧
      (c.continuation = p ∨ (s.heap c.continuation).work.bind Work.standIn = some p) := by
  by_contra hnone
  push Not at hnone
  have howes (q : ℕ) : owesAll (fun q => (s.heap q).work) p (s.heap q).continuation.span = 0 := by
    refine List.sum_eq_zero fun n hn => ?_
    obtain ⟨c, hc, rfl⟩ := List.mem_map.1 hn
    obtain ⟨hne, hwork⟩ := hnone q c hc
    simp [owes, hne, hwork]
  have hsum := ho (fun q => (s.heap q).work) (fun _ _ => rfl) p hs
  have hzero (q : ℕ) : ¬ (q = p ∧ (s.heap q).completed = true) := by
    rintro ⟨rfl, hdone⟩
    rw [hc] at hdone
    cases hdone
  simp [State.weight, State.stackWeight, Weight.payloads, hstack, hqueue, howes, hzero, hp] at hsum

end

end Arcana.Tasks
