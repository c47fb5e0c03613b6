import Arcana.Tasks.Redirects
import Arcana.Tasks.Weight

/-!
# No continuation is lost or duplicated

A continuation is the payload that `continuation_payload::run` hands to its scheduling function.
From the moment it is registered it is stored in `m_continuation` of a payload, or in the local list
of a thread that completes, collapses or adds, or it was handed on. Every step moves continuations
between these places (`Step.conserves`), so that each registered one is in exactly one of them,
once.

* `State.storedAt`, `State.localTo` and `State.occurrences` count a continuation in the places where
  it can be.
* `Step.conserves` says of every step what it takes from these places and what it puts there.
* `Conserved` is the invariant, with the continuations that were registered.
* `State.Hands` says that a thread is about to hand a continuation on, and with which parent.
* `continuations_conserved` is the result about runs.
-/

namespace Arcana.Tasks

open Function Foundations

variable {T O U V E : Type*}

/-- The continuations in the local list of a call. -/
def Frame.locals : Frame U V E → List ℕ
  | .runAll cs | .addContinuations _ cs => cs.map Continuation.continuation
  | _ => []

namespace State

/-- How often `x` is stored in `m_continuation` of the payload `p`. -/
def storedAt (s : State T U V E) (x p : ℕ) : ℕ :=
  ((s.heap p).continuation.span.map Continuation.continuation).count x

/-- How often `x` is in the local lists of the thread `t`. -/
def localTo (s : State T U V E) (x : ℕ) (t : T) : ℕ := ((s.stack t).flatMap Frame.locals).count x

/-- How often `x` is anywhere: stored, in a local list, or handed to its scheduling function. -/
def occurrences [Fintype T] (s : State T U V E) (x : ℕ) : ℕ :=
  ∑ p ∈ Finset.range s.next, s.storedAt x p + ∑ t, s.localTo x t + s.handed.count x

end State

/-- The weight that counts `x` where it is stored and in local lists. -/
@[simps] def Weight.continuation (x : ℕ) : Weight U V E where
  payload _ y := (y.continuation.span.map Continuation.continuation).count x
  frame f := f.locals.count x
  callable _ := 0

@[simp] theorem Weight.continuation_callables (x : ℕ) (cs : List (ℕ × Option ℕ)) :
    (Weight.continuation x : Weight U V E).callables cs = 0 := by
  refine List.sum_eq_zero fun n hn => ?_
  obtain ⟨c, -, rfl⟩ := List.mem_map.1 hn
  rfl

theorem State.occurrences_eq [Fintype T] (s : State T U V E) (x : ℕ) :
    s.occurrences x = s.weight (.continuation x) + s.handed.count x := by
  have hstack : s.stackWeight (.continuation x) = ∑ t, s.localTo x t := by
    refine Finset.sum_congr rfl fun t _ => ?_
    rw [localTo, List.count_flatMap]
    rfl
  rw [occurrences, weight, hstack, Weight.continuation_callables, add_zero]
  rfl

section

variable [Fintype T] {s s₁ s' : State T U V E} {t : T} {o : O}

/-- Allocation registers the continuation that it stores. -/
theorem Factory.conserves (x : ℕ) {work : Work U V E} {unwrap : Bool} {toRun toReturn : ℕ}
    (hf : Factory s work unwrap s₁ toRun toReturn) :
    s₁.weight (.continuation x) + s.registered.count x =
      s.weight (.continuation x) + s₁.registered.count x := by
  have hlt (p : ℕ) (hp : p < s.next) : s₁.heap p = s.heap p := hf.heap_of_lt hp
  cases hf with
  | plain =>
    rw [State.weight_alloc _ 1 rfl hlt rfl rfl]
    simp
  | unwrap =>
    rw [State.weight_alloc _ 3 rfl hlt rfl rfl]
    simp [Finset.sum_range_succ, List.count_cons, update_apply]
    omega

variable [DecidableEq T] [ErrorTraits E] {act : U → O → Action U V E}

/-- **Every step moves continuations**: what it stores and puts into local lists it took from such a
place or registered, and what it takes from them it hands on. -/
theorem Step.conserves (x : ℕ) (h : WellFormed s) (hstep : Step act s t o s') :
    s'.weight (.continuation x) + (s'.handed.count x + s.registered.count x) =
      s.weight (.continuation x) + (s.handed.count x + s'.registered.count x) := by
  cases hstep with
  | idle hs hq | ticks hs _ hq =>
    refine State.Shifts.eq (State.weight_take _ hq rfl rfl rfl rfl) ?_
    simp [hs, Frame.locals]
  | mainReturns hs | emits hs | ticksNothing hs | completed hs | runBare hs | refuses hs | ranAll hs
  | addsNothing hs | unlocks hs | unwrapsTask hs =>
    refine State.Shifts.eq (State.weight_move _ rfl rfl rfl rfl) ?_
    simp [hs, Frame.locals]
  | returns hs | completes hs | unwrapsError hs | unwrapped hs =>
    refine State.Shifts.eq (State.weight_rewrite _ rfl rfl rfl rfl rfl) ?_
    simp [hs, Frame.locals]
  | constructs hs =>
    have hsource : s.makeSource.weight (.continuation x) = s.weight (.continuation x) := by
      rw [State.weight_makeSource]
      simp
    rw [← hsource]
    refine State.Shifts.eq (State.weight_move _ rfl rfl rfl rfl) ?_
    simp [hs, Frame.locals]
  | @decides p parent rest s₁ r hs hw =>
    have same := hw.sameRest
    rw [← same.stack] at hs
    rw [← hw.weight, ← same.handed, ← hw.registered]
    refine State.Shifts.eq (State.weight_rewrite _ rfl rfl rfl rfl rfl) ?_
    simp [hs, Frame.locals]
  | invokes hs hw =>
    have same := hw.sameRest
    rw [← same.stack] at hs
    rw [← hw.weight, ← same.handed, ← hw.registered]
    refine State.Shifts.eq (State.weight_move _ rfl rfl rfl rfl) ?_
    simp [hs, Frame.locals]
  | makeTaskInline hs _ hf =>
    have same := hf.sameRest
    rw [← same.stack] at hs
    refine State.weight_trans (hf.conserves x)
      (State.Shifts.eq (State.weight_move _ rfl rfl rfl rfl) ?_)
    simp [hs, Frame.locals, same.handed]
    omega
  | makeTaskDispatcher hs _ hf =>
    have same := hf.sameRest
    rw [← same.stack] at hs
    refine State.weight_trans (hf.conserves x)
      (State.Shifts.eq (State.weight_put _ rfl rfl rfl rfl) ?_)
    simp [hs, Frame.locals, same.handed]
    omega
  | thenDo hs _ _ hf =>
    have same := hf.sameRest
    rw [← same.stack] at hs
    refine State.weight_trans (hf.conserves x)
      (State.Shifts.eq (State.weight_move _ rfl rfl rfl rfl) ?_)
    simp [hs, Frame.locals, same.handed, List.count_cons]
    omega
  | handsInline hs =>
    refine State.Shifts.eq (State.weight_move _ rfl rfl rfl rfl) ?_
    simp [hs, Frame.locals, List.count_cons]
    omega
  | handsDispatcher hs =>
    refine State.Shifts.eq (State.weight_put _ rfl rfl rfl rfl) ?_
    simp [hs, Frame.locals, List.count_cons]
    omega
  | addsAlong hs | addsLate hs =>
    refine State.Shifts.eq (State.weight_move _ rfl rfl rfl rfl) ?_
    simp [hs, Frame.locals]
  | completesPayload hs =>
    have hp := (h.top hs).1
    refine State.Shifts.eq (State.weight_write _ hp rfl rfl rfl rfl) ?_
    simp [hs, Frame.locals, Payload.cannibalized]
    omega
  | collapses hs =>
    have hl := (h.top hs).1
    refine State.Shifts.eq (State.weight_write _ hl rfl rfl rfl rfl) ?_
    simp [hs, Frame.locals, Payload.cannibalized]
    omega
  | stores hs =>
    have hp := (h.top hs).1
    refine State.Shifts.eq (State.weight_write _ hp rfl rfl rfl rfl) ?_
    simp [hs, Frame.locals]
    omega

/-! ## What is registered is fresh -/

omit [Fintype T] [DecidableEq T] [ErrorTraits E] in
theorem Factory.registered_fresh {work : Work U V E} {unwrap : Bool} {toRun toReturn : ℕ}
    (hf : Factory s work unwrap s₁ toRun toReturn) (hn : s.registered.Nodup)
    (hlt : ∀ x ∈ s.registered, x < s.next) :
    (toRun :: s₁.registered).Nodup ∧ ∀ x ∈ toRun :: s₁.registered, x < s₁.next := by
  have hfresh (y : ℕ) (hy : s.next ≤ y) : y ∉ s.registered := fun h => by
    have := hlt y h
    omega
  cases hf with
  | plain =>
    refine ⟨List.nodup_cons.2 ⟨hfresh _ le_rfl, hn⟩, List.forall_mem_cons.2 ⟨by simp, ?_⟩⟩
    exact fun x hx => Nat.lt_succ_of_lt (hlt x hx)
  | unwrap =>
    refine ⟨List.nodup_cons.2 ⟨?_, List.nodup_cons.2 ⟨hfresh _ (by omega), hn⟩⟩,
      List.forall_mem_cons.2 ⟨by simp, List.forall_mem_cons.2 ⟨by simp, ?_⟩⟩⟩
    · simpa using hfresh _ le_rfl
    · exact fun x hx => Nat.lt_add_right 3 (hlt x hx)

/-- A payload is registered once, when it is fresh. -/
theorem Step.registered (hstep : Step act s t o s')
    (h : s.registered.Nodup ∧ ∀ x ∈ s.registered, x < s.next) :
    s'.registered.Nodup ∧ ∀ x ∈ s'.registered, x < s'.next := by
  cases hstep with
  | constructs => exact ⟨h.1, fun x hx => Nat.lt_succ_of_lt (h.2 x hx)⟩
  | decides _ hw | invokes _ hw =>
    have hreg := hw.registered
    have hnext := hw.heap_next.2
    simp only [State.setStack_registered, State.setResult_registered, State.setStack_next,
      State.setResult_next, hreg, hnext]
    exact h
  | makeTaskInline _ _ hf | makeTaskDispatcher _ _ hf =>
    obtain ⟨hn, hlt⟩ := hf.registered_fresh h.1 h.2
    exact ⟨(List.nodup_cons.1 hn).2, fun x hx => hlt x (.tail _ hx)⟩
  | thenDo _ _ _ hf => exact hf.registered_fresh h.1 h.2
  | _ => exact h

/-- The invariant: what is registered was fresh, and it is what is anywhere. -/
structure Conserved (s : State T U V E) : Prop where
  wellFormed : WellFormed s
  registered : s.registered.Nodup ∧ ∀ x ∈ s.registered, x < s.next
  occurrences : ∀ x, s.occurrences x = s.registered.count x

omit [DecidableEq T] [ErrorTraits E] in
theorem Conserved.init (main : T → U) : Conserved (init main : State T U V E) where
  wellFormed := .init main
  registered := ⟨List.nodup_nil, nofun⟩
  occurrences x := by
    rw [State.occurrences_eq]
    simp [State.weight, State.stackWeight, Weight.payloads, Tasks.init, Frame.locals]

theorem Conserved.step (h : Conserved s) (hstep : Step act s t o s') : Conserved s' where
  wellFormed := h.wellFormed.step hstep
  registered := hstep.registered h.registered
  occurrences x := by
    have hcons := hstep.conserves x h.wellFormed
    have hx := h.occurrences x
    rw [State.occurrences_eq] at hx ⊢
    omega

/-- The thread hands on the continuation `c`, the next one that it is to run: the inline scheduler
runs it at once, and a dispatcher queues it, with the parent that `c` names. -/
structure State.Hands (s s' : State T U V E) (t : T) (c : Continuation) (cs : List Continuation)
    (rest : List (Frame U V E)) : Prop where
  top : s.stack t = .runAll (c :: cs) :: rest
  handed : s'.handed = c.continuation :: s.handed
  inline : c.schedulingFunction = .inlineScheduler →
    s'.stack t = .run c.continuation (some c.parent) :: .runAll cs :: rest ∧ s'.queue = s.queue
  dispatcher : c.schedulingFunction = .dispatcher →
    s'.stack t = .runAll cs :: rest ∧ s'.queue = s.queue ++ [(c.continuation, some c.parent)]

/-- A step that hands a continuation on takes it from the front of the list that its thread runs,
and finds its parent done. -/
theorem Step.hands (h : WellFormed s) (hstep : Step act s t o s') :
    s'.handed = s.handed ∨ ∃ c cs rest, s.Hands s' t c cs rest ∧ s.Done c.parent := by
  cases hstep with
  | makeTaskInline _ _ hf | makeTaskDispatcher _ _ hf | thenDo _ _ _ hf =>
    exact .inl hf.sameRest.handed
  | decides _ hw | invokes _ hw => exact .inl hw.sameRest.handed
  | @handsInline c cs rest hs hc =>
    refine .inr ⟨c, cs, rest, ⟨hs, rfl, fun _ => ⟨update_self .., rfl⟩, fun e => ?_⟩, ?_⟩
    · rw [hc] at e
      cases e
    · exact (List.forall_mem_cons.1 (h.top hs)).1.2
  | @handsDispatcher c cs rest hs hc =>
    refine .inr ⟨c, cs, rest, ⟨hs, rfl, fun e => ?_, fun _ => ⟨update_self .., rfl⟩⟩, ?_⟩
    · rw [hc] at e
      cases e
    · exact (List.forall_mem_cons.1 (h.top hs)).1.2
  | _ => exact .inl rfl

/-- **No continuation is lost, duplicated or run against the wrong parent.** In every reachable
state a continuation that was registered is stored in one payload, in the local list of one thread
or already handed to its scheduling function, once in all; no other continuation is anywhere; a
completed payload stores none, and what another payload stores has it as its parent; and a step that
hands one on hands on the next one of its thread, with the parent that it names, which is completed,
not redirected and has a result. -/
theorem continuations_conserved {main : T → U} (h : Reach (step act) anyStep (init main) s) :
    (∀ x ∈ s.registered,
      ∑ p ∈ Finset.range s.next, s.storedAt x p + ∑ t, s.localTo x t + s.handed.count x = 1) ∧
    (∀ x ∉ s.registered,
      ∑ p ∈ Finset.range s.next, s.storedAt x p + ∑ t, s.localTo x t + s.handed.count x = 0) ∧
    (∀ p, (s.heap p).completed = true ∨ s.next ≤ p → (s.heap p).continuation.span = []) ∧
    (∀ p, ∀ c ∈ (s.heap p).continuation.span, c.parent = p) ∧
    (∀ l s', step act s l = some s' → s'.handed = s.handed ∨
      ∃ c cs rest, s.Hands s' l.thread c cs rest ∧
        (s.heap c.parent).completed = true ∧ (s.heap c.parent).taskRedirect = none ∧
        (s.heap c.parent).result.isSome = true) := by
  obtain ⟨hwf, ⟨hnodup, -⟩, hocc⟩ : Conserved s :=
    h.invariant (.init main) fun _ _ _ ha _ hstep => ha.step (step_sound hstep)
  refine ⟨fun x hx => ?_, fun x hx => ?_, fun p hp => ?_, fun p c hc => ?_, fun l s' hstep => ?_⟩
  · rw [← List.count_eq_one_of_mem hnodup hx, ← hocc x, State.occurrences]
  · rw [← List.count_eq_zero_of_not_mem hx, ← hocc x, State.occurrences]
  · rcases hp with hp | hp
    · refine List.eq_nil_iff_forall_not_mem.2 fun c hc => ?_
      rw [((hwf.payload p).stored c hc).1] at hp
      cases hp
    · rw [hwf.blank p hp]
      rfl
  · exact ((hwf.payload p).stored c hc).2.1
  · rcases (step_sound hstep).hands hwf with he | ⟨c, cs, rest, hc, hdone⟩
    · exact .inl he
    · exact .inr ⟨c, cs, rest, hc, hdone.completed, hdone.redirect, hdone.result⟩

end

/-- In the run of `ReturnHeld` the continuation of `task_factory`, the payload 3, is registered, and
it is in one place. -/
theorem continuations_conserved_source : ∃ s, Reach (step ReturnHeld.act) anyStep
    (init fun _ : Unit => ReturnHeld.main) s ∧ 3 ∈ s.registered ∧
      ∑ p ∈ Finset.range s.next, s.storedAt 3 p + ∑ t, s.localTo 3 t + s.handed.count 3 = 1 := by
  have hrun : (run (step ReturnHeld.act) (init fun _ : Unit => .main)
      (ReturnHeld.trace 0)).map (fun s => s.registered) = some [3] := by decide
  obtain ⟨s, hreach, h⟩ := exists_reach_of_run hrun
  have hmem : 3 ∈ s.registered := by simp [h]
  exact ⟨s, hreach, hmem, (continuations_conserved hreach).1 3 hmem⟩

end Arcana.Tasks
