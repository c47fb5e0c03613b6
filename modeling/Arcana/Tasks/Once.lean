import Arcana.Tasks.Weight

/-!
# No callable is invoked twice

Whatever user code does, a payload is run at most once: from its allocation on there is at most one
place that will run it, which is a stored continuation, a local list of a call, a queued callable or
the call itself. Every step moves it from one such place to the next, and the invocation of its
callable takes it out of the last one (`Step.runs`).

* `Weight.runs` is the weight that counts the places that will run a payload.
* `RunOnce` is the invariant: there is one such place at most, and then the callable was not invoked
  yet.
* `Step.runs` says that every step passes the places on, and `invoked_nodup` is the result about
  runs.
-/

namespace Arcana.Tasks

open Function Foundations

variable {T O U V E : Type*}

/-- How often the continuations `cs` run `p`. -/
def runsAll (p : ℕ) (cs : List Continuation) : ℕ := (cs.map Continuation.continuation).count p

/-- How often `p` is run by a call under way. -/
def Frame.runs (p : ℕ) : Frame U V E → ℕ
  | .run l _ => if l = p then 1 else 0
  | .runAll cs | .addContinuations _ cs => runsAll p cs
  | _ => 0

/-- The weight that counts the places that will run `p`. -/
@[simps] def Weight.runs (p : ℕ) : Weight U V E where
  payload _ y := runsAll p y.continuation.span
  frame f := f.runs p
  callable c := if c.1 = p then 1 else 0

section

variable {p : ℕ}

@[simp] theorem runsAll_nil : runsAll p [] = 0 := rfl

@[simp] theorem runsAll_cons (c : Continuation) (cs : List Continuation) :
    runsAll p (c :: cs) = (if c.continuation = p then 1 else 0) + runsAll p cs := by
  rw [runsAll, List.map_cons, List.count_cons, add_comm, runsAll]
  simp only [beq_iff_eq]

@[simp] theorem runsAll_append (cs ds : List Continuation) :
    runsAll p (cs ++ ds) = runsAll p cs + runsAll p ds := by
  simp [runsAll]

@[simp] theorem runsAll_reparent (cs : List Continuation) (q : ℕ) :
    runsAll p (cs.map (·.reparent q)) = runsAll p cs := by
  simp [runsAll]

end

/-- Every payload is run from one place at most, and then its callable was not invoked yet. -/
def RunOnce [Fintype T] (s : State T U V E) : Prop :=
  ∀ p, s.weight (.runs p) + s.invoked.count p ≤ if p < s.next then 1 else 0

section

variable [Fintype T] {s s₁ s' : State T U V E} {t : T} {o : O}

theorem RunOnce.init (main : T → U) : RunOnce (init main : State T U V E) := by
  intro p
  simp [State.weight, State.stackWeight, Weight.payloads, Tasks.init, Frame.runs]

/-- Allocation leaves a place for every fresh payload that is run. -/
theorem Factory.runs {work : Work U V E} {unwrap : Bool} {toRun toReturn : ℕ}
    (hf : Factory s work unwrap s₁ toRun toReturn) (p : ℕ) :
    s₁.weight (.runs p) + ((if toRun = p then 1 else 0) + if p < s.next then 1 else 0) ≤
      s.weight (.runs p) + if p < s₁.next then 1 else 0 := by
  have hlt (q : ℕ) (hq : q < s.next) : s₁.heap q = s.heap q := hf.heap_of_lt hq
  cases hf with
  | plain =>
    rw [State.weight_alloc _ 1 rfl hlt rfl rfl]
    simp
    split_ifs <;> omega
  | unwrap =>
    rw [State.weight_alloc _ 3 rfl hlt rfl rfl]
    simp [Finset.sum_range_succ, update_apply]
    split_ifs <;> omega

variable [DecidableEq T] [ErrorTraits E] {act : U → O → Action U V E}

/-- **Every step passes the places on**, and an invocation uses one up. -/
theorem Step.runs (h : WellFormed s) (hstep : Step act s t o s') (p : ℕ) :
    s'.weight (.runs p) + (s'.invoked.count p + if p < s.next then 1 else 0) ≤
      s.weight (.runs p) + (s.invoked.count p + if p < s'.next then 1 else 0) := by
  cases hstep with
  | idle hs hq | ticks hs _ hq =>
    refine State.Shifts.le (State.weight_take _ hq rfl rfl rfl rfl) ?_
    simp [hs, Frame.runs]
    try omega
  | mainReturns hs | emits hs | ticksNothing hs | completed hs | refuses hs | ranAll hs
  | addsNothing hs | unlocks hs | unwrapsTask hs | addsAlong hs | addsLate hs =>
    refine State.Shifts.le (State.weight_move _ rfl rfl rfl rfl) ?_
    simp [hs, Frame.runs]
  | runBare hs hw => exact absurd hw (h.top hs).1.work
  | returns hs | completes hs | unwrapsError hs | unwrapped hs =>
    refine State.Shifts.le (State.weight_rewrite _ rfl rfl rfl rfl rfl) ?_
    simp [hs, Frame.runs]
  | constructs hs =>
    have hsource : s.makeSource.weight (.runs p) = s.weight (.runs p) := by
      rw [State.weight_makeSource]
      simp
    rw [← hsource]
    refine State.Shifts.le (State.weight_move _ rfl rfl rfl rfl) ?_
    simp [hs, Frame.runs]
    split_ifs <;> omega
  | decides hs hw =>
    have same := hw.sameRest
    rw [← same.stack] at hs
    rw [← hw.weight, ← same.invoked, ← hw.heap_next.2]
    refine State.Shifts.le (State.weight_rewrite _ rfl rfl rfl rfl rfl) ?_
    simp [hs, Frame.runs]
  | invokes hs hw =>
    have same := hw.sameRest
    rw [← same.stack] at hs
    rw [← hw.weight, ← same.invoked, ← hw.heap_next.2]
    refine State.Shifts.le (State.weight_move _ rfl rfl rfl rfl) ?_
    simp [hs, Frame.runs, List.count_cons]
    omega
  | makeTaskInline hs _ hf =>
    have same := hf.sameRest
    rw [← same.stack] at hs
    refine State.weight_trans_le (hf.runs p)
      (State.Shifts.le (State.weight_move _ rfl rfl rfl rfl) ?_)
    simp [hs, Frame.runs, same.invoked]
    omega
  | makeTaskDispatcher hs _ hf =>
    have same := hf.sameRest
    rw [← same.stack] at hs
    refine State.weight_trans_le (hf.runs p)
      (State.Shifts.le (State.weight_put _ rfl rfl rfl rfl) ?_)
    simp [hs, Frame.runs, same.invoked]
    omega
  | thenDo hs _ _ hf =>
    have same := hf.sameRest
    rw [← same.stack] at hs
    refine State.weight_trans_le (hf.runs p)
      (State.Shifts.le (State.weight_move _ rfl rfl rfl rfl) ?_)
    simp [hs, Frame.runs, same.invoked]
    omega
  | handsInline hs =>
    refine State.Shifts.le (State.weight_move _ rfl rfl rfl rfl) ?_
    simp [hs, Frame.runs]
    omega
  | handsDispatcher hs =>
    refine State.Shifts.le (State.weight_put _ rfl rfl rfl rfl) ?_
    simp [hs, Frame.runs]
    omega
  | completesPayload hs | collapses hs =>
    refine State.Shifts.le (State.weight_write _ (h.top hs).1 rfl rfl rfl rfl) ?_
    simp [hs, Frame.runs, Payload.cannibalized]
    omega
  | stores hs =>
    refine State.Shifts.le (State.weight_write _ (h.top hs).1 rfl rfl rfl rfl) ?_
    simp [hs, Frame.runs]
    omega

theorem RunOnce.step (h : WellFormed s) (hr : RunOnce s) (hstep : Step act s t o s') :
    RunOnce s' := by
  intro p
  have hp := hr p
  have hkeep := hstep.runs h p
  omega

/-- **No callable is invoked twice**, in any run of any user code. -/
theorem invoked_nodup {main : T → U} (h : Reach (step act) anyStep (Tasks.init main) s) :
    s.invoked.Nodup := by
  have keep (a : State T U V E) (l : Label T O) (b : State T U V E)
      (ha : WellFormed a ∧ RunOnce a) (_ : anyStep a l) (hstep : Tasks.step act a l = some b) :
      WellFormed b ∧ RunOnce b :=
    ⟨ha.1.step (step_sound hstep), ha.2.step ha.1 (step_sound hstep)⟩
  obtain ⟨-, hr⟩ := h.invariant ⟨.init main, .init main⟩ keep
  refine List.nodup_iff_count_le_one.2 fun p => ?_
  have hp := hr p
  split_ifs at hp <;> omega

end

end Arcana.Tasks
