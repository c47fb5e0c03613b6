import Arcana.Foundations.Chain
import Arcana.Tasks.Invariant

/-!
# Chains of redirects

`collapse_left_into_right` gives the payload on the left the address of the payload on the right as
`m_taskRedirect`, and `add_continuations` recurses along these addresses. No other step changes a
redirect (`Step.redirect`), and a collapse closes a cycle exactly when the chain of redirects from
the right already leads back to the left. In a run where no collapse does so the chains stay finite,
and `add_continuations` comes to the end of them (`rooted_of_reach`, `addContinuations_descends`).
The code does not check it: a callable that returns the very task it was given to closes a cycle.

* `NoCycle` is the condition on a step, and `collapsesToRoot` a check that is enough for it.
* `Step.redirect` says what a step does to the redirects.
* `rooted_of_reach` and `redirects_acyclic` are about runs, `addContinuations_descends` about the
  recursion.
* `redirects_cyclic` is a run in which a callable returns its own task.
-/

namespace Arcana.Tasks

open Function Foundations Relation

variable {T O U V E : Type*}

/-- The forwarding addresses of a heap. -/
def State.redirect (s : State T U V E) (p : ℕ) : Option ℕ := (s.heap p).taskRedirect

/-- The step does not collapse a payload into one whose redirects lead back to it. -/
def NoCycle (s : State T U V E) (l : Label T O) : Prop :=
  ∀ left right rest, s.stack l.thread = .collapseLeftIntoRight left right :: rest →
    ¬ Passes s.redirect right left

theorem State.redirect_update {s s' : State T U V E} {p : ℕ} (x : Payload U V E)
    (h : s'.heap = update s.heap p x) : s'.redirect = update s.redirect p x.taskRedirect := by
  funext q
  simp only [State.redirect, h, update_apply]
  split <;> rfl

/-- Writing a payload without touching its redirect. -/
theorem State.redirect_update_of_eq {s s' : State T U V E} {p : ℕ} {x : Payload U V E}
    (h : s'.heap = update s.heap p x) (hx : x.taskRedirect = (s.heap p).taskRedirect) :
    s'.redirect = s.redirect := by
  rw [redirect_update x h, hx]
  exact update_eq_self p s.redirect

theorem State.redirect_of_heap_eq {s s' : State T U V E} (h : s'.heap = s.heap) :
    s'.redirect = s.redirect := by
  funext q
  rw [State.redirect, h, State.redirect]

/-- A fresh payload is not redirected, before it is made or after. -/
theorem Factory.redirect {s s₁ : State T U V E} {work : Work U V E} {unwrap : Bool}
    {toRun toReturn : ℕ} (h : WellFormed s) (hf : Factory s work unwrap s₁ toRun toReturn) :
    s₁.redirect = s.redirect := by
  have fresh (p : ℕ) (hp : s.next ≤ p) : (s.heap p).taskRedirect = none := by rw [h.blank p hp]
  funext p
  cases hf with
  | plain =>
    simp only [State.redirect, update_apply]
    split
    · rename_i hp
      exact (fresh p (by omega)).symm
    · rfl
  | unwrap =>
    simp only [State.redirect, update_apply]
    split_ifs with h₂ h₁ h₀
    · exact (fresh p (by omega)).symm
    · exact (fresh p (by omega)).symm
    · exact (fresh p (by omega)).symm
    · rfl

section

variable [DecidableEq T] [Fintype T] [ErrorTraits E] {act : U → O → Action U V E}
  {s s' : State T U V E} {t : T} {o : O}

/-- **Only a collapse redirects**, and only the payload on its left, which was not redirected. -/
theorem Step.redirect (h : WellFormed s) (hstep : Step act s t o s') :
    (s'.redirect = s.redirect ∧ ∀ left right rest,
        s.stack t ≠ .collapseLeftIntoRight left right :: rest) ∨
      ∃ left right rest, s.stack t = .collapseLeftIntoRight left right :: rest ∧
        s.redirect left = none ∧ s'.redirect = update s.redirect left (some right) := by
  have unredirected {p : ℕ} (hc : (s.heap p).completed = false) :
      (s.heap p).taskRedirect = none := by
    rcases hr : (s.heap p).taskRedirect with _ | q
    · rfl
    · rw [((h.payload p).redirect q hr).1] at hc
      cases hc
  cases hstep with
  | idle hs | mainReturns hs | emits hs | ticksNothing hs | ticks hs | completed hs | runBare hs
  | refuses hs | ranAll hs | handsInline hs | handsDispatcher hs | addsNothing hs | addsAlong hs
  | addsLate hs | unlocks hs | unwrapsTask hs =>
    exact .inl ⟨State.redirect_of_heap_eq rfl, by simp [hs]⟩
  | returns hs | completes hs | unwrapsError hs | unwrapped hs | stores hs =>
    exact .inl ⟨State.redirect_update_of_eq rfl rfl, by simp [hs]⟩
  | decides hs hw =>
    refine .inl ⟨?_, by simp [hs]⟩
    rw [← State.redirect_of_heap_eq hw.heap_next.1]
    exact State.redirect_update_of_eq rfl rfl
  | invokes hs hw => exact .inl ⟨State.redirect_of_heap_eq hw.heap_next.1, by simp [hs]⟩
  | constructs hs =>
    refine .inl ⟨State.redirect_update_of_eq rfl ?_, by simp [hs]⟩
    rw [h.blank s.next le_rfl]
  | makeTaskInline hs _ hf | makeTaskDispatcher hs _ hf | thenDo hs _ _ hf =>
    refine .inl ⟨?_, by simp [hs]⟩
    rw [← hf.redirect h]
    exact State.redirect_of_heap_eq rfl
  | completesPayload hs _ hc =>
    exact .inl ⟨State.redirect_update_of_eq rfl (unredirected hc).symm, by simp [hs]⟩
  | @collapses left right rest hs _ hc =>
    exact .inr ⟨_, _, _, hs, unredirected hc,
      State.redirect_update ((s.heap left).cannibalized (some right)) rfl⟩

/-! ## Runs without a collapse into its own chain -/

/-- A step that closes no cycle keeps the chains finite. -/
theorem Step.rooted {l : Label T O} (h : WellFormed s) (hr : Rooted s.redirect)
    (ok : NoCycle s l) (hstep : Step act s l.thread l.oracle s') : Rooted s'.redirect := by
  rcases hstep.redirect h with ⟨he, -⟩ | ⟨left, right, rest, hs, hl, he⟩
  · rw [he]
    exact hr
  · rw [he]
    exact hr.update hl (ok left right rest hs)

/-- The condition is exact: a step that does not meet it closes a cycle. -/
theorem Step.cycle {l : Label T O} (h : WellFormed s) (ok : ¬ NoCycle s l)
    (hstep : Step act s l.thread l.oracle s') : ¬ Rooted s'.redirect := by
  simp only [NoCycle, not_forall, not_not] at ok
  obtain ⟨left, right, rest, hs, hp⟩ := ok
  rcases hstep.redirect h with ⟨-, hne⟩ | ⟨left', right', rest', hs', hl, he⟩
  · exact absurd hs (hne left right rest)
  · rw [hs] at hs'
    cases hs'
    intro hr
    refine hr.not_cycle left ?_
    rw [he]
    exact .head' (by rw [update_self]) (Passes.update hp _)

/-- Every chain of redirects is finite in every state of a run without such a collapse. -/
theorem rooted_of_reach {main : T → U} (h : Reach (step act) NoCycle (init main) s) :
    Rooted s.redirect := by
  have keep (a : State T U V E) (l : Label T O) (b : State T U V E)
      (ha : WellFormed a ∧ Rooted a.redirect) (ok : NoCycle a l) (hstep : step act a l = some b) :
      WellFormed b ∧ Rooted b.redirect := by
    have hstep' := step_sound hstep
    exact ⟨ha.1.step hstep', hstep'.rooted ha.1 ha.2 ok⟩
  exact (h.invariant ⟨WellFormed.init main, fun p => ⟨p, .root rfl⟩⟩ keep).2

/-! ## The recursion of `add_continuations` -/

/-- **The recursion ends where the chain ends**: with the mutexes along the chain free, the thread
alone comes to the call of `add_continuations` on the payload at the end of the chain. -/
theorem addContinuations_descends (o : O) {p r : ℕ} {cs : List Continuation}
    {rest : List (Frame U V E)} (hl : Leads s.redirect p r)
    (hs : s.stack t = .addContinuations p cs :: rest) (hcs : cs ≠ [])
    (hfree : ∀ q, Passes s.redirect p q → s.mutexFree q = true) :
    ∃ s' cs' rest', Reach (step act) (fun _ l => l.thread = t) s s' ∧ s'.heap = s.heap ∧
      s'.stack t = .addContinuations r cs' :: rest' ∧
      cs'.map Continuation.continuation = cs.map Continuation.continuation := by
  generalize hn : s.redirect = next at hl hfree
  induction hl generalizing s cs rest with
  | root _ => exact ⟨s, cs, rest, .refl, rfl, hs, rfl⟩
  | @hop p q r hpq hqr ih =>
    have hr : (s.heap p).taskRedirect = some q := by rw [← hpq, ← hn, State.redirect]
    have hfree_p : s.mutexFree p = true := hfree p .refl
    let s₁ := s.setStack t (.addContinuations q (cs.map (·.reparent q)) :: .holding p :: rest)
    have hstep : step act s ⟨t, o, 0⟩ = some s₁ := by
      simp only [step, hs, stepThread, stepAddContinuations, if_neg hcs, hfree_p, hr, if_true, s₁]
    have hs₁ : s₁.stack t = .addContinuations q (cs.map (·.reparent q)) :: .holding p :: rest := by
      simp [s₁]
    have hfree₁ (q' : ℕ) (hq' : Passes next q q') : s₁.mutexFree q' = true := by
      have hne : p ≠ q' := by
        rintro rfl
        exact (Leads.hop hpq hqr).not_cycle (.head' hpq hq')
      have hold := State.mutexFree_iff.1 (hfree q' (.head hpq hq'))
      refine State.mutexFree_iff.2 fun t' f hf => ?_
      simp only [s₁, State.setStack_stack, update_apply] at hf
      split at hf
      · rcases List.mem_cons.1 hf with rfl | hf
        · rfl
        · rcases List.mem_cons.1 hf with rfl | hf
          · simpa [Frame.holds] using hne
          · exact hold t f (by rw [hs]; exact .tail _ hf)
      · exact hold t' f hf
    obtain ⟨s', cs', rest', hreach, hheap, hs', hcs'⟩ :=
      ih hs₁ (by simpa using hcs) hn hfree₁
    have hfirst : Reach (step act) (fun _ l => l.thread = t) s s₁ := Reach.refl.tail rfl hstep
    refine ⟨s', cs', rest', hfirst.trans hreach, hheap, hs', ?_⟩
    rw [hcs', List.map_map]
    rfl

/-- **Chains of redirects never form a cycle in a run that collapses no payload into one whose
redirects lead back to it**: every chain ends at a payload without a redirect, and the recursion of
`add_continuations`, with the mutexes along the chain free, comes to that payload. -/
theorem redirects_acyclic {main : T → U} (h : Reach (step act) NoCycle (init main) s) :
    (∀ p, ¬ TransGen (fun a b => s.redirect a = some b) p p) ∧
      (∀ p, ∃ r, Leads s.redirect p r ∧ s.redirect r = none) ∧
      ∀ t p cs rest, s.stack t = .addContinuations p cs :: rest → cs ≠ [] →
        (∀ q, Passes s.redirect p q → s.mutexFree q = true) →
        ∃ r s' cs' rest', Reach (step act) (fun _ l => l.thread = t) s s' ∧ s'.heap = s.heap ∧
          s'.stack t = .addContinuations r cs' :: rest' ∧ s.redirect r = none ∧
          cs'.map Continuation.continuation = cs.map Continuation.continuation := by
  have hroot := rooted_of_reach h
  refine ⟨hroot.not_cycle, fun p => ?_, fun t p cs rest hs hcs hfree => ?_⟩
  · obtain ⟨r, hr⟩ := hroot p
    exact ⟨r, hr, hr.next_eq_none⟩
  · obtain ⟨r, hr⟩ := hroot p
    cases h with
    | refl => cases hs
    | @tail _ _ l _ _ _ =>
      obtain ⟨s', cs', rest', hreach, hheap, hs', hcs'⟩ :=
        addContinuations_descends l.oracle hr hs hcs hfree
      exact ⟨r, s', cs', rest', hreach, hheap, hs', hr.next_eq_none, hcs'⟩

end

/-! ## A callable that returns a task it can reach -/

/-- A program that constructs a `task_completion_source`, hands a callable to a dispatcher, keeps a
task in a variable, and ticks the dispatcher. The callable returns the task the variable holds,
which is what its oracle says. -/
inductive ReturnHeld
  | main
  | constructed
  | kept
  | ticked
  | callable

def ReturnHeld.act : ReturnHeld → ℕ → Action ReturnHeld ℕ ErrorCode
  | .main, _ => .source fun _ => .constructed
  | .constructed, _ => .makeTask .dispatcher false true .callable fun _ => .kept
  | .kept, _ => .tick 0 .ticked
  | .ticked, _ => .ret (.value .void)
  | .callable, held => .ret (.task held)

/-- The run of the program up to the collapse when the variable holds the task `held`. The source
has address 0, and the stand-in, which is the task that `make_task` returned, address 2. -/
def ReturnHeld.trace (held : ℕ) : List (Label Unit ℕ) := List.replicate 9 ⟨(), held, 0⟩

/-- A check that is enough for `NoCycle`: the payload on the right is another one, and it is not
redirected. -/
def collapsesToRoot (s : State T U V E) (l : Label T O) : Bool :=
  match s.stack l.thread with
  | .collapseLeftIntoRight left right :: _ => right != left && (s.redirect right).isNone
  | _ => true

theorem noCycle_of_collapsesToRoot {s : State T U V E} {l : Label T O}
    (h : collapsesToRoot s l = true) : NoCycle s l := by
  intro left right rest hs hp
  simp only [collapsesToRoot, hs, Bool.and_eq_true, bne_iff_ne, Option.isNone_iff_eq_none] at h
  obtain ⟨hne, hr⟩ := h
  rcases ReflTransGen.cases_head hp with rfl | ⟨q, hq, -⟩
  · exact hne rfl
  · rw [hr] at hq
    cases hq

/-- With the source in the variable, the stand-in is redirected to it and there is no cycle. -/
theorem redirects_acyclic_source : ∃ s, Reach (step ReturnHeld.act) NoCycle
    (init fun _ : Unit => ReturnHeld.main) s ∧ s.redirect 2 = some 0 ∧
      ∀ p, ¬ TransGen (fun a b => s.redirect a = some b) p p := by
  have hrun : (runWhile collapsesToRoot (step ReturnHeld.act) (init fun _ : Unit => .main)
      (ReturnHeld.trace 0)).map (fun s => s.redirect 2) = some (some 0) := by decide
  obtain ⟨s, hreach, h⟩ := exists_reach_of_runWhile (fun _ _ => noCycle_of_collapsesToRoot) hrun
  exact ⟨s, hreach, h, (redirects_acyclic hreach).1⟩

/-- **With its own task in the variable, the redirects form a cycle.** -/
theorem redirects_cyclic : ¬ ∀ s, Reach (step ReturnHeld.act) anyStep
    (init fun _ : Unit => ReturnHeld.main) s →
      ∀ p, ¬ TransGen (fun a b => s.redirect a = some b) p p := by
  have hrun : (run (step ReturnHeld.act) (init fun _ : Unit => .main)
      (ReturnHeld.trace 2)).map (fun s => s.redirect 2) = some (some 2) := by decide
  obtain ⟨s, hreach, h⟩ := exists_reach_of_run hrun
  intro hall
  exact hall s hreach 2 (.single h)

end Arcana.Tasks
