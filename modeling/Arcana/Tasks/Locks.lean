import Arcana.Tasks.Redirects
import Arcana.Tasks.Stacks

/-!
# Calls under a payload mutex

`add_continuations` keeps the mutex of a payload locked while it recurses along `m_taskRedirect`.
When the payload at the end of the redirects is already completed it runs the continuations there,
inside the recursion: its flag `runit` only takes them out of the innermost critical section. A
continuation that runs so and calls `then` on a task whose mutex is held stops for ever. In a run
where this does not happen, and where the redirects that the recursion follows come to an end, user
code runs with no mutex held by its call stack, and no call waits for a mutex of its own stack
(`user_code_unlocked`).

* `Frame.invokes`, `Frame.locks` and `Frame.adds` tell the calls that the results speak of.
* `AddsInTime` is the condition on a step: the redirects that it follows come to an end, at a
  payload that is not completed.
* `SelfFree` and `Unlocked` are the invariants, the first one proved step by step (`SelfFree.step`).
* `user_code_unlocked` is the result about runs, and `user_code_locked` a run in which a
  continuation waits for the mutex that its own stack holds.
-/

namespace Arcana.Tasks

open Function Foundations Relation

variable {T O U V E : Type*}

/-- The call invokes a scheduling function, a continuation or other user code. -/
def Frame.invokes : Frame U V E → Bool
  | .user _ | .run _ _ | .runAll (_ :: _) => true
  | _ => false

/-- The call is about to lock the mutex of `p`. -/
def Frame.locks (p : ℕ) : Frame U V E → Bool
  | .doCompletion q | .collapseLeftIntoRight q _ | .addContinuations q (_ :: _) => q == p
  | _ => false

/-- The call is a recursion of `add_continuations`, which is going on or returning. -/
def Frame.adds : Frame U V E → Bool
  | .addContinuations _ _ | .holding _ => true
  | _ => false

/-! ## Held mutexes -/

/-- Mutexes are held only below a recursion of `add_continuations`. -/
theorem not_holding_of_chain {s : State T U V E} {f : Frame U V E} {rest : List (Frame U V E)}
    (h : (f :: rest).IsChain fun f g => g.Carries false s f) (hf : f.adds = false) (p : ℕ) :
    .holding p ∉ f :: rest := by
  induction rest generalizing f with
  | nil =>
    intro hp
    obtain rfl := List.mem_singleton.1 hp
    cases hf
  | cons g rest ih =>
    obtain ⟨hg, hrest⟩ := List.isChain_cons_cons.1 h
    have hg' : g.adds = false := by
      cases g with
      | addContinuations => exact hg.elim
      | holding =>
        cases f <;> first
          | exact False.elim hg
          | exact absurd hg Bool.false_ne_true
          | exact absurd hf.symm Bool.false_ne_true
      | _ => rfl
    intro hp
    rcases List.mem_cons.1 hp with rfl | hp
    · cases hf
    · exact ih hrest hg' hp

/-- A held mutex belongs to a payload whose redirects lead to the one the recursion is at. -/
theorem redirect_of_holding {s : State T U V E} {f : Frame U V E} {rest : List (Frame U V E)}
    {p q : ℕ} (h : (f :: rest).IsChain fun f g => g.Carries false s f)
    (hf : (∃ cs, f = .addContinuations p cs) ∨ f = .holding p) (hq : .holding q ∈ rest) :
    TransGen (fun a b => s.redirect a = some b) q p := by
  induction rest generalizing f p with
  | nil => cases hq
  | cons g rest ih =>
    obtain ⟨hg, hrest⟩ := List.isChain_cons_cons.1 h
    cases hadds : g.adds with
    | false => exact absurd hq (not_holding_of_chain hrest hadds q)
    | true =>
      cases g with
      | holding q' =>
        have hr : s.redirect q' = some p := by
          rcases hf with ⟨cs, rfl⟩ | rfl <;> exact hg
        rcases List.mem_cons.1 hq with e | hq
        · cases e
          exact .single hr
        · exact (ih hrest (.inr rfl) hq).tail hr
      | addContinuations => exact hg.elim
      | _ => cases hadds

/-! ## Runs in which `add_continuations` runs nothing and comes to an end -/

/-- The critical section of `add_continuations` that the step may run is on a payload whose
redirects come to an end, and does not leave the continuations to be run inside a recursion. -/
structure AddsInTime (s : State T U V E) (l : Label T O) : Prop where
  ends : ∀ p cs rest, s.stack l.thread = .addContinuations p cs :: rest → cs ≠ [] →
    ∃ r, Leads s.redirect p r
  early : NotLate s l.thread

/-- No recursion is at a payload whose mutex it holds. -/
def SelfFree (s : State T U V E) : Prop :=
  ∀ t p cs rest, s.stack t = .addContinuations p cs :: rest → .holding p ∉ rest

section

variable [DecidableEq T] [Fintype T] [ErrorTraits E] {act : U → O → Action U V E}
  {s s' : State T U V E}

omit [Fintype T] [ErrorTraits E] in
theorem SelfFree.of_top {t : T} {fs : List (Frame U V E)} (h : SelfFree s)
    (stack : s'.stack = update s.stack t fs)
    (htop : ∀ p cs rest, fs = .addContinuations p cs :: rest → .holding p ∉ rest) :
    SelfFree s' := by
  intro t' p cs rest hs
  rw [stack, update_apply] at hs
  split at hs
  · exact htop p cs rest hs
  · exact h t' p cs rest hs

omit [DecidableEq T] [Fintype T] [ErrorTraits E] in
/-- The top of a call stack that holds no mutex, unless it adds. -/
theorem Stacked.not_holding {t : T} {f : Frame U V E} {rest : List (Frame U V E)}
    (hst : Stacked false s) (hs : s.stack t = f :: rest) (hf : f.adds = false) (p : ℕ) :
    .holding p ∉ rest := by
  have hc := hst t
  rw [hs] at hc
  exact fun hp => not_holding_of_chain hc hf p (.tail _ hp)

/-- **A step in time does not come back to a mutex its thread holds.** -/
theorem SelfFree.step {l : Label T O} (h : SelfFree s) (hst : Stacked false s)
    (ok : AddsInTime s l) (hstep : Step act s l.thread l.oracle s') : SelfFree s' := by
  cases hstep with
  | thenDo hs _ _ hf =>
    refine h.of_top (by rw [← hf.sameRest.stack]; rfl) fun p cs rest' e => ?_
    cases e
    simpa using hst.not_holding hs rfl _
  | collapses hs =>
    refine h.of_top rfl fun p cs rest' e => ?_
    cases e
    exact hst.not_holding hs rfl _
  | @addsAlong p q cs rest hs hcs _ hr =>
    refine h.of_top rfl fun p' cs' rest' e => ?_
    cases e
    obtain ⟨r, hl⟩ := ok.ends p cs rest hs hcs
    have hpq : s.redirect p = some q := hr
    intro hq
    rcases List.mem_cons.1 hq with e | hq
    · cases e
      exact hl.not_cycle (.single hpq)
    · have hc := hst l.thread
      rw [hs] at hc
      have hqp := redirect_of_holding hc (.inl ⟨cs, rfl⟩) hq
      exact hl.not_cycle (.head hpq hqp)
  | ranAll hs | addsNothing hs | unlocks hs | stores hs =>
    refine h.of_top rfl fun p' cs' rest' e => ?_
    have hc := hst l.thread
    rw [hs, e] at hc
    exact False.elim (List.isChain_cons_cons.1 hc).1
  | makeTaskInline _ _ hf | makeTaskDispatcher _ _ hf =>
    refine h.of_top (by rw [← hf.sameRest.stack]; rfl) fun p' cs' rest' e => ?_
    cases e
  | decides _ hw | invokes _ hw =>
    refine h.of_top (by rw [← hw.sameRest.stack]; rfl) fun p' cs' rest' e => ?_
    cases e
  | _ =>
    refine h.of_top rfl fun p' cs' rest' e => ?_
    cases e

/-- The invariant of the runs in which `add_continuations` is in time. -/
structure Unlocked (s : State T U V E) : Prop where
  wellFormed : WellFormed s
  stacked : Stacked false s
  selfFree : SelfFree s

omit [DecidableEq T] [Fintype T] [ErrorTraits E] in
theorem Unlocked.init (main : T → U) : Unlocked (init main : State T U V E) where
  wellFormed := .init main
  stacked := .init false main
  selfFree _ _ _ _ hs := by cases hs

theorem Unlocked.step {l : Label T O} (h : Unlocked s) (ok : AddsInTime s l)
    (hstep : Step act s l.thread l.oracle s') : Unlocked s' where
  wellFormed := h.wellFormed.step hstep
  stacked := h.stacked.step h.wellFormed (fun _ => ok.early) hstep
  selfFree := h.selfFree.step h.stacked ok hstep

/-- **User code runs with no payload mutex held by its call stack**, in every state of a run in
which `add_continuations` is in time, and no call is about to lock a mutex of its own stack. -/
theorem user_code_unlocked {main : T → U} (h : Reach (step act) AddsInTime (init main) s) {t : T}
    {f : Frame U V E} {rest : List (Frame U V E)} (hs : s.stack t = f :: rest) :
    (f.invokes = true → ∀ p, .holding p ∉ s.stack t) ∧
      ∀ p, f.locks p = true → .holding p ∉ s.stack t := by
  have hinv : Unlocked s :=
    h.invariant (.init main) fun _ _ _ ha ok hstep => ha.step ok (step_sound hstep)
  have unlocked (hf : f.adds = false) (p : ℕ) : .holding p ∉ s.stack t := by
    have hc := hinv.stacked t
    rw [hs] at hc ⊢
    exact not_holding_of_chain hc hf p
  refine ⟨fun hf => unlocked ?_, fun p hf => ?_⟩
  · cases f <;> first | rfl | cases hf
  · cases hadds : f.adds with
    | false => exact unlocked hadds p
    | true =>
      cases f with
      | addContinuations q cs =>
        cases cs with
        | nil => cases hf
        | cons c cs =>
          obtain rfl : q = p := by simpa [Frame.locks] using hf
          rw [hs]
          simpa using hinv.selfFree t q _ rest hs
      | holding => cases hf
      | _ => cases hadds

/-- The condition `early` is exact: a step that does not meet it leaves a call stack that invokes a
scheduling function under a mutex. -/
theorem invokes_under_mutex {l : Label T O} (hlate : ¬ NotLate s l.thread)
    (hstep : step act s l = some s') : ∃ f rest q, s'.stack l.thread = f :: rest ∧
      f.invokes = true ∧ .holding q ∈ rest := by
  simp only [NotLate, not_forall, Bool.not_eq_false] at hlate
  obtain ⟨p, cs, q, rest, hs, hcs, hr, hc⟩ := hlate
  simp only [step, hs, stepThread, stepAddContinuations, if_neg hcs, hr, hc, if_true,
    Option.ite_none_right_eq_some, Option.some.injEq] at hstep
  obtain ⟨-, rfl⟩ := hstep
  obtain ⟨c, cs, rfl⟩ := List.exists_cons_of_ne_nil hcs
  exact ⟨.runAll (c :: cs), .holding q :: rest, q, by simp, rfl, .head _⟩

end

/-! ## A continuation on a stand-in that is already forwarded -/

/-- A program that constructs a `task_completion_source`, which it completes at once or not, as its
oracle says, makes a task whose callable returns the task of that source, and calls `then` on the
stand-in. The continuation calls `then` on the stand-in again. -/
inductive Reenter
  | main
  | constructed
  | completed
  | made
  | finished
  | callable
  | continuation

def Reenter.act : Reenter → Bool → Action Reenter ℕ ErrorCode
  | .main, _ => .source fun _ => .constructed
  | .constructed, true => .complete 0 (.ok .void) fun _ => .completed
  | .constructed, false => .makeTask .inlineScheduler false true .callable fun _ => .made
  | .completed, _ => .makeTask .inlineScheduler false true .callable fun _ => .made
  | .callable, _ => .ret (.task 0)
  | .made, _ =>
    .thenDo 2 .inlineScheduler false false false (fun _ => .continuation) fun _ => .finished
  | .continuation, _ =>
    .thenDo 2 .inlineScheduler false false false (fun _ => .finished) fun _ => .finished
  | .finished, _ => .ret (.value .void)

/-- The first `n` steps of the program. The stand-in has address 2. -/
def Reenter.trace (completes : Bool) (n : ℕ) : List (Label Unit Bool) :=
  List.replicate n ⟨(), completes, 0⟩

/-- A check that is enough for `AddsInTime`: at most one redirect is followed, and the payload it
leads to is not completed. -/
def addsInTimeCheck (s : State T U V E) (l : Label T O) : Bool :=
  match s.stack l.thread with
  | .addContinuations p _ :: rest =>
    (s.redirect p).all (fun q => (s.redirect q).isNone) &&
      (rest.all (fun f => !f.adds) || !(s.heap p).completed)
  | _ => true

theorem addsInTime_of_check {s : State T U V E} {l : Label T O}
    (h : addsInTimeCheck s l = true) : AddsInTime s l where
  ends p cs rest hs _ := by
    simp only [addsInTimeCheck, hs, Bool.and_eq_true] at h
    cases hr : s.redirect p with
    | none => exact ⟨p, .root hr⟩
    | some q =>
      rw [hr] at h
      exact ⟨q, .hop hr (.root (by simpa using h.1))⟩
  early p cs q rest hs _ _ := by
    simp only [addsInTimeCheck, hs, Bool.and_eq_true, List.all_cons, Frame.adds] at h
    simpa using h.2

theorem holding_mem_of_any {p : ℕ} {fs : List (Frame U V E)}
    (h : fs.any (Frame.holds p) = true) : .holding p ∈ fs := by
  obtain ⟨f, hf, hp⟩ := List.any_eq_true.1 h
  cases f with
  | holding q =>
    obtain rfl : q = p := by simpa [Frame.holds] using hp
    exact hf
  | _ => cases hp

/-- When the source is not completed, the continuation is stored on it, and the program goes on
with no mutex held. -/
theorem user_code_unlocked_forwarded : ∃ (s : State Unit Reenter ℕ ErrorCode)
    (f : Frame Reenter ℕ ErrorCode) (rest : List (Frame Reenter ℕ ErrorCode)),
    Reach (step Reenter.act) AddsInTime (init fun _ : Unit => Reenter.main) s ∧
      s.redirect 2 = some 0 ∧ s.stack () = f :: rest ∧ f.invokes = true ∧
        ∀ p, .holding p ∉ s.stack () := by
  have hrun : (runWhile addsInTimeCheck (step Reenter.act) (init fun _ : Unit => .main)
      (Reenter.trace false 17)).map (fun s =>
      (s.redirect 2, (s.stack ()).head?.any Frame.invokes)) =
      some (some 0, true) := by decide
  obtain ⟨s, hreach, h⟩ := exists_reach_of_runWhile (fun _ _ => addsInTime_of_check) hrun
  obtain ⟨hr, hf⟩ := Prod.mk.inj h
  cases hst : s.stack () with
  | nil => simp [hst] at hf
  | cons f rest =>
    have hinv : f.invokes = true := by simpa [hst] using hf
    have hfree := (user_code_unlocked hreach hst).1 hinv
    exact ⟨s, f, rest, hreach, hr, hst, hinv, hfree⟩

/-- **When the source is completed, the continuation runs under the mutex of the stand-in**, and its
call of `then` waits for that mutex. -/
theorem user_code_locked : ¬ ∀ s, Reach (step Reenter.act) anyStep
    (init fun _ : Unit => Reenter.main) s → ∀ t f rest, s.stack t = f :: rest →
      (f.invokes = true → ∀ p, .holding p ∉ s.stack t) ∧
        ∀ p, f.locks p = true → .holding p ∉ s.stack t := by
  have hrun : (run (step Reenter.act) (init fun _ : Unit => .main) (Reenter.trace true 22)).map
      (fun s => ((s.stack ()).head?.any Frame.invokes, (s.stack ()).any (Frame.holds 2))) =
      some (true, true) := by decide
  obtain ⟨s, hreach, h⟩ := exists_reach_of_run hrun
  obtain ⟨hf, hp⟩ := Prod.mk.inj h
  intro hall
  cases hst : s.stack () with
  | nil => simp [hst] at hp
  | cons f rest =>
    have hinv : f.invokes = true := by simpa [hst] using hf
    exact (hall s hreach () f rest hst).1 hinv 2 (holding_mem_of_any hp)

end Arcana.Tasks
