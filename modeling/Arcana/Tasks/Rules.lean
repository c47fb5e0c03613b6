import Arcana.Tasks.Machine

/-!
# The rules of the task machine

`Step act s t o s'` lists what a step of the thread `t` can do, one rule for each way through the
function whose frame is on top of its stack, with the guards that the way depends on and the state
it leaves. Every step of the machine follows one of the rules (`step_sound`), so that an invariant
is proved by cases on `Step`, with no unfolding of the step function.

* `WorkInput` says what a work does before its callable is invoked, and `Factory` what
  `make_task_factory` makes.
* `Step` are the rules; their names say what the thread does.
* `step_sound` says that every step follows one of the rules.
-/

namespace Arcana.Tasks

open Function

variable {T O U V E : Type*}

section step

variable [DecidableEq T] [Fintype T] [ErrorTraits E] (act : U → O → Action U V E)

/-- What the work of `p` does when it runs: the state after it read its input, and the result of its
wrapper. -/
inductive WorkInput (s : State T U V E) (p : ℕ) (parent : Option ℕ) :
    State T U V E → Expected V E ⊕ U → Prop
  | start {cancelled : Bool} {callable : U} :
      (s.heap p).work = some (.start cancelled callable) →
      WorkInput s p parent s (wrapCallable false cancelled (fun _ => callable) (.ok .void))
  | continuation {handlesExpected cancelled : Bool} {callable : Expected V E → U} {q : ℕ}
      {input : Expected V E} :
      (s.heap p).work = some (.continuation handlesExpected cancelled callable) →
      parent = some q → (s.heap q).result = some input →
      WorkInput s p parent (s.read q p input)
        (wrapCallable handlesExpected cancelled callable input)

/-- What `makeTaskFactory` can do: the state it leaves, the payload to run and the payload of the
task to return. -/
inductive Factory (s : State T U V E) (work : Work U V E) : Bool → State T U V E → ℕ → ℕ → Prop
  | plain : Factory s work false
      { s with heap := update s.heap s.next { work := some work }, next := s.next + 1 }
      s.next s.next
  | unwrap : Factory s work true
      { s with
        heap := update (update (update s.heap s.next
            { work := some work
              continuation := .single (some ⟨s.next, s.next + 2, .inlineScheduler⟩) })
          (s.next + 1) {}) (s.next + 2) { work := some (.unwrap (s.next + 1)) }
        next := s.next + 3
        registered := (s.next + 2) :: s.registered }
      s.next (s.next + 1)

/-- The rules of the machine: what a step of the thread `t` can do, with the
oracle `o` for its user code. -/
inductive Step (s : State T U V E) (t : T) (o : O) : State T U V E → Prop
  | idle {i : ℕ} {p : ℕ} {parent : Option ℕ} : s.stack t = [] →
      s.queue[i]? = some (p, parent) →
      Step s t o ({ s with queue := s.queue.eraseIdx i }.setStack t [.run p parent])
  | mainReturns {u : U} {r : Return V E} : s.stack t = [.user u] → act u o = .ret r →
      Step s t o (s.setStack t [])
  | returns {u : U} {p : ℕ} {rest : List (Frame U V E)} {r : Return V E}
      {x : Expected V E} : s.stack t = .user u :: .doWork p :: rest → act u o = .ret r →
      outputWrapper r = some x → Step s t o ((s.setResult p x).setStack t (.doCompletion p :: rest))
  | emits {u : U} {rest : List (Frame U V E)} {r : Expected V E} {k : U} :
      s.stack t = .user u :: rest → act u o = .emit r k →
      Step s t o ({ s with emitted := s.emitted ++ [r] }.setStack t (.user k :: rest))
  | constructs {u : U} {rest : List (Frame U V E)} {k : ℕ → U} :
      s.stack t = .user u :: rest → act u o = .source k →
      Step s t o (s.makeSource.setStack t (.user (k s.next) :: rest))
  | completes {u : U} {rest : List (Frame U V E)} {p : ℕ} {r : Expected V E}
      {k : Except RuntimeError Unit → U} :
      s.stack t = .user u :: rest → act u o = .complete p r k → p ∈ s.sources →
      Step s t o ((s.setResult p r).setStack t (.doCompletion p :: .completing k :: rest))
  | makeTaskInline {u : U} {rest : List (Frame U V E)} {cancelled unwrap : Bool}
      {callable : U} {k : ℕ → U} {s₁ : State T U V E} {toRun toReturn : ℕ} :
      s.stack t = .user u :: rest →
      act u o = .makeTask .inlineScheduler cancelled unwrap callable k →
      Factory s (.start cancelled callable) unwrap s₁ toRun toReturn →
      Step s t o (s₁.setStack t (.run toRun none :: .user (k toReturn) :: rest))
  | makeTaskDispatcher {u : U} {rest : List (Frame U V E)} {cancelled unwrap : Bool}
      {callable : U} {k : ℕ → U} {s₁ : State T U V E} {toRun toReturn : ℕ} :
      s.stack t = .user u :: rest →
      act u o = .makeTask .dispatcher cancelled unwrap callable k →
      Factory s (.start cancelled callable) unwrap s₁ toRun toReturn →
      Step s t o ({ s₁ with queue := s₁.queue ++ [(toRun, none)] }.setStack t
        (.user (k toReturn) :: rest))
  | thenDo {u : U} {rest : List (Frame U V E)} {p : ℕ} {scheduler : Scheduler}
      {cancelled handlesExpected unwrap : Bool} {callable : Expected V E → U} {k : ℕ → U}
      {s₁ : State T U V E} {toRun toReturn : ℕ} :
      s.stack t = .user u :: rest →
      act u o = .thenDo p scheduler cancelled handlesExpected unwrap callable k → p < s.next →
      Factory s (.continuation handlesExpected cancelled callable) unwrap s₁ toRun toReturn →
      Step s t o ({ s₁ with registered := toRun :: s₁.registered }.setStack t
        (.addContinuations p [⟨p, toRun, scheduler⟩] :: .user (k toReturn) :: rest))
  | ticksNothing {u : U} {rest : List (Frame U V E)} {i : ℕ} {k : U} :
      s.stack t = .user u :: rest → act u o = .tick i k →
      Step s t o (s.setStack t (.user k :: rest))
  | ticks {u : U} {rest : List (Frame U V E)} {i : ℕ} {k : U} {p : ℕ}
      {parent : Option ℕ} :
      s.stack t = .user u :: rest → act u o = .tick i k → s.queue[i]? = some (p, parent) →
      Step s t o ({ s with queue := s.queue.eraseIdx i }.setStack t
        (.run p parent :: .user k :: rest))
  | completed {k : Except RuntimeError Unit → U} {rest : List (Frame U V E)} :
      s.stack t = .completing k :: rest → Step s t o (s.setStack t (.user (k (.ok ())) :: rest))
  | runBare {p : ℕ} {parent : Option ℕ} {rest : List (Frame U V E)} :
      s.stack t = .run p parent :: rest → (s.heap p).work = none →
      Step s t o (s.setStack t (.doCompletion p :: rest))
  | decides {p : ℕ} {parent : Option ℕ} {rest : List (Frame U V E)} {s₁ : State T U V E}
      {r : Expected V E} :
      s.stack t = .run p parent :: rest → WorkInput s p parent s₁ (.inl r) →
      Step s t o ((s₁.setResult p r).setStack t (.doCompletion p :: rest))
  | invokes {p : ℕ} {parent : Option ℕ} {rest : List (Frame U V E)} {s₁ : State T U V E}
      {u : U} :
      s.stack t = .run p parent :: rest → WorkInput s p parent s₁ (.inr u) →
      Step s t o ({ s₁ with invoked := p :: s₁.invoked }.setStack t
        (.user u :: .doWork p :: rest))
  | unwrapsError {p q source : ℕ} {rest : List (Frame U V E)} {e : E} :
      s.stack t = .run p (some q) :: rest → (s.heap p).work = some (.unwrap source) →
      (s.heap q).result = some (.error e) →
      Step s t o (((s.read q p (.error e)).setResult source (.error e)).setStack t
        (.doCompletion source :: .unwrapping p :: rest))
  | unwrapsTask {p q source r : ℕ} {rest : List (Frame U V E)} :
      s.stack t = .run p (some q) :: rest → (s.heap p).work = some (.unwrap source) →
      (s.heap q).result = some (.ok (.task r)) → r < s.next →
      Step s t o ((s.read q p (.ok (.task r))).setStack t
        (.collapseLeftIntoRight source r :: .unwrapping p :: rest))
  | unwrapped {p : ℕ} {rest : List (Frame U V E)} :
      s.stack t = .unwrapping p :: rest →
      Step s t o ((s.setResult p (.ok .void)).setStack t (.doCompletion p :: rest))
  | completesPayload {p : ℕ} {rest : List (Frame U V E)} :
      s.stack t = .doCompletion p :: rest → s.mutexFree p = true →
      (s.heap p).completed = false →
      Step s t o ((s.setPayload p ((s.heap p).cannibalized none)).setStack t
        (.runAll (s.heap p).continuation.span :: rest))
  | refuses {p : ℕ} {k : Except RuntimeError Unit → U} {rest : List (Frame U V E)} :
      s.stack t = .doCompletion p :: .completing k :: rest → s.mutexFree p = true →
      (s.heap p).completed = true →
      Step s t o (s.setStack t (.user (k (.error .completedTwice)) :: rest))
  | ranAll {rest : List (Frame U V E)} :
      s.stack t = .runAll [] :: rest → Step s t o (s.setStack t rest)
  | handsInline {c : Continuation} {cs : List Continuation} {rest : List (Frame U V E)} :
      s.stack t = .runAll (c :: cs) :: rest → c.schedulingFunction = .inlineScheduler →
      Step s t o ({ s with handed := c.continuation :: s.handed }.setStack t
        (.run c.continuation (some c.parent) :: .runAll cs :: rest))
  | handsDispatcher {c : Continuation} {cs : List Continuation} {rest : List (Frame U V E)} :
      s.stack t = .runAll (c :: cs) :: rest → c.schedulingFunction = .dispatcher →
      Step s t o ({ s with
        handed := c.continuation :: s.handed
        queue := s.queue ++ [(c.continuation, some c.parent)] }.setStack t (.runAll cs :: rest))
  | collapses {left right : ℕ} {rest : List (Frame U V E)} :
      s.stack t = .collapseLeftIntoRight left right :: rest → s.mutexFree left = true →
      (s.heap left).completed = false →
      Step s t o ((s.setPayload left ((s.heap left).cannibalized (some right))).setStack t
        (.addContinuations right
          ((s.heap left).continuation.span.map (·.reparent right)) :: rest))
  | addsNothing {p : ℕ} {rest : List (Frame U V E)} :
      s.stack t = .addContinuations p [] :: rest → Step s t o (s.setStack t rest)
  | addsAlong {p q : ℕ} {cs : List Continuation} {rest : List (Frame U V E)} :
      s.stack t = .addContinuations p cs :: rest → cs ≠ [] → s.mutexFree p = true →
      (s.heap p).taskRedirect = some q →
      Step s t o (s.setStack t
        (.addContinuations q (cs.map (·.reparent q)) :: .holding p :: rest))
  | addsLate {p : ℕ} {cs : List Continuation} {rest : List (Frame U V E)} :
      s.stack t = .addContinuations p cs :: rest → cs ≠ [] → s.mutexFree p = true →
      (s.heap p).taskRedirect = none → (s.heap p).completed = true →
      Step s t o (s.setStack t (.runAll cs :: rest))
  | stores {p : ℕ} {cs : List Continuation} {rest : List (Frame U V E)} :
      s.stack t = .addContinuations p cs :: rest → cs ≠ [] → s.mutexFree p = true →
      (s.heap p).taskRedirect = none → (s.heap p).completed = false →
      Step s t o ((s.setPayload p
        { s.heap p with continuation := (s.heap p).continuation.append cs }).setStack t rest)
  | unlocks {p : ℕ} {rest : List (Frame U V E)} :
      s.stack t = .holding p :: rest → Step s t o (s.setStack t rest)

variable {act}

omit [DecidableEq T] [Fintype T] [ErrorTraits E] in
theorem makeTaskFactory_sound {s s₁ : State T U V E} {work : Work U V E} {unwrap : Bool}
    {toRun toReturn : ℕ} (h : s.makeTaskFactory work unwrap = (s₁, toRun, toReturn)) :
    Factory s work unwrap s₁ toRun toReturn := by
  cases unwrap <;> cases h
  · exact .plain
  · exact .unwrap

theorem stepUser_sound {s s' : State T U V E} {t : T} {u : U} {o : O} {rest : List (Frame U V E)}
    (hs : s.stack t = .user u :: rest) (h : stepUser s t rest (act u o) = some s') :
    Step act s t o s' := by
  cases ha : act u o with
  | ret r =>
    rw [ha] at h
    cases rest with
    | nil => cases h; exact .mainReturns hs ha
    | cons f rest =>
      cases f <;> simp only [stepUser, Option.map_eq_some_iff, reduceCtorEq] at h
      obtain ⟨x, hx, rfl⟩ := h
      exact .returns hs ha hx
  | emit r k => rw [ha] at h; cases h; exact .emits hs ha
  | source k => rw [ha] at h; cases h; exact .constructs hs ha
  | complete p r k =>
    rw [ha] at h
    simp only [stepUser, Option.ite_none_right_eq_some, Option.some.injEq] at h
    obtain ⟨hp, rfl⟩ := h
    exact .completes hs ha hp
  | makeTask scheduler cancelled unwrap callable k =>
    rw [ha] at h
    rcases hf : s.makeTaskFactory (.start cancelled callable) unwrap with ⟨s₁, toRun, toReturn⟩
    simp only [stepUser, hf] at h
    cases scheduler with
    | inlineScheduler => cases h; exact .makeTaskInline hs ha (makeTaskFactory_sound hf)
    | dispatcher => cases h; exact .makeTaskDispatcher hs ha (makeTaskFactory_sound hf)
  | thenDo p scheduler cancelled handlesExpected unwrap callable k =>
    rw [ha] at h
    rcases hf : s.makeTaskFactory (.continuation handlesExpected cancelled callable) unwrap with
      ⟨s₁, toRun, toReturn⟩
    simp only [stepUser, hf, Option.ite_none_right_eq_some, Option.some.injEq] at h
    obtain ⟨hp, rfl⟩ := h
    exact .thenDo hs ha hp (makeTaskFactory_sound hf)
  | tick i k =>
    rw [ha] at h
    rcases hq : s.queue[i]? with _ | ⟨p, parent⟩
    · simp only [stepUser, hq, Option.some.injEq] at h
      subst h
      exact .ticksNothing hs ha
    · simp only [stepUser, hq, Option.some.injEq] at h
      subst h
      exact .ticks hs ha hq

theorem stepWork_sound {s s₁ : State T U V E} {t : T} {o : O} {p : ℕ} {parent : Option ℕ}
    {rest : List (Frame U V E)} {x : Expected V E ⊕ U} (hs : s.stack t = .run p parent :: rest)
    (hx : WorkInput s p parent s₁ x) : Step act s t o (stepWork s₁ t rest p x) := by
  cases x with
  | inl r => exact .decides hs hx
  | inr u => exact .invokes hs hx

omit [DecidableEq T] [Fintype T] [ErrorTraits E] in
theorem parentResult_eq_some {s : State T U V E} {parent : Option ℕ} {q : ℕ}
    {r : Expected V E} (h : s.parentResult parent = some (q, r)) :
    parent = some q ∧ (s.heap q).result = some r := by
  simp only [State.parentResult, Option.bind_eq_some_iff, Option.map_eq_some_iff,
    Prod.mk.injEq] at h
  obtain ⟨_, rfl, _, hr, rfl, rfl⟩ := h
  exact ⟨rfl, hr⟩

theorem stepUnwrap_sound {s s' : State T U V E} {t : T} {o : O} {p q source : ℕ}
    {rest : List (Frame U V E)} {input : Expected V E}
    (hs : s.stack t = .run p (some q) :: rest) (hw : (s.heap p).work = some (.unwrap source))
    (hr : (s.heap q).result = some input)
    (h : stepUnwrap (s.read q p input) t rest p source input = some s') : Step act s t o s' := by
  rcases input with e | _ | _ | r
  · cases h
    exact .unwrapsError hs hw hr
  · cases h
  · cases h
  · simp only [stepUnwrap, Option.ite_none_right_eq_some, Option.some.injEq] at h
    obtain ⟨hlt, rfl⟩ := h
    exact .unwrapsTask hs hw hr hlt

theorem stepRun_sound {s s' : State T U V E} {t : T} {o : O} {p : ℕ} {parent : Option ℕ}
    {rest : List (Frame U V E)} (hs : s.stack t = .run p parent :: rest)
    (h : stepRun s t rest p parent = some s') : Step act s t o s' := by
  unfold stepRun at h
  split at h
  · rename_i hw
    cases h
    exact .runBare hs hw
  · rename_i hw
    cases h
    exact stepWork_sound hs (.start hw)
  · rename_i hw
    obtain ⟨⟨q, input⟩, hq, rfl⟩ := Option.map_eq_some_iff.1 h
    obtain ⟨rfl, hr⟩ := parentResult_eq_some hq
    exact stepWork_sound hs (.continuation hw rfl hr)
  · rename_i source hw
    obtain ⟨⟨q, input⟩, hq, h'⟩ := Option.bind_eq_some_iff.1 h
    obtain ⟨rfl, hr⟩ := parentResult_eq_some hq
    exact stepUnwrap_sound hs hw hr h'

theorem stepDoCompletion_sound {s s' : State T U V E} {t : T} {o : O} {p : ℕ}
    {rest : List (Frame U V E)} (hs : s.stack t = .doCompletion p :: rest)
    (h : stepDoCompletion s t rest p = some s') : Step act s t o s' := by
  unfold stepDoCompletion at h
  split at h
  · rename_i hm
    split at h
    · rename_i hc
      cases h
      obtain ⟨hnot, rfl, rfl⟩ := Payload.cannibalize_eq_ok hc
      exact .completesPayload hs hm hnot
    · rename_i hc
      obtain ⟨hcomp, rfl⟩ := Payload.cannibalize_eq_error hc
      split at h
      · cases h
        exact .refuses hs hm hcomp
      · cases h
  · cases h

theorem stepCollapse_sound {s s' : State T U V E} {t : T} {o : O} {left right : ℕ}
    {rest : List (Frame U V E)} (hs : s.stack t = .collapseLeftIntoRight left right :: rest)
    (h : stepCollapse s t rest left right = some s') : Step act s t o s' := by
  unfold stepCollapse at h
  split at h
  · rename_i hm
    split at h
    · rename_i hc
      cases h
      obtain ⟨hnot, rfl, rfl⟩ := Payload.cannibalize_eq_ok hc
      exact .collapses hs hm hnot
    · cases h
  · cases h

theorem stepAddContinuations_sound {s s' : State T U V E} {t : T} {o : O} {p : ℕ}
    {cs : List Continuation} {rest : List (Frame U V E)}
    (hs : s.stack t = .addContinuations p cs :: rest)
    (h : stepAddContinuations s t rest p cs = some s') : Step act s t o s' := by
  unfold stepAddContinuations at h
  split at h
  · rename_i hcs
    subst hcs
    cases h
    exact .addsNothing hs
  · rename_i hcs
    split at h
    · rename_i hm
      split at h
      · rename_i hr
        cases h
        exact .addsAlong hs hcs hm hr
      · rename_i hr
        split at h
        · rename_i hc
          cases h
          exact .addsLate hs hcs hm hr hc
        · rename_i hc
          have hc' : (s.heap p).completed = false := by simpa using hc
          rw [Payload.internalAddContinuations_of_not_completed hc'] at h
          cases h
          exact .stores hs hcs hm hr hc'
    · cases h

theorem stepRunAll_sound {s s' : State T U V E} {t : T} {o : O} {cs : List Continuation}
    {rest : List (Frame U V E)} (hs : s.stack t = .runAll cs :: rest)
    (h : stepRunAll s t rest cs = some s') : Step act s t o s' := by
  cases cs with
  | nil => cases h; exact .ranAll hs
  | cons c cs =>
    cases hc : c.schedulingFunction with
    | inlineScheduler =>
      simp only [stepRunAll, hc, Option.some.injEq] at h
      subst h
      exact .handsInline hs hc
    | dispatcher =>
      simp only [stepRunAll, hc, Option.some.injEq] at h
      subst h
      exact .handsDispatcher hs hc

theorem stepThread_sound {s s' : State T U V E} {t : T} {o : O} {i : ℕ}
    (h : stepThread act s t o i (s.stack t) = some s') : Step act s t o s' := by
  rcases hs : s.stack t with _ | ⟨f, rest⟩ <;> rw [hs] at h
  · simp only [stepThread, stepIdle] at h
    split at h
    · cases h
    · rename_i hq
      cases h
      exact .idle hs hq
  · cases f with
    | user u => exact stepUser_sound hs h
    | completing k => cases h; exact .completed hs
    | run p parent => exact stepRun_sound hs h
    | doWork p => cases h
    | unwrapping p => cases h; exact .unwrapped hs
    | doCompletion p => exact stepDoCompletion_sound hs h
    | runAll cs => exact stepRunAll_sound hs h
    | collapseLeftIntoRight left right => exact stepCollapse_sound hs h
    | addContinuations p cs => exact stepAddContinuations_sound hs h
    | holding p => cases h; exact .unlocks hs

/-- **Every step follows one of the rules.** -/
theorem step_sound {s s' : State T U V E} {l : Label T O} (h : step act s l = some s') :
    Step act s l.thread l.oracle s' :=
  stepThread_sound h

end step

end Arcana.Tasks
