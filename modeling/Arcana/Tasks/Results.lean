import Arcana.Tasks.Ownership

/-!
# Results of completed tasks

`task_payload_with_return::complete` writes `Result` and then calls `base_task_payload::complete`,
whose `cannibalize` finds out whether the payload is completed already and throws. So a second
completion that is refused has overwritten the result, and continuations that read it later see
another one. The payload itself has one owner (`Owned`), so that only such a call of user code can
do it: in a run where every completion of a completed source carries the result that is there, a
completed payload never changes and all its continuations read the same result
(`completed_immutable`).

* `Consistent` is the condition on a step, and `Settled` the invariant of the runs without any
  condition.
* `Step.frozen` says that a step in keeping with it leaves completed payloads alone.
* `ReadsKept` is about the results that works have read from their parents.
* `completed_immutable` is the result about runs, and `completed_overwritten` a run in which a
  completion that is refused has overwritten the result.
-/

namespace Arcana.Tasks

open Function Foundations

variable {T O U V E : Type*}

/-- When the step calls `task_completion_source::complete` on a completed source, it passes the
result that the source holds. -/
def Consistent (act : U → O → Action U V E) (s : State T U V E) (l : Label T O) : Prop :=
  ∀ u rest p r k, s.stack l.thread = .user u :: rest → act u l.oracle = .complete p r k →
    (s.heap p).completed = true → (s.heap p).result = some r

/-- The invariant that every run keeps. -/
structure Settled [Fintype T] (s : State T U V E) : Prop where
  wellFormed : WellFormed s
  stacked : Stacked true s
  owned : Owned s
  apart : SourcesApart s

theorem Settled.init [Fintype T] (main : T → U) : Settled (init main : State T U V E) where
  wellFormed := .init main
  stacked := .init true main
  owned := .init main
  apart := ⟨nofun, nofun⟩

section

variable [DecidableEq T] [Fintype T] [ErrorTraits E] {act : U → O → Action U V E}
  {s s' : State T U V E} {t : T} {o : O}

theorem Settled.step (h : Settled s) (hstep : Step act s t o s') : Settled s' where
  wellFormed := h.wellFormed.step hstep
  stacked := h.stacked.step h.wellFormed nofun hstep
  owned := h.owned.step h.wellFormed h.stacked hstep
  apart := h.apart.step h.wellFormed hstep

omit [DecidableEq T] [ErrorTraits E] in
/-- A payload that a call under way owns is not completed. -/
theorem Settled.not_completed (h : Settled s) {p : ℕ} (hp : p < s.next) {f : Frame U V E}
    (hf : f ∈ s.stack t) (hfp : 1 ≤ f.owes (fun q => (s.heap q).work) p) (hs : p ∉ s.sources) :
    (s.heap p).completed = false :=
  h.owned.not_completed hp hs hf hfp

omit [DecidableEq T] [ErrorTraits E] in
/-- The payload of a callable that is running is not completed. -/
theorem Settled.running_not_completed (h : Settled s) {p : ℕ} (hp : s.Runnable p)
    {f : Frame U V E} (hf : f ∈ s.stack t) (hfp : 1 ≤ f.owes (fun q => (s.heap q).work) p) :
    (s.heap p).completed = false :=
  h.not_completed hp.lt hf hfp fun hs => hp.work (h.apart.bare p hs)

omit [ErrorTraits E] in
/-- A payload whose owner is a call on top of one stack has no other owner. -/
theorem Settled.sole_owner (h : Settled s) {p : ℕ} (hp : s.Runnable p)
    {top rest : List (Frame U V E)} (hs : s.stack t = top ++ rest) {g : Frame U V E} (hg : g ∈ top)
    (hgp : 1 ≤ g.owes (fun q => (s.heap q).work) p) {t' : T} {f : Frame U V E}
    (hf : f ∈ update s.stack t rest t') : f.owes (fun q => (s.heap q).work) p = 0 := by
  have hsum := h.owned (fun q => (s.heap q).work) (fun _ _ => rfl) p
    fun hsource => hp.work (h.apart.bare p hsource)
  have hle := s.frames_add_frame_le (.owners (fun q => (s.heap q).work) p) hs hf
  have htop : g.owes (fun q => (s.heap q).work) p ≤
      (Weight.owners (fun q => (s.heap q).work) p).frames top :=
    List.single_le_sum (by simp) _ (List.mem_map_of_mem hg)
  rw [if_pos hp.lt, State.weight] at hsum
  simp only [Weight.owners_frame] at hle
  omega

/-! ## A completed payload does not change -/

/-- **A consistent step leaves completed payloads alone.** -/
theorem Step.frozen {l : Label T O} (h : Settled s) (ok : Consistent act s l)
    (hstep : Step act s l.thread l.oracle s') {p : ℕ} (hc : (s.heap p).completed = true) :
    s'.heap p = s.heap p := by
  have hlt : p < s.next := by
    by_contra hlt
    rw [h.wellFormed.blank p (by omega)] at hc
    cases hc
  have hne {q : ℕ} (hq : (s.heap q).completed = false) : p ≠ q := by
    rintro rfl
    rw [hq] at hc
    cases hc
  cases hstep with
  | @returns u q rest r x hs =>
    have hrun : s.Runnable q := h.wellFormed.frames _ (.doWork q) (by rw [hs]; simp)
    have hq := h.running_not_completed hrun (t := l.thread) (f := .doWork q) (by rw [hs]; simp)
      (by simp [Frame.owes])
    exact update_of_ne (hne hq) ..
  | constructs => exact update_of_ne (by omega) ..
  | @completes u rest q r k hs ha _ =>
    by_cases e : p = q
    · subst e
      have hr := ok u rest p r k hs ha hc
      simp only [State.setStack_heap, State.setResult_heap, update_self, ← hr]
    · exact update_of_ne e ..
  | makeTaskInline _ _ hf | makeTaskDispatcher _ _ hf | thenDo _ _ _ hf => exact hf.heap_of_lt hlt
  | @decides q parent rest s₁ r hs hw =>
    have hrun : s.Runnable q := (h.wellFormed.top hs).1
    have hq := h.running_not_completed hrun (t := l.thread) (f := .run q parent)
      (by rw [hs]; simp) (by simp [Frame.owes, owes])
    rw [← hw.heap_next.1]
    exact update_of_ne (hne hq) ..
  | invokes _ hw => rw [← hw.heap_next.1]; rfl
  | @unwrapsError l' q source rest e hs hw =>
    have hlt' : source < s.next := (h.wellFormed.payload l').unwraps source hw
    have hq := h.not_completed hlt' (t := l.thread) (f := .run l' (some q)) (by rw [hs]; simp)
      (by simp [Frame.owes, owes, hw, Work.standIn]) (h.apart.standIn l' source hw)
    exact update_of_ne (hne hq) ..
  | @unwrapped q rest hs =>
    have hrun : s.Runnable q := h.wellFormed.top hs
    have hq := h.running_not_completed hrun (t := l.thread) (f := .unwrapping q) (by rw [hs]; simp)
      (by simp [Frame.owes])
    exact update_of_ne (hne hq) ..
  | completesPayload _ _ hq | collapses _ _ hq => exact update_of_ne (hne hq) ..
  | stores _ _ _ _ hq => exact update_of_ne (hne hq) ..
  | _ => rfl

/-- The condition is exact: a step that is not consistent changes the result of a completed
payload. -/
theorem overwrites_of_not_consistent {l : Label T O} (hbad : ¬ Consistent act s l)
    (hstep : step act s l = some s') :
    ∃ p, (s.heap p).completed = true ∧ (s'.heap p).result ≠ (s.heap p).result := by
  simp only [Consistent, not_forall] at hbad
  obtain ⟨u, rest, p, r, k, hs, ha, hc, hr⟩ := hbad
  simp only [step, hs, stepThread, stepUser, ha, Option.ite_none_right_eq_some,
    Option.some.injEq] at hstep
  obtain ⟨-, rfl⟩ := hstep
  refine ⟨p, hc, fun he => hr ?_⟩
  rw [← he]
  simp

/-- A completed payload is the same at the end of a consistent run. -/
theorem frozen_of_reach (h : Settled s) (hreach : Reach (step act) (Consistent act) s s') {p : ℕ}
    (hc : (s.heap p).completed = true) : Settled s' ∧ s'.heap p = s.heap p := by
  induction hreach with
  | refl => exact ⟨h, rfl⟩
  | tail _ ok hstep ih =>
    obtain ⟨ha, heq⟩ := ih
    have hrule := step_sound hstep
    rw [← heq] at hc ⊢
    exact ⟨ha.step hrule, hrule.frozen ha ok hc⟩

/-! ## What continuations read -/

/-- The parents that were read are completed and still hold what was read. -/
def ReadsKept (s : State T U V E) : Prop :=
  ∀ q w r, (q, w, r) ∈ s.reads → (s.heap q).completed = true ∧ (s.heap q).result = some r

omit [DecidableEq T] [Fintype T] in
/-- A work reads the result of its completed parent. -/
theorem WorkInput.reads {s₁ : State T U V E} {p : ℕ} {parent : Option ℕ} {x : Expected V E ⊕ U}
    (h : WorkInput s p parent s₁ x) (hok : s.CallableOk (p, parent)) {q w : ℕ} {r : Expected V E}
    (hr : (q, w, r) ∈ s₁.reads) :
    (q, w, r) ∈ s.reads ∨ (s.heap q).completed = true ∧ (s.heap q).result = some r := by
  cases h with
  | start => exact .inl hr
  | continuation _ hparent hresult =>
    rcases List.mem_cons.1 hr with e | hr
    · cases e
      exact .inr ⟨(hok.2 q hparent).completed, hresult⟩
    · exact .inl hr

theorem Step.reads (h : WellFormed s) (hstep : Step act s t o s') {q w : ℕ} {r : Expected V E}
    (hr : (q, w, r) ∈ s'.reads) :
    (q, w, r) ∈ s.reads ∨ (s.heap q).completed = true ∧ (s.heap q).result = some r := by
  cases hstep with
  | decides hs hw | invokes hs hw => exact hw.reads (h.top hs) hr
  | unwrapsError hs _ hresult =>
    rcases List.mem_cons.1 hr with e | hr
    · cases e
      exact .inr ⟨((h.top hs).2 _ rfl).completed, hresult⟩
    · exact .inl hr
  | unwrapsTask hs _ hresult =>
    rcases List.mem_cons.1 hr with e | hr
    · cases e
      exact .inr ⟨((h.top hs).2 _ rfl).completed, hresult⟩
    · exact .inl hr
  | makeTaskInline _ _ hf | makeTaskDispatcher _ _ hf | thenDo _ _ _ hf =>
    exact .inl (hf.reads ▸ hr)
  | _ => exact .inl hr

theorem ReadsKept.step {l : Label T O} (h : Settled s) (hr : ReadsKept s) (ok : Consistent act s l)
    (hstep : Step act s l.thread l.oracle s') : ReadsKept s' := by
  intro q w r hread
  have hkept : (s.heap q).completed = true ∧ (s.heap q).result = some r := by
    rcases hstep.reads h.wellFormed hread with hold | hnew
    · exact hr q w r hold
    · exact hnew
  rw [hstep.frozen h ok hkept.1]
  exact hkept

/-- **A completed task's result is immutable.** In every state of a run whose completions are
consistent: a completed payload is the same, with its result, completion, continuations and
redirect, in every later state; a second completion throws and leaves the state alone; and what
continuations of a payload read is the result it still holds. -/
theorem completed_immutable {main : T → U} (h : Reach (step act) (Consistent act) (init main) s) :
    (∀ s', Reach (step act) (Consistent act) s s' → ∀ p, (s.heap p).completed = true →
      s'.heap p = s.heap p) ∧
    (∀ l s' p k rest, s.stack l.thread = .doCompletion p :: .completing k :: rest →
      (s.heap p).completed = true → step act s l = some s' →
      ∃ e : RuntimeError, e.what = "tried to complete a task twice" ∧
        s' = s.setStack l.thread (.user (k (.error e)) :: rest)) ∧
    (∀ q w r, (q, w, r) ∈ s.reads → (s.heap q).completed = true ∧ (s.heap q).result = some r) ∧
    ∀ q w w' r r', (q, w, r) ∈ s.reads → (q, w', r') ∈ s.reads → r = r' := by
  have start : Settled (init main : State T U V E) ∧ ReadsKept (init main : State T U V E) :=
    ⟨.init main, nofun⟩
  have keep (a : State T U V E) (l : Label T O) (b : State T U V E) (ha : Settled a ∧ ReadsKept a)
      (ok : Consistent act a l) (hstep : step act a l = some b) : Settled b ∧ ReadsKept b := by
    have hrule := step_sound hstep
    exact ⟨ha.1.step hrule, ha.2.step ha.1 ok hrule⟩
  obtain ⟨hsettled, hreads⟩ := h.invariant start keep
  refine ⟨fun s' hs' p hc => (frozen_of_reach hsettled hs' hc).2, ?_, hreads, ?_⟩
  · intro l s' p k rest hs hc hstep
    refine ⟨.completedTwice, rfl, ?_⟩
    simp only [step, hs, stepThread, stepDoCompletion, Payload.cannibalize_of_completed hc,
      Option.ite_none_right_eq_some, Option.some.injEq] at hstep
    exact hstep.2.symm
  · intro q w w' r r' hr hr'
    have he : some r = some r' := by rw [← (hreads q w r hr).2, (hreads q w' r' hr').2]
    exact Option.some.inj he

end

/-! ## A source that is completed twice -/

/-- A program that completes a source with 1, attaches a continuation to it, completes it once more
with the value its oracle says, and attaches a second continuation. -/
inductive CompleteTwice
  | main
  | constructed
  | completed
  | watched
  | refused
  | finished

def CompleteTwice.act : CompleteTwice → ℕ → Action CompleteTwice ℕ ErrorCode
  | .main, _ => .source fun _ => .constructed
  | .constructed, _ => .complete 0 (.ok (.val 1)) fun _ => .completed
  | .completed, _ =>
    .thenDo 0 .inlineScheduler false false false (fun _ => .finished) fun _ => .watched
  | .watched, second => .complete 0 (.ok (.val second)) fun _ => .refused
  | .refused, _ =>
    .thenDo 0 .inlineScheduler false false false (fun _ => .finished) fun _ => .finished
  | .finished, _ => .ret (.value .void)

def CompleteTwice.trace (second : ℕ) (n : ℕ) : List (Label Unit ℕ) :=
  List.replicate n ⟨(), second, 0⟩

/-- A check that is enough for `Consistent`. -/
def consistentCheck [DecidableEq V] [DecidableEq E] (act : U → O → Action U V E)
    (s : State T U V E) (l : Label T O) : Bool :=
  match s.stack l.thread with
  | .user u :: _ =>
    match act u l.oracle with
    | .complete p r _ => !(s.heap p).completed || decide ((s.heap p).result = some r)
    | _ => true
  | _ => true

theorem consistent_of_check [DecidableEq V] [DecidableEq E] {act : U → O → Action U V E}
    {s : State T U V E} {l : Label T O} (h : consistentCheck act s l = true) :
    Consistent act s l := by
  intro u rest p r k hs ha hc
  simp only [consistentCheck, hs, ha, hc] at h
  simpa using h

/-- When the second value is 1 again, the refused completion shows in no continuation. -/
theorem completed_immutable_same : ∃ s, Reach (step CompleteTwice.act)
    (Consistent CompleteTwice.act) (init fun _ : Unit => .main) s ∧
      (0, 2, .ok (.val 1)) ∈ s.reads ∧ (s.heap 0).result = some (.ok (.val 1)) := by
  have hrun : (runWhile (consistentCheck CompleteTwice.act) (step CompleteTwice.act)
      (init fun _ : Unit => .main) (CompleteTwice.trace 1 19)).map (fun s => s.reads) =
      some [(0, 2, .ok (.val 1)), (0, 1, .ok (.val 1))] := by decide
  obtain ⟨s, hreach, h⟩ := exists_reach_of_runWhile (fun _ _ => consistent_of_check) hrun
  have hmem : (0, 2, .ok (.val 1)) ∈ s.reads := by simp [h]
  exact ⟨s, hreach, hmem, ((completed_immutable hreach).2.2.1 0 2 _ hmem).2⟩

/-- **When the second value is 2, the completion that throws has overwritten the result**, and the
two continuations read different results. -/
theorem completed_overwritten : ¬ ∀ s, Reach (step CompleteTwice.act) anyStep
    (init fun _ : Unit => .main) s → ∀ q w w' r r', (q, w, r) ∈ s.reads → (q, w', r') ∈ s.reads →
      r = r' := by
  have hrun : (run (step CompleteTwice.act) (init fun _ : Unit => .main)
      (CompleteTwice.trace 2 19)).map (fun s => s.reads) =
      some [(0, 2, .ok (.val 2)), (0, 1, .ok (.val 1))] := by decide
  obtain ⟨s, hreach, h⟩ := exists_reach_of_run hrun
  intro hall
  have hsame := hall s hreach 0 1 2 (.ok (.val 1)) (.ok (.val 2))
    (by simp [h]) (by simp [h])
  cases hsame

end Arcana.Tasks
