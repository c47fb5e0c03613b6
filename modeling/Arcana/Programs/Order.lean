import Arcana.Programs.Labelling
import Arcana.Tasks.Redirects
import Arcana.Tasks.Results

/-!
# The order of addresses

Addresses grow with time, and the code of a program only touches tasks it has just made. So a call
that runs above a held mutex, or inside a callable, has in hand only tasks with higher addresses:
redirects lead upwards, and a thread that waits for a mutex waits for one above all those that it
holds. That is why no set of threads waits in a circle, and why `add_continuations` comes to the end
of the redirects.

* `Hands`: the tasks that a call has in hand; `Refers`: the payloads whose results it goes on with.
* `Inner`: the payload of a task of a task holds a task.
* `Ordered`: calls have in hand what is newer than the calls below them.
* `Ordered.next` and `Ordered.move`: what is left to show of a step.
* `Ordered.standIn_lt`: a stand-in is below the task that it leads to.
* `Ordered.step_returns`, `Ordered.step_collapses` and so on: one lemma for each rule.
* `Ordered.step`: every step keeps the order.
-/

namespace Arcana.Programs

open Function Tasks

universe u v

variable {T : Type*} {V : Type u} {E : Type v} [ErrorTraits E] {ρ ρ' : List (Role V E)}
  {main : Program V E} {s s' s₁ : State T (Code V E) V E} {t : T}

/-- The task that the code has in hand. -/
def Code.handle : Code V E → Option ℕ
  | complete q _ _ _ => some q
  | built q _ _ => some q
  | _ => none

/-- The call has the task `q` in hand. -/
def Hands : Frame (Code V E) V E → ℕ → Prop
  | .user u, q => u.handle = some q
  | .completing k, q => ∃ x, (k x).handle = some q
  | .collapseLeftIntoRight _ right, q => q = right
  | .addContinuations p _, q => q = p
  | _, _ => False

/-- The call goes on with the result of the payload `p`. -/
def Refers : Frame (Code V E) V E → ℕ → Prop
  | .run _ parent, p => parent = some p
  | .doCompletion q, p => p = q
  | .runAll cs, p => ∃ c ∈ cs, c.parent = p
  | _, _ => False

/-- The payload `p` of a task of a task holds the task `r`. -/
def Inner (ρ : List (Role V E)) (s : State T (Code V E) V E) (p r : ℕ) : Prop :=
  (∃ b hb, ρ[p]? = some (.outer b hb)) ∧ (s.heap p).result = some (.ok (.task r))

/-- What the call has in hand, and what it goes on with, is not below `n`. -/
structure Above (ρ : List (Role V E)) (s : State T (Code V E) V E) (n : ℕ)
    (f : Frame (Code V E) V E) : Prop where
  hands : ∀ q, Hands f q → n ≤ q
  refers : ∀ p, Refers f p → ∀ r, Inner ρ s p r → n ≤ r

/-- The first address that the calls above this one have in hand. -/
def floor : Frame (Code V E) V E → ℕ
  | .holding p => p + 1
  | .doWork x => x + 1
  | _ => 0

/-- A collapse goes upwards, and a mutex is held for a redirect. -/
def Upward (s : State T (Code V E) V E) : Frame (Code V E) V E → Prop
  | .collapseLeftIntoRight left right => left < right
  | .holding p => (s.heap p).taskRedirect ≠ none
  | _ => True

/-- **Calls have in hand what is newer than the calls below them.** -/
structure Ordered (ρ : List (Role V E)) (s : State T (Code V E) V E) : Prop where
  calls : ∀ t, (s.stack t).Pairwise fun f g => Above ρ s (floor g) f
  inner : ∀ p r, Inner ρ s p r → p < r
  upward : ∀ t, ∀ f ∈ s.stack t, Upward s f
  redirects : ∀ p q, (s.heap p).taskRedirect = some q → p < q

theorem floor_le (hw : WellFormed s) {f : Frame (Code V E) V E} (hf : f ∈ s.stack t) :
    floor f ≤ s.next := by
  have hok := hw.frames t f hf
  cases f with
  | holding => exact hok
  | doWork => exact hok.lt
  | _ => exact Nat.zero_le _

/-- The roles of the payloads there are do not change. -/
theorem Inner.of_mono (hρ : ρ <+: ρ') (h : Labelled ρ main s) (hw : WellFormed s) {p r : ℕ}
    (hi : Inner ρ' s p r) : Inner ρ s p r := by
  obtain ⟨⟨b, hb, hrole⟩, hresult⟩ := hi
  have hp : p < s.next := by
    by_contra hp
    rw [hw.blank p (by omega)] at hresult
    cases hresult
  obtain ⟨R, hR, -⟩ := h.payload p hp
  rw [role_mono hρ hR] at hrole
  exact ⟨⟨b, hb, hR.trans hrole⟩, hresult⟩

theorem Ordered.mono (hρ : ρ <+: ρ') (h : Labelled ρ main s) (hw : WellFormed s)
    (ho : Ordered ρ s) : Ordered ρ' s where
  calls t := (ho.calls t).imp fun hf =>
    ⟨hf.hands, fun p hp r hi => hf.refers p hp r (hi.of_mono hρ h hw)⟩
  inner p r hi := ho.inner p r (hi.of_mono hρ h hw)
  upward := ho.upward
  redirects := ho.redirects

/-! ## What a step has to establish -/

section

variable [DecidableEq T] (top new : List (Frame (Code V E) V E))
  {rest : List (Frame (Code V E) V E)}

theorem Ordered.next (ho : Ordered ρ s) (hw : WellFormed s) (he : s.Extends s')
    (hs : s.stack t = top ++ rest) (stack : s'.stack = update s.stack t (new ++ rest))
    (kept : ∀ t', ∀ f ∈ update s.stack t rest t', ∀ p, Refers f p → ∀ r, Inner ρ s' p r →
      Inner ρ s p r)
    (above : ∀ g ∈ rest, floor g ≤ s.next → (∀ f ∈ top, Above ρ s (floor g) f) →
      ∀ f ∈ new, Above ρ s' (floor g) f)
    (among : new.Pairwise fun f g => Above ρ s' (floor g) f)
    (inner : ∀ p r, Inner ρ s' p r → Inner ρ s p r ∨ p < r)
    (redirects : ∀ p q, (s'.heap p).taskRedirect = some q →
      (s.heap p).taskRedirect = some q ∨ p < q)
    (upward : ∀ f ∈ new, Upward s' f) :
    Ordered ρ s' := by
  have old := ho.calls t
  rw [hs, List.pairwise_append] at old
  have stay (t' : T) {f : Frame (Code V E) V E} {n : ℕ} (hf : f ∈ update s.stack t rest t')
      (ha : Above ρ s n f) : Above ρ s' n f :=
    ⟨ha.hands, fun p hp r hi => ha.refers p hp r (kept t' f hf p hp r hi)⟩
  have still (t' : T) {f : Frame (Code V E) V E} (hf : f ∈ s.stack t') : Upward s' f := by
    have hup := ho.upward t' f hf
    cases f with
    | holding p =>
      have hlt : p < s.next := hw.frames t' (.holding p) hf
      obtain ⟨q, hq⟩ := Option.ne_none_iff_exists'.1 hup
      have hdone := ((hw.payload p).redirect q hq).1
      show (s'.heap p).taskRedirect ≠ none
      rw [((he.payload p hlt).completed hdone).2]
      exact hup
    | _ => exact hup
  constructor
  · intro t'
    rw [stack, update_apply]
    split
    · rename_i e
      subst e
      refine List.pairwise_append.2 ⟨among, ?_, fun f hf g hg => ?_⟩
      · exact old.2.1.imp_of_mem fun hf _ ha => stay t' (by rw [update_self]; exact hf) ha
      · have hmem : g ∈ s.stack t' := by rw [hs]; exact List.mem_append_right _ hg
        exact above g hg (floor_le hw hmem) (fun f hf => old.2.2 f hf g hg) f hf
    · rename_i e
      exact (ho.calls t').imp_of_mem fun hf _ ha => stay t' (by rw [update_of_ne e]; exact hf) ha
  · exact fun p r hi => (inner p r hi).elim (ho.inner p r) id
  · intro t' f hf
    rw [stack, update_apply] at hf
    split at hf
    · rcases List.mem_append.1 hf with hf | hf
      · exact upward f hf
      · exact still t (by rw [hs]; exact List.mem_append_right _ hf)
    · exact still t' hf
  · exact fun p q hq => (redirects p q hq).elim (ho.redirects p q) id

/-- A step that changes no task of a task and no redirect. -/
theorem Ordered.move (ho : Ordered ρ s) (hw : WellFormed s) (he : s.Extends s')
    (inner : ∀ p r, Inner ρ s' p r → Inner ρ s p r)
    (redirects : ∀ p, (s'.heap p).taskRedirect = (s.heap p).taskRedirect)
    (hs : s.stack t = top ++ rest) (stack : s'.stack = update s.stack t (new ++ rest))
    (above : ∀ g ∈ rest, floor g ≤ s.next → (∀ f ∈ top, Above ρ s (floor g) f) →
      ∀ f ∈ new, Above ρ s' (floor g) f)
    (among : new.Pairwise fun f g => Above ρ s' (floor g) f)
    (upward : ∀ f ∈ new, Upward s f) : Ordered ρ s' := by
  refine ho.next top new hw he hs stack (fun _ _ _ p _ r => inner p r) above among
    (fun p r hi => .inl (inner p r hi)) (fun p _ hq => .inl (redirects p ▸ hq)) fun f hf => ?_
  have hup := upward f hf
  cases f with
  | holding p => exact (redirects p).trans_ne hup
  | _ => exact hup

/-- A step that returns from the calls on top. -/
theorem Ordered.pop (ho : Ordered ρ s) (hw : WellFormed s) (he : s.Extends s')
    (inner : ∀ p r, Inner ρ s' p r → Inner ρ s p r)
    (redirects : ∀ p, (s'.heap p).taskRedirect = (s.heap p).taskRedirect)
    (hs : s.stack t = top ++ rest) (stack : s'.stack = update s.stack t rest) : Ordered ρ s' :=
  ho.move top [] hw he inner redirects hs stack (fun _ _ _ _ _ hf => by cases hf) .nil nofun

end

/-- Writing a result to a payload that is no task of a task. -/
theorem Inner.of_setResult {p r q : ℕ} {x : Expected V E} {R : Role V E} (hq : ρ[q]? = some R)
    (hR : ∀ b hb, R ≠ .outer b hb) (h : Inner ρ (s.setResult q x) p r) : Inner ρ s p r := by
  obtain ⟨⟨b, hb, hrole⟩, hresult⟩ := h
  have hne : p ≠ q := by
    rintro rfl
    exact hR b hb (Option.some.inj (hq.symm.trans hrole))
  rw [State.setResult_heap, update_of_ne hne] at hresult
  exact ⟨⟨b, hb, hrole⟩, hresult⟩

/-- A write that leaves a field of the payload alone. -/
theorem field_update {α : Type*} (field : Payload (Code V E) V E → α)
    {heap : ℕ → Payload (Code V E) V E} {p : ℕ} {x : Payload (Code V E) V E}
    (hx : field x = field (heap p)) (q : ℕ) : field (update heap p x q) = field (heap q) := by
  rw [update_apply]
  split
  · rename_i e
    rw [e, hx]
  · rfl

/-- Nothing is above the task of a program that it does not have in hand. -/
theorem not_inner_of_task {p r : ℕ} {b : Program V E} (hp : ρ[p]? = some (.task b)) :
    ¬ Inner ρ s p r := by
  rintro ⟨⟨b', hb, hrole⟩, -⟩
  cases hp.symm.trans hrole

theorem Factory.result {work : Work (Code V E) V E} {unwrap : Bool} {toRun toReturn : ℕ}
    (hw : WellFormed s) (hf : Factory s work unwrap s₁ toRun toReturn) (p : ℕ) :
    (s₁.heap p).result = (s.heap p).result := by
  have fresh (q : ℕ) (hq : s.next ≤ q) : (s.heap q).result = none := by rw [hw.blank q hq]
  cases hf with
  | plain =>
    simp only [update_apply]
    split
    · exact (fresh p (by omega)).symm
    · rfl
  | unwrap =>
    simp only [update_apply]
    split_ifs
    · exact (fresh p (by omega)).symm
    · exact (fresh p (by omega)).symm
    · exact (fresh p (by omega)).symm
    · rfl

theorem Factory.next_le_toReturn {work : Work (Code V E) V E} {unwrap : Bool} {toRun toReturn : ℕ}
    (hf : Factory s work unwrap s₁ toRun toReturn) : s.next ≤ toReturn := by
  cases hf with
  | plain => exact le_rfl
  | unwrap => exact Nat.le_succ _

/-! ## Every step keeps the order -/

theorem Above.zero (f : Frame (Code V E) V E) : Above ρ s 0 f :=
  ⟨fun _ _ => Nat.zero_le _, fun _ _ _ _ => Nat.zero_le _⟩

/-- A payload that is run without an input. -/
theorem Above.start {q n : ℕ} : Above ρ s n (.run q none) :=
  ⟨fun _ => False.elim, fun _ hp => by cases hp⟩

theorem Above.user {u : Code V E} {n : ℕ} (h : ∀ q, u.handle = some q → n ≤ q) :
    Above ρ s n (.user u) :=
  ⟨h, nofun⟩

/-- Only the tasks of tasks lead on to other tasks. -/
theorem Above.doCompletion {q n : ℕ} (h : ∀ r, ¬ Inner ρ s q r) : Above ρ s n (.doCompletion q) :=
  ⟨nofun, fun p hp r hi => absurd hi (by obtain rfl : p = q := hp; exact h r)⟩

/-- A call that goes on with less of what another one goes on with. -/
theorem Above.of_refers {f g : Frame (Code V E) V E} {n : ℕ} (h : Above ρ s n f)
    (hands : ∀ q, ¬ Hands g q) (refers : ∀ p, Refers g p → Refers f p)
    (inner : ∀ p r, Inner ρ s' p r → Inner ρ s p r) : Above ρ s' n g :=
  ⟨fun q hq => absurd hq (hands q), fun p hp r hi => h.refers p (refers p hp) r (inner p r hi)⟩

/-- The result of the payload is the same. -/
theorem Inner.congr {p r : ℕ} (result : (s'.heap p).result = (s.heap p).result)
    (h : Inner ρ s' p r) : Inner ρ s p r :=
  ⟨h.1, result ▸ h.2⟩

/-- The task that the callable of a payload returns is the one that its code has in hand. -/
theorem Answers.handle {x q : ℕ} {u : Code V E} {r : Return V E} {b : Program V E}
    {hb : b.unwraps = true} (h : Answers ρ x u) (hu : u.Acts (.ret r))
    (hr : outputWrapper r = some (.ok (.task q))) (hx : ρ[x]? = some (.outer b hb)) :
    u.handle = some q := by
  cases h with
  | returns hx' | observes hx' | observed hx' => cases hx.symm.trans hx'
  | throws _ e _ hc =>
    subst e
    cases hu
    simp [outputWrapper, hc] at hr
  | program _ _ hpurpose =>
    cases hu with
    | returned =>
      cases hr
      rfl
    | ret => cases hpurpose

theorem Outcome.handle_code {unwrap : Bool} (o : Outcome V E unwrap) : o.code.handle = none := by
  cases o <;> rfl

/-- The code of a callable has nothing in hand when it is invoked. -/
theorem Role.handle_of_invoked {R : Role V E} {u : Code V E} (h : R.fate = .inr u) :
    u.handle = none := by
  cases R with
  | task p | outer p =>
    obtain ⟨o, -, rfl⟩ : ∃ o, p.fate = .inr o ∧ o.code = u := by
      cases hf : p.fate with
      | inl r => simp [Role.fate, hf] at h
      | inr o => exact ⟨o, rfl, by simpa [Role.fate, hf] using h⟩
    exact o.handle_code
  | link => cases h
  | observer =>
    cases h
    rfl

/-- A work of a task of a task that settles holds no task. -/
theorem Role.not_task_of_settled {b : Program V E} {hb : b.unwraps = true} {q : ℕ}
    (h : (Role.outer b hb).fate = .inl (.ok (.task q))) : False := by
  obtain ⟨r, hr, e⟩ : ∃ r, b.fate = .inl r ∧ r = .ok (.task q) := by
    cases hf : b.fate with
    | inl r => exact ⟨r, rfl, by simpa [Role.fate, hf] using h⟩
    | inr o => simp [Role.fate, hf] at h
  obtain ⟨e', he'⟩ := b.exists_error_of_settled hb hr
  cases he'.symm.trans e

/-- When a callable returns, its payload may hold the task that the code has in hand. -/
theorem Inner.of_returns {x p q : ℕ} {u : Code V E} {r : Return V E} {y : Expected V E}
    (h : Inner ρ (s.setResult x y) p q) (hans : Answers ρ x u) (hu : u.Acts (.ret r))
    (hy : outputWrapper r = some y) : p ≠ x ∧ Inner ρ s p q ∨ p = x ∧ u.handle = some q := by
  by_cases e : p = x
  · subst e
    obtain ⟨⟨b, hb, hrole⟩, hresult⟩ := h
    simp only [State.setResult_heap, update_self, Option.some.injEq] at hresult
    exact .inr ⟨rfl, hans.handle hu (hresult ▸ hy) hrole⟩
  · exact .inl ⟨e, h.congr (by rw [State.setResult_heap, update_of_ne e])⟩

/-- A payload whose callable is not invoked holds no task. -/
theorem Inner.of_settled {x p q : ℕ} {R : Role V E} {r : Expected V E}
    (h : Inner ρ (s.setResult x r) p q) (hR : ρ[x]? = some R) (hfate : R.fate = .inl r) :
    p ≠ x ∧ Inner ρ s p q := by
  have hne : p ≠ x := by
    rintro rfl
    obtain ⟨⟨b, hb, hrole⟩, hresult⟩ := h
    simp only [State.setResult_heap, update_self, Option.some.injEq] at hresult
    cases hR.symm.trans hrole
    exact Role.not_task_of_settled (hresult ▸ hfate)
  exact ⟨hne, h.congr (by rw [State.setResult_heap, update_of_ne hne])⟩

/-- **A stand-in is below the task that it leads to**: it comes directly after the payload of the
task of a task, and it is not the task that this payload holds. -/
theorem Ordered.standIn_lt (ho : Ordered ρ s) (h : Labelled ρ main s) {p : Program V E}
    {hp : p.unwraps = true} {q source r : ℕ} (hlt : q < s.next) (hq : ρ[q]? = some (.outer p hp))
    (hsource : ρ[source]? = some (.task p)) (hnext : source = q + 1)
    (hr : (s.heap q).result = some (.ok (.task r))) : source < r := by
  have hqr : q < r := ho.inner q r ⟨⟨p, hp, hq⟩, hr⟩
  have hne : source ≠ r := by
    rintro rfl
    obtain ⟨p', hr', hunfolds⟩ := (h.fits hlt hq).result _ hr
    cases hsource.symm.trans hr'
    exact lt_irrefl _ hunfolds.cost
  omega

section

variable [DecidableEq T]

/-- Nobody goes on with the result of a payload whose callable is running. -/
theorem Settled.not_refers [Fintype T] (h : Settled s) {x : ℕ} (hx : s.Runnable x)
    (top : List (Frame (Code V E) V E)) {rest : List (Frame (Code V E) V E)}
    (hs : s.stack t = top ++ rest)
    {g : Frame (Code V E) V E} (hg : g ∈ top) (hgx : 1 ≤ g.owes (fun q => (s.heap q).work) x)
    {t' : T} {f : Frame (Code V E) V E} (hf : f ∈ update s.stack t rest t') : ¬ Refers f x := by
  have hnot := h.running_not_completed hx (t := t) (f := g)
    (by rw [hs]; exact List.mem_append_left _ hg) hgx
  have hmem : f ∈ s.stack t' := by
    rw [update_apply] at hf
    split at hf
    · rename_i e
      rw [e, hs]
      exact List.mem_append_right _ hf
    · exact hf
  have undone (hdone : s.Done x) : False := by
    rw [hdone.completed] at hnot
    cases hnot
  have hok := h.wellFormed.frames t' f hmem
  intro hr
  cases f with
  | run l parent => exact undone (hok.2 x hr)
  | doCompletion q =>
    have hzero := h.sole_owner hx hs hg hgx hf
    cases hr
    simp [Frame.owes] at hzero
  | runAll cs =>
    obtain ⟨c, hc, rfl⟩ := hr
    exact undone (hok c hc).2
  | _ => exact hr

namespace Ordered

variable {u : Code V E} {rest : List (Frame (Code V E) V E)}

/-! ### Steps of user code -/

/-- The payload whose callable returns may hold a task from now on, which is the one that the code
has in hand, and nobody goes on with its result yet. -/
theorem step_returns [Fintype T] (ho : Ordered ρ s) (h : Labelled ρ main s) (hset : Settled s)
    {x : ℕ} {r : Return V E} {y : Expected V E} (hs : s.stack t = .user u :: .doWork x :: rest)
    (hacts : u.Acts (.ret r)) (hy : outputWrapper r = some y) :
    Ordered ρ ((s.setResult x y).setStack t (.doCompletion x :: rest)) := by
  have hw := hset.wellFormed
  have hrun : s.Runnable x := hw.frames t (.doWork x) (by rw [hs]; simp)
  have hans : Answers ρ x u := by
    have hc := h.calls t
    rw [hs] at hc
    exact (List.isChain_cons_cons.1 hc).1
  have hcalls := ho.calls t
  rw [hs] at hcalls
  refine ho.next [.user u, .doWork x] [.doCompletion x] hw (.setPayload rfl rfl (.setResult _ _)) hs
    rfl ?_ ?_ (List.pairwise_singleton _ _) ?_ ?_ (by simp [Upward])
  · intro t' f hf p hp q hi
    rcases hi.of_returns hans hacts hy with ⟨-, hi⟩ | ⟨e, -⟩
    · exact hi
    · rw [e] at hp
      exact absurd hp (Settled.not_refers hset hrun [.user u, .doWork x] hs (.tail _ (.head _))
        (by simp [Frame.owes]) hf)
  · intro g _ _ htop f hf
    obtain rfl := List.mem_singleton.1 hf
    refine ⟨fun _ => False.elim, fun p hp q hi => ?_⟩
    obtain rfl : p = x := hp
    rcases hi.of_returns hans hacts hy with ⟨hne, -⟩ | ⟨-, hq⟩
    · exact absurd rfl hne
    · exact (htop (.user u) (.head _)).hands q hq
  · intro p q hi
    rcases hi.of_returns hans hacts hy with ⟨-, hi⟩ | ⟨e, hq⟩
    · exact .inl hi
    · subst e
      exact .inr (((List.pairwise_cons.1 hcalls).1 (.doWork p) (.head _)).hands q hq)
  · intro p q hq
    have same : ((s.setResult x y).heap p).taskRedirect = (s.heap p).taskRedirect :=
      field_update Payload.taskRedirect (by rfl) p
    exact .inl (same.symm.trans hq)

/-- Code that constructs a source has a task in hand that is newer than all others. -/
theorem step_constructs (ho : Ordered ρ s) (hw : WellFormed s) {k : ℕ → Code V E}
    (hs : s.stack t = .user u :: rest) (hacts : u.Acts (.source k)) :
    Ordered ρ (s.makeSource.setStack t (.user (k s.next) :: rest)) := by
  cases hacts with
  | @source p b as as' purpose r =>
    have hblank := hw.blank s.next le_rfl
    have heap (p : ℕ) : (s.makeSource.heap p).result = (s.heap p).result ∧
        (s.makeSource.heap p).taskRedirect = (s.heap p).taskRedirect := by
      rw [State.makeSource_heap, update_apply]
      split
      · rename_i e
        rw [e, hblank]
        exact ⟨rfl, rfl⟩
      · exact ⟨rfl, rfl⟩
    refine ho.move [_] [.user (.complete s.next r as' purpose)] hw
      (.alloc (Nat.le_succ _) fun p hp => update_of_ne (by omega) ..)
      (fun p _ hi => hi.congr (heap p).1) (fun p => (heap p).2) hs rfl (fun g hg hle _ => ?_)
      (List.pairwise_singleton _ _) (by simp [Upward])
    exact List.forall_mem_singleton.2 (.user fun q hq => Option.some.inj hq ▸ hle)

/-- Code that completes a source keeps it in hand, and a source holds no task of a task. -/
theorem step_completes (ho : Ordered ρ s) (h : Labelled ρ main s) (hw : WellFormed s) {q : ℕ}
    {r : Expected V E} {k : Except RuntimeError Unit → Code V E} (hs : s.stack t = .user u :: rest)
    (hacts : u.Acts (.complete q r k)) :
    Ordered ρ ((s.setResult q r).setStack t (.doCompletion q :: .completing k :: rest)) := by
  cases hacts with
  | complete _ _ as purpose =>
    have hfits : (Code.complete q r as purpose).Fits ρ main := h.top hs
    obtain ⟨b, hb⟩ : ∃ b, ρ[q]? = some (.task b) := by
      cases hfits with
      | makes hmakes => exact ⟨hmakes.choose, hmakes.choose_spec.1⟩
    refine ho.move [_] [.doCompletion q, .completing _] hw (.setPayload rfl rfl (.setResult _ _))
      (fun p _ hi => .of_setResult hb (by simp) hi) (field_update Payload.taskRedirect (by rfl)) hs
      rfl (fun g _ _ htop => ?_) ?_ (by simp [Upward])
    · refine List.forall_mem_cons.2 ⟨.doCompletion fun r => not_inner_of_task hb,
        List.forall_mem_singleton.2 ⟨fun q' hq' => ?_, fun _ => False.elim⟩⟩
      exact (htop _ (.head _)).hands q' hq'.choose_spec
    · simp [Above.zero, floor]

/-- What `make_task_factory` returns is newer than all tasks before it. -/
theorem step_made (ho : Ordered ρ s) (hw : WellFormed s) {work : Work (Code V E) V E}
    {unwrap : Bool} {toRun toReturn : ℕ} (hf : Factory s work unwrap s₁ toRun toReturn)
    (new : List (Frame (Code V E) V E)) (hs : s.stack t = .user u :: rest)
    (heap : s'.heap = s₁.heap) (next : s'.next = s₁.next)
    (stack : s'.stack = update s₁.stack t (new ++ rest))
    (above : ∀ n ≤ toReturn, Above ρ s n (.user u) → ∀ f ∈ new, Above ρ s' n f)
    (among : new.Pairwise fun f g => Above ρ s' (floor g) f)
    (upward : ∀ f ∈ new, Upward s f) : Ordered ρ s' := by
  refine ho.move [.user u] new hw ⟨next ▸ hf.extends.next_le, fun p hp => ?_⟩ (fun p _ hi => ?_)
    (fun p => ?_) hs (by rw [stack, hf.sameRest.stack]) (fun g _ hle htop => ?_) among upward
  · rw [heap]
    exact hf.extends.payload p hp
  · exact hi.congr (by rw [heap, Factory.result hw hf p])
  · rw [heap]
    exact congrFun (hf.redirect hw :) p
  · exact above _ (hle.trans (Factory.next_le_toReturn hf)) (htop _ (.head _))

/-- Code that makes a task goes on with that task in hand. -/
theorem step_makeTaskInline (ho : Ordered ρ s) (hw : WellFormed s) {cancelled unwrap : Bool}
    {callable : Code V E} {k : ℕ → Code V E} {toRun toReturn : ℕ} (hs : s.stack t = .user u :: rest)
    (hacts : u.Acts (.makeTask .inlineScheduler cancelled unwrap callable k))
    (hf : Factory s (.start cancelled callable) unwrap s₁ toRun toReturn) :
    Ordered ρ (s₁.setStack t (.run toRun none :: .user (k toReturn) :: rest)) := by
  cases hacts with
  | @makeTask p as as' purpose _ _ _ callable =>
    refine ho.step_made hw hf [.run toRun none, .user (.built toReturn as' purpose)] hs rfl rfl rfl
      (fun n hn _ => ?_) (by simp [Above.zero, floor]) (by simp [Upward])
    exact List.forall_mem_cons.2 ⟨.start, List.forall_mem_singleton.2
      (.user fun q hq => Option.some.inj hq ▸ hn)⟩

theorem step_makeTaskDispatcher (ho : Ordered ρ s) (hw : WellFormed s) {cancelled unwrap : Bool}
    {callable : Code V E} {k : ℕ → Code V E} {toRun toReturn : ℕ} (hs : s.stack t = .user u :: rest)
    (hacts : u.Acts (.makeTask .dispatcher cancelled unwrap callable k))
    (hf : Factory s (.start cancelled callable) unwrap s₁ toRun toReturn) :
    Ordered ρ ({ s₁ with queue := s₁.queue ++ [(toRun, none)] }.setStack t
      (.user (k toReturn) :: rest)) := by
  cases hacts with
  | @makeTask p as as' purpose _ _ _ callable =>
    refine ho.step_made hw hf [.user (.built toReturn as' purpose)] hs rfl rfl rfl
      (fun n hn _ => ?_) (List.pairwise_singleton _ _) (by simp [Upward])
    exact List.forall_mem_singleton.2 (.user fun q hq => Option.some.inj hq ▸ hn)

/-- Code that attaches a continuation hands over the task that it had in hand. -/
theorem step_thenDo (ho : Ordered ρ s) (hw : WellFormed s) {q : ℕ} {scheduler : Scheduler}
    {cancelled handlesExpected unwrap : Bool} {callable : Expected V E → Code V E}
    {k : ℕ → Code V E} {toRun toReturn : ℕ} (hs : s.stack t = .user u :: rest)
    (hacts : u.Acts (.thenDo q scheduler cancelled handlesExpected unwrap callable k))
    (hf : Factory s (.continuation handlesExpected cancelled callable) unwrap s₁ toRun toReturn) :
    Ordered ρ ({ s₁ with registered := toRun :: s₁.registered }.setStack t
      (.addContinuations q [⟨q, toRun, scheduler⟩] :: .user (k toReturn) :: rest)) := by
  obtain ⟨hu, u', rfl, hu'⟩ : u.handle = some q ∧ ∃ u', k toReturn = u' ∧
      ∀ r, u'.handle = some r → r = toReturn := by
    cases hacts with
    | thenDo => exact ⟨rfl, _, rfl, fun r hr => (Option.some.inj hr).symm⟩
    | observer => exact ⟨rfl, _, rfl, fun r hr => by cases hr⟩
  refine ho.step_made hw hf [.addContinuations q _, .user (k toReturn)] hs rfl rfl rfl
    (fun n hn htop => ?_) (by simp [Above.zero, floor]) (by simp [Upward])
  refine List.forall_mem_cons.2 ⟨⟨fun q' hq' => ?_, fun _ => False.elim⟩,
    List.forall_mem_singleton.2 (.user fun r hr => hu' r hr ▸ hn)⟩
  obtain rfl : q' = q := hq'
  exact htop.hands q' hu

/-! ### Steps of payloads that are run -/

/-- A payload whose callable is not invoked gets a result that is no task. -/
theorem step_decides [Fintype T] (ho : Ordered ρ s) (h : Labelled ρ main s) (hw : WellFormed s)
    {x : ℕ} {parent : Option ℕ} {r : Expected V E} (hs : s.stack t = .run x parent :: rest)
    (hinput : WorkInput s x parent s₁ (.inl r)) :
    Ordered ρ ((s₁.setResult x r).setStack t (.doCompletion x :: rest)) := by
  have he := (Step.decides hs hinput : Step Code.act s t () _).extends
  obtain ⟨R, hR, hfits, hfate⟩ := h.of_input hw hs hinput
  obtain ⟨heap, next⟩ := hinput.heap_next
  have inner (p q : ℕ) (hi : Inner ρ (s₁.setResult x r) p q) : p ≠ x ∧ Inner ρ s p q := by
    obtain ⟨hne, hi⟩ := hi.of_settled hR hfate
    exact ⟨hne, hi.congr (by rw [heap])⟩
  have redirects (p : ℕ) : ((s₁.setResult x r).heap p).taskRedirect = (s.heap p).taskRedirect := by
    rw [← heap]
    exact field_update Payload.taskRedirect (by rfl) p
  refine ho.move [_] [.doCompletion x] hw he (fun p q hi => (inner p q hi).2)
    redirects hs (by rw [← hinput.sameRest.stack]; rfl) (fun g _ _ _ => ?_)
    (List.pairwise_singleton _ _) (by simp [Upward])
  exact List.forall_mem_singleton.2 (.doCompletion fun q hi => (inner x q hi).1 rfl)

/-- A callable that is invoked has no task in hand. -/
theorem step_invokes [Fintype T] (ho : Ordered ρ s) (h : Labelled ρ main s) (hw : WellFormed s)
    {x : ℕ} {parent : Option ℕ} (hs : s.stack t = .run x parent :: rest)
    (hinput : WorkInput s x parent s₁ (.inr u)) :
    Ordered ρ ({ s₁ with invoked := x :: s₁.invoked }.setStack t
      (.user u :: .doWork x :: rest)) := by
  have he := (Step.invokes hs hinput : Step Code.act s t () _).extends
  obtain ⟨R, hR, hfits, hfate⟩ := h.of_input hw hs hinput
  obtain ⟨heap, next⟩ := hinput.heap_next
  have hu (n : ℕ) : Above ρ ({ s₁ with invoked := x :: s₁.invoked }.setStack t
      (.user u :: .doWork x :: rest)) n (.user u) :=
    .user fun q hq => by cases (Role.handle_of_invoked hfate).symm.trans hq
  refine ho.move [_] [.user u, .doWork x] hw he
    (fun p q hi => hi.congr (congrArg (fun h => (h p).result) heap))
    (fun p => congrArg (fun h => (h p).taskRedirect) heap) hs
    (by rw [← hinput.sameRest.stack]; rfl) (fun g _ _ _ => ?_) ?_
    (by simp [Upward])
  · exact List.forall_mem_cons.2
      ⟨hu _, List.forall_mem_singleton.2 ⟨fun _ => False.elim, fun _ => False.elim⟩⟩
  · simpa using hu _

/-- The stand-in gets an error, and it is no task of a task. -/
theorem step_unwrapsError (ho : Ordered ρ s) (h : Labelled ρ main s) (hw : WellFormed s)
    {l q source : ℕ} {e : E} (hs : s.stack t = .run l (some q) :: rest)
    (hwork : (s.heap l).work = some (.unwrap source)) :
    Ordered ρ (((s.read q l (.error e)).setResult source (.error e)).setStack t
      (.doCompletion source :: .unwrapping l :: rest)) := by
  have hl := h.role_link (hw.top hs).1.lt hwork
  obtain ⟨p, -, -, hsource, -⟩ := Reads.of_link (h.top hs) hl
  refine ho.move [_] [.doCompletion source, .unwrapping l] hw (.setPayload rfl rfl (.setResult _ _))
    (fun p _ hi => .of_setResult hsource (by simp) hi) (field_update Payload.taskRedirect (by rfl))
    hs rfl (fun g _ _ _ => ?_) (by simp [Above.zero, floor]) (by simp [Upward])
  exact List.forall_mem_cons.2 ⟨.doCompletion fun r => not_inner_of_task hsource,
    List.forall_mem_singleton.2 ⟨fun _ => False.elim, fun _ => False.elim⟩⟩

/-- The stand-in is to collapse into a task that is newer than itself. -/
theorem step_unwrapsTask (ho : Ordered ρ s) (h : Labelled ρ main s) (hw : WellFormed s)
    {l q source r : ℕ} (hs : s.stack t = .run l (some q) :: rest)
    (hwork : (s.heap l).work = some (.unwrap source))
    (hr : (s.heap q).result = some (.ok (.task r))) :
    Ordered ρ ((s.read q l (.ok (.task r))).setStack t
      (.collapseLeftIntoRight source r :: .unwrapping l :: rest)) := by
  have hl := h.role_link (hw.top hs).1.lt hwork
  obtain ⟨p, hp, hq, hsource, hnext⟩ := Reads.of_link (h.top hs) hl
  have hinner : Inner ρ s q r := ⟨⟨p, hp, hq⟩, hr⟩
  have hlt : source < r := ho.standIn_lt h ((hw.top hs).2 q rfl).lt hq hsource hnext hr
  refine ho.move [_] [.collapseLeftIntoRight source r, .unwrapping l] hw (.of_heap_eq rfl rfl)
    (fun _ _ => id) (fun _ => rfl) hs rfl (fun g _ _ htop => ?_) (by simp [Above.zero, floor])
    (List.forall_mem_cons.2 ⟨hlt, by simp [Upward]⟩)
  refine List.forall_mem_cons.2 ⟨⟨fun q' hq' => ?_, fun _ => False.elim⟩,
    List.forall_mem_singleton.2 ⟨fun _ => False.elim, fun _ => False.elim⟩⟩
  obtain rfl : q' = r := hq'
  exact (htop _ (.head _)).refers q rfl q' hinner

/-- The continuation of `task_factory` is completed, and it is no task of a task. -/
theorem step_unwrapped (ho : Ordered ρ s) (h : Labelled ρ main s) (hw : WellFormed s) {l : ℕ}
    (hs : s.stack t = .unwrapping l :: rest) :
    Ordered ρ ((s.setResult l (.ok .void)).setStack t (.doCompletion l :: rest)) := by
  obtain ⟨source, hl⟩ : ∃ source, ρ[l]? = some (.link source) := h.top hs
  refine ho.move [_] [.doCompletion l] hw (.setPayload rfl rfl (.setResult _ _))
    (fun p _ hi => .of_setResult hl (by simp) hi) (field_update Payload.taskRedirect (by rfl))
    hs rfl (fun g _ _ _ => ?_) (List.pairwise_singleton _ _) (by simp [Upward])
  refine List.forall_mem_singleton.2 (.doCompletion fun r hi => ?_)
  obtain ⟨b, hb, hrole⟩ := hi.1
  cases hl.symm.trans hrole

/-! ### Steps of continuations -/

/-- The continuations of a payload that is completed go on with its result. -/
theorem step_completesPayload (ho : Ordered ρ s) (hw : WellFormed s) {p : ℕ}
    (hs : s.stack t = .doCompletion p :: rest) (hdone : (s.heap p).completed = false) :
    Ordered ρ ((s.setPayload p ((s.heap p).cannibalized none)).setStack t
      (.runAll (s.heap p).continuation.span :: rest)) := by
  have inner (q r : ℕ) (hi : Inner ρ (s.setPayload p ((s.heap p).cannibalized none)) q r) :
      Inner ρ s q r := hi.congr (field_update Payload.result (by rfl) q)
  refine ho.next [.doCompletion p] [.runAll _] hw
    (.setPayload rfl rfl (.cannibalized hdone _)) hs rfl
    (fun _ _ _ q _ r => inner q r) (fun g _ _ htop => ?_) (List.pairwise_singleton _ _)
    (fun q r hi => .inl (inner q r hi)) (fun q r hq => ?_) (by simp [Upward])
  · refine List.forall_mem_singleton.2
      ((htop _ (.head _)).of_refers (fun _ => id) (fun q hq => ?_) inner)
    obtain ⟨c, hc', rfl⟩ := hq
    exact ((hw.payload p).stored c hc').2.1
  · simp only [State.setStack_heap, State.setPayload_heap, update_apply] at hq
    split at hq
    · cases hq
    · exact .inl hq

/-- The redirect that a collapse makes leads upwards. -/
theorem step_collapses (ho : Ordered ρ s) (hw : WellFormed s) {left right : ℕ}
    (hs : s.stack t = .collapseLeftIntoRight left right :: rest)
    (hdone : (s.heap left).completed = false) :
    Ordered ρ ((s.setPayload left ((s.heap left).cannibalized (some right))).setStack t
      (.addContinuations right
        ((s.heap left).continuation.span.map (·.reparent right)) :: rest)) := by
  have inner (q r : ℕ)
      (hi : Inner ρ (s.setPayload left ((s.heap left).cannibalized (some right))) q r) :
      Inner ρ s q r := hi.congr (field_update Payload.result (by rfl) q)
  refine ho.next [.collapseLeftIntoRight left right] [.addContinuations right _] hw
    (.setPayload rfl rfl (.cannibalized hdone _)) hs rfl (fun _ _ _ q _ r => inner q r)
    (fun g _ _ htop => ?_) (List.pairwise_singleton _ _) (fun q r hi => .inl (inner q r hi))
    (fun q r hq => ?_) (by simp [Upward])
  · exact List.forall_mem_singleton.2 ⟨(htop _ (.head _)).hands, fun _ => False.elim⟩
  · simp only [State.setStack_heap, State.setPayload_heap, update_apply] at hq
    split at hq
    · rename_i e
      cases hq
      have hlt : left < right := ho.upward t (.collapseLeftIntoRight left right) (by rw [hs]; simp)
      exact .inr (e ▸ hlt)
    · exact .inl hq

/-- The first of the continuations is handed to the inline scheduler. -/
theorem step_handsInline (ho : Ordered ρ s) (hw : WellFormed s) {c : Continuation}
    {cs : List Continuation} (hs : s.stack t = .runAll (c :: cs) :: rest) :
    Ordered ρ ({ s with handed := c.continuation :: s.handed }.setStack t
      (.run c.continuation (some c.parent) :: .runAll cs :: rest)) := by
  refine ho.move [.runAll (c :: cs)] [.run c.continuation (some c.parent), .runAll cs] hw
    (.of_heap_eq rfl rfl) (fun _ _ => id) (fun _ => rfl) hs rfl (fun g _ _ htop => ?_)
    (by simp [Above.zero, floor]) (by simp [Upward])
  refine List.forall_mem_cons.2 ⟨?_, List.forall_mem_singleton.2 ?_⟩
  · refine (htop _ (.head _)).of_refers (fun _ => id) (fun p hp => ?_) fun _ _ => id
    exact ⟨c, .head _, Option.some.inj hp⟩
  · refine (htop _ (.head _)).of_refers (fun _ => id) (fun p hp => ?_) fun _ _ => id
    obtain ⟨c', hc', hp⟩ := hp
    exact ⟨c', .tail _ hc', hp⟩

theorem step_handsDispatcher (ho : Ordered ρ s) (hw : WellFormed s) {c : Continuation}
    {cs : List Continuation} (hs : s.stack t = .runAll (c :: cs) :: rest) :
    Ordered ρ ({ s with
      handed := c.continuation :: s.handed
      queue := s.queue ++ [(c.continuation, some c.parent)] }.setStack t
        (.runAll cs :: rest)) := by
  refine ho.move [.runAll (c :: cs)] [.runAll cs] hw (.of_heap_eq rfl rfl) (fun _ _ => id)
    (fun _ => rfl) hs rfl (fun g _ _ htop => ?_) (List.pairwise_singleton _ _)
    (by simp [Upward])
  refine List.forall_mem_singleton.2
    ((htop _ (.head _)).of_refers (fun _ => id) (fun p hp => ?_) fun _ _ => id)
  obtain ⟨c', hc', hp⟩ := hp
  exact ⟨c', .tail _ hc', hp⟩

/-- The call that holds a mutex goes on with a payload above it. -/
theorem step_addsAlong (ho : Ordered ρ s) (hw : WellFormed s) {p q : ℕ} {cs : List Continuation}
    (hs : s.stack t = .addContinuations p cs :: rest) (hr : (s.heap p).taskRedirect = some q) :
    Ordered ρ (s.setStack t
      (.addContinuations q (cs.map (·.reparent q)) :: .holding p :: rest)) := by
  have hlt : p < q := ho.redirects p q hr
  have along (n : ℕ) (hn : n ≤ q) {s' : State T (Code V E) V E} :
      Above ρ s' n (.addContinuations q (cs.map (·.reparent q))) :=
    ⟨fun q' hq' => hq' ▸ hn, fun _ => False.elim⟩
  refine ho.move [_] [.addContinuations q _, .holding p] hw (.of_heap_eq rfl rfl) (fun _ _ => id)
    (fun _ => rfl) hs rfl (fun g _ _ htop => ?_) ?_ ?_
  · have hle := (htop _ (.head _)).hands p rfl
    exact List.forall_mem_cons.2 ⟨along _ (hle.trans hlt.le),
      List.forall_mem_singleton.2 ⟨fun _ => False.elim, fun _ => False.elim⟩⟩
  · exact List.pairwise_pair.2 (along (p + 1) hlt)
  · refine List.forall_mem_cons.2 ⟨trivial, List.forall_mem_singleton.2 ?_⟩
    show (s.heap p).taskRedirect ≠ none
    rw [hr]
    exact Option.some_ne_none q

/-- Continuations that come late read the result of the task of a program. -/
theorem step_addsLate (ho : Ordered ρ s) (h : Labelled ρ main s) (hw : WellFormed s) {p : ℕ}
    {cs : List Continuation} (hs : s.stack t = .addContinuations p cs :: rest) :
    Ordered ρ (s.setStack t (.runAll cs :: rest)) := by
  obtain ⟨⟨b, hb⟩, -⟩ := h.top hs
  refine ho.move [.addContinuations p cs] [.runAll cs] hw (.of_heap_eq rfl rfl) (fun _ _ => id)
    (fun _ => rfl) hs rfl (fun g _ _ htop => ?_) (List.pairwise_singleton _ _)
    (by simp [Upward])
  refine List.forall_mem_singleton.2 ⟨fun _ => False.elim, fun q hq r hi => ?_⟩
  obtain ⟨c, hc', rfl⟩ := hq
  rw [((hw.top hs).2 c hc').1] at hi
  exact absurd hi (not_inner_of_task hb)

/-- **Every step keeps the order.** -/
theorem step [Fintype T] (ho : Ordered ρ s) (h : Labelled ρ main s) (hset : Settled s)
    (hstep : Step Code.act s t () s') : Ordered ρ s' := by
  have hw := hset.wellFormed
  have he := hstep.extends
  cases hstep with
  | @idle i p parent hs =>
    exact ho.move [] [.run p parent] hw he (fun _ _ => id) (fun _ => rfl)
      (List.append_nil _ ▸ hs) rfl (fun _ hg => by cases hg) (List.pairwise_singleton _ _)
      (by simp [Upward])
  | mainReturns hs => exact ho.pop [_] hw he (fun _ _ => id) (fun _ => rfl) hs rfl
  | @returns u x rest r y hs ha hy => exact ho.step_returns h hset hs (ha ▸ u.acts) hy
  | @emits u rest r k hs ha =>
    have hacts : u.Acts (.emit r k) := ha ▸ u.acts
    cases hacts
    refine ho.move [_] [.user (.ret (.value .void))] hw he (fun _ _ => id) (fun _ => rfl) hs rfl
      (fun g _ _ _ => ?_) (List.pairwise_singleton _ _) (by simp [Upward])
    exact List.forall_mem_singleton.2 (.user fun _ hq => by cases hq)
  | @constructs u rest k hs ha => exact ho.step_constructs hw hs (ha ▸ u.acts)
  | @completes u rest q r k hs ha => exact ho.step_completes h hw hs (ha ▸ u.acts)
  | @makeTaskInline u _ _ _ _ _ _ _ _ hs ha hf =>
    exact ho.step_makeTaskInline hw hs (ha ▸ u.acts) hf
  | @makeTaskDispatcher u _ _ _ _ _ _ _ _ hs ha hf =>
    exact ho.step_makeTaskDispatcher hw hs (ha ▸ u.acts) hf
  | @thenDo u _ _ _ _ _ _ _ _ _ _ _ hs ha _ hf => exact ho.step_thenDo hw hs (ha ▸ u.acts) hf
  | ticksNothing _ ha | ticks _ ha => exact absurd ha (Code.act_ne_tick _ _ _)
  | @completed k rest hs =>
    refine ho.move [_] [.user (k (.ok ()))] hw he (fun _ _ => id) (fun _ => rfl)
      hs rfl (fun g _ _ htop => ?_) (List.pairwise_singleton _ _) (by simp [Upward])
    exact List.forall_mem_singleton.2 (.user fun q hq => (htop _ (.head _)).hands q ⟨_, hq⟩)
  | @refuses p k rest hs =>
    refine ho.move [.doCompletion p, .completing k] [.user (k (.error .completedTwice))] hw he
      (fun _ _ => id) (fun _ => rfl) hs rfl (fun g _ _ htop => ?_) (List.pairwise_singleton _ _)
      (by simp [Upward])
    exact List.forall_mem_singleton.2
      (.user fun q hq => (htop (.completing k) (by simp)).hands q ⟨_, hq⟩)
  | runBare hs hwork => exact absurd hwork (hw.top hs).1.work
  | decides hs hinput => exact ho.step_decides h hw hs hinput
  | invokes hs hinput => exact ho.step_invokes h hw hs hinput
  | unwrapsError hs hwork => exact ho.step_unwrapsError h hw hs hwork
  | unwrapsTask hs hwork hr => exact ho.step_unwrapsTask h hw hs hwork hr
  | unwrapped hs => exact ho.step_unwrapped h hw hs
  | completesPayload hs _ hdone => exact ho.step_completesPayload hw hs hdone
  | collapses hs _ hdone => exact ho.step_collapses hw hs hdone
  | ranAll hs | addsNothing hs | unlocks hs =>
    exact ho.pop [_] hw he (fun _ _ => id) (fun _ => rfl) hs rfl
  | stores hs =>
    exact ho.pop [_] hw he (fun q _ hi => hi.congr (field_update Payload.result (by rfl) q))
      (field_update Payload.taskRedirect (by rfl)) hs rfl
  | handsInline hs => exact ho.step_handsInline hw hs
  | handsDispatcher hs => exact ho.step_handsDispatcher hw hs
  | addsAlong hs _ _ hr => exact ho.step_addsAlong hw hs hr
  | addsLate hs => exact ho.step_addsLate h hw hs

end Ordered

end

end Arcana.Programs
