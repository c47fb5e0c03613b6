import Arcana.Programs.Tariff

/-!
# Every step is paid for

The account of a step: what it takes from the supply is what it does. Of the programs that
`make_task` and `then` work on only the values are known to the state, and two programs whose last
steps have the same work and read the same value are worth the same.

* `along`: what is left of the recursion of `add_continuations` along the redirects.
* `Labelled.made`: what `make_task_factory` made is the last step of the program with its work.
* `Labelled.worth_made` and `Labelled.pending_made`: what is made is worth what was to be made.
* `Labelled.supply_mono`: roles that are added later change no price.
* `Labelled.pays_constructs`, `Labelled.pays_makeTaskInline`, `Labelled.pays_makeTaskDispatcher`,
  `Labelled.pays_thenDo`, `Labelled.pays_unwrapsError` and `Labelled.pays_unwrapsTask`: the account
  of the steps that know the roles; that of the others is one of `Prices`.
* `Step.pays`: every step is paid for, and those that cost nothing come to an end.
-/

namespace Arcana.Programs

open Function Tasks

universe u v

variable {T : Type*} {V : Type u} {E : Type v} [ErrorTraits E]

/-! ## What is made -/

theorem Outcome.code_ne_observe {unwrap : Bool} (o : Outcome V E unwrap) (x : Expected V E) :
    o.code ≠ .observe x := by
  intro h
  cases o <;> cases h

/-- The work that observes the result. -/
theorem Role.eq_observer {R : Role V E} (h : R.work = some (.continuation true false .observe)) :
    ∃ p, R = .observer p := by
  have hprogram (p : Program V E) : p.work ≠ some (.continuation true false .observe) := by
    intro hp
    cases p with
    | taskFromResult | taskFromError | makeTask => cases hp
    | thenDo p scheduler cancelled handlesExpected unwrap callable =>
      simp only [Program.work, Option.some.injEq, Work.continuation.injEq] at hp
      exact (callable (.ok .void)).code_ne_observe _ (congrFun hp.2.2 (.ok .void))
  cases R with
  | task p => exact absurd (Option.ite_none_left_eq_some.1 h).2 (hprogram p)
  | outer p => exact absurd h (hprogram p)
  | link => cases h
  | observer p => exact ⟨p, rfl⟩

section

variable {ρ ρ' : List (Role V E)} {main : Program V E} {s s' s₁ : State T (Code V E) V E} {t : T}

/-- The continuation that `task_factory` puts on the payload to run. -/
theorem Labelled.link_made (h : Labelled ρ main s') {work : Work (Code V E) V E}
    {toRun toReturn : ℕ} (hf : Factory s work true s₁ toRun toReturn) (heap : s'.heap = s₁.heap)
    (next : s'.next = s₁.next) : ρ[s.next + 2]? = some (.link (s.next + 1)) := by
  cases hf with
  | unwrap =>
    refine h.role_link (by simp only [next]; omega) ?_
    rw [heap]
    simp

/-- The roles of what `make_task_factory` made: the task to return is that of a program with the
work, and the payload to run has the last step of this program. -/
theorem Labelled.made (h : Labelled ρ main s') {work : Work (Code V E) V E} {unwrap : Bool}
    {toRun toReturn : ℕ} (hf : Factory s work unwrap s₁ toRun toReturn) (heap : s'.heap = s₁.heap)
    (next : s'.next = s₁.next) {b : Program V E} (hb : ρ[toReturn]? = some (.task b)) :
    b.work = some work ∧ ∃ R, ρ[toRun]? = some R ∧ (R = .task b ∨ ∃ hb, R = .outer b hb) := by
  cases hf with
  | plain =>
    have hfits := h.fits (by simp [next]) hb
    have hwork : (Role.task b).work = some work := by
      rw [← hfits.work, heap]
      simp
    exact ⟨(Option.ite_none_left_eq_some.1 hwork).2, _, hb, .inl rfl⟩
  | unwrap =>
    have hlink : ρ[s.next + 2]? = some (.link (s.next + 1)) :=
      h.link_made (Factory.unwrap : Factory s work true _ _ _) heap next
    obtain ⟨R, hR, hfits⟩ := h.payload s.next (by simp only [next]; omega)
    have hreads : Reads ρ (s.next + 2) s.next :=
      hfits.stored ⟨s.next, s.next + 2, .inlineScheduler⟩ (by rw [heap]; simp)
    cases hreads with
    | step hx ha =>
      cases hlink.symm.trans hx
      cases ha
    | link hl hq hs =>
      cases hlink.symm.trans hl
      cases hb.symm.trans hs
      cases hR.symm.trans hq
      have hwork := hfits.work
      rw [heap] at hwork
      simp at hwork
      exact ⟨hwork.symm, _, hR, .inr ⟨_, rfl⟩⟩

variable (r : Tariff)

/-- What `make_task_factory` made is worth what the program is whose last step it is. -/
theorem Labelled.prices_made (h : Labelled ρ main s') {work : Work (Code V E) V E} {unwrap : Bool}
    {toRun toReturn : ℕ} (hf : Factory s work unwrap s₁ toRun toReturn) (heap : s'.heap = s₁.heap)
    (next : s'.next = s₁.next) {b b₀ : Program V E} (hb : ρ[toReturn]? = some (.task b))
    (hagree : b.Agrees b₀) :
    r.run ρ toRun = r.last b₀ ∧ ∀ as, r.pending ρ toReturn as = r.attached b₀ as := by
  obtain ⟨-, R, hR, hrole⟩ := h.made hf heap next hb
  have hlast : r.role R = r.last b := by
    rcases hrole with rfl | ⟨hb, rfl⟩ <;> rfl
  refine ⟨?_, fun as => ?_⟩
  · rw [r.run_of_role hR, hlast, r.last_congr hagree]
  · rw [r.pending_of_task hb, r.attached_congr hagree.eval]

/-- Code that goes on with a task. -/
theorem CallFits.exists_task {q : ℕ} {as : List (Attachment V E)} {purpose : Purpose}
    (h : CallFits ρ main (.user (.built q as purpose))) : ∃ b, ρ[q]? = some (.task b) := by
  cases h with
  | makes hmakes => exact ⟨hmakes.choose, hmakes.choose_spec.1⟩

/-- What a call of `make_task` makes, and what is attached to it. -/
theorem Labelled.worth_made (h : Labelled ρ main s') {cancelled unwrap : Bool}
    {callable : Outcome V E unwrap} {toRun toReturn : ℕ}
    (hf : Factory s (.start cancelled callable.code) unwrap s₁ toRun toReturn)
    (heap : s'.heap = s₁.heap) (next : s'.next = s₁.next) {b : Program V E}
    (hb : ρ[toReturn]? = some (.task b)) {scheduler : Scheduler} {p : Program V E}
    {as as' : List (Attachment V E)}
    (hre : p.Reassociates as (.makeTask scheduler cancelled unwrap callable) as') :
    r.worth p + r.attached p as =
      11 * r.step + r.run ρ toRun + r.pending ρ toReturn as' := by
  obtain ⟨hwork, -⟩ := h.made hf heap next hb
  have hagree : b.Agrees (.makeTask scheduler cancelled unwrap callable) :=
    Program.agrees_of_start hwork rfl
  obtain ⟨hrun, hpending⟩ := h.prices_made r hf heap next hb hagree
  rw [r.worth_add_attached hre, r.worth_makeTask, hrun, hpending]

/-- What a call of `then` makes, and what is attached to it. -/
theorem Labelled.pending_made (h : Labelled ρ main s') {a : Attachment V E} {toRun toReturn : ℕ}
    (hf : Factory s (.continuation a.handlesExpected a.cancelled fun x => (a.callable x).code)
      a.unwrap s₁ toRun toReturn)
    (heap : s'.heap = s₁.heap) (next : s'.next = s₁.next) {b b₀ : Program V E}
    (hb : ρ[toReturn]? = some (.task b)) {p : ℕ} (hb₀ : ρ[p]? = some (.task b₀))
    (hreads : Reads ρ toRun p) (as : List (Attachment V E)) :
    r.pending ρ p (a :: as) =
      14 * r.step + r.run ρ toRun + r.pending ρ toReturn as := by
  obtain ⟨hwork, R, hR, hrole⟩ := h.made hf heap next hb
  have hagree : b.Agrees (b₀.andThen a) := by
    cases hreads with
    | @step _ p' _ hx hante hp hrep =>
      cases hR.symm.trans hx
      cases hp.symm.trans hb₀
      have hante' : b.antecedent = some p' := by
        rcases hrole with rfl | ⟨hb, rfl⟩ <;> exact hante
      exact Program.agrees_of_continuation hwork hante' rfl rfl hrep.eval.symm
    | link hx =>
      cases hR.symm.trans hx
      rcases hrole with e | ⟨hb, e⟩ <;> cases e
  obtain ⟨hrun, hpending⟩ := h.prices_made r hf heap next hb hagree
  rw [r.pending_of_task hb₀, r.attached_cons, hrun, hpending]

variable [Fintype T]

/-- Allocation makes something to do only when `task_factory` puts a continuation on the payload. -/
theorem Labelled.supply_made (h : Labelled ρ main s') {work : Work (Code V E) V E} {unwrap : Bool}
    {toRun toReturn : ℕ} (hf : Factory s work unwrap s₁ toRun toReturn) (heap : s'.heap = s₁.heap)
    (next : s'.next = s₁.next) :
    s₁.weight (r.prices ρ).supply =
      s.weight (r.prices ρ).supply + if unwrap then 9 * r.step else 0 := by
  have hlt (p : ℕ) (hp : p < s.next) : s₁.heap p = s.heap p := hf.heap_of_lt hp
  cases unwrap with
  | true =>
    have hlink : r.run ρ (s.next + 2) = 7 * r.step := r.run_of_role (h.link_made hf heap next)
    cases hf with
    | unwrap =>
      rw [State.weight_alloc _ 3 rfl hlt rfl rfl]
      simp [Finset.sum_range_succ, update_apply, hlink]
      omega
  | false =>
    cases hf with
    | plain =>
      rw [State.weight_alloc _ 1 rfl hlt rfl rfl]
      simp

/-! ## Roles that are added later -/

theorem Tariff.run_mono (hρ : ρ <+: ρ') {x : ℕ} (hx : ∃ R, ρ[x]? = some R) :
    r.run ρ' x = r.run ρ x := by
  obtain ⟨R, hR⟩ := hx
  rw [r.run_of_role hR, r.run_of_role (role_mono hρ hR)]

theorem Tariff.runAll_mono (hρ : ρ <+: ρ') {cs : List Continuation}
    (hcs : ∀ c ∈ cs, ∃ R, ρ[c.continuation]? = some R) :
    (r.prices ρ').runAll cs = (r.prices ρ).runAll cs :=
  Prices.runAll_congr rfl fun c hc => r.run_mono hρ (hcs c hc)

theorem Tariff.code_mono (hρ : ρ <+: ρ') {u : Code V E} (hu : u.Fits ρ main) :
    r.code ρ' u = r.code ρ u := by
  have pending {q : ℕ} {b : Program V E} (hb : ρ[q]? = some (.task b))
    (as : List (Attachment V E)) :
      r.pending ρ' q as = r.pending ρ q as := by
    rw [r.pending_of_task hb, r.pending_of_task (role_mono hρ hb)]
  cases hu with
  | @makes u p hu =>
    cases u with
    | complete q x as purpose =>
      obtain ⟨b, hb, -⟩ := hu
      simp only [code, pending hb]
    | built q as purpose =>
      obtain ⟨b, hb, -⟩ := hu
      simp only [code, pending hb]
    | _ => rfl
  | ret | observe => rfl

omit [Fintype T] in
theorem Tariff.frame_mono (hρ : ρ <+: ρ') (h : Labelled ρ main s) (hw : WellFormed s)
    {f : Frame (Code V E) V E} (hf : f ∈ s.stack t) :
    (r.prices ρ').frame f = (r.prices ρ).frame f := by
  have hok := hw.frames t f hf
  have hfits := h.frames t f hf
  have role {x : ℕ} (hx : s.Runnable x) : ∃ R, ρ[x]? = some R :=
    (h.payload x hx.lt).imp fun _ => And.left
  cases f with
  | user u => exact r.code_mono hρ hfits
  | completing k => exact congrArg (r.step + ·) (r.code_mono hρ (hfits _))
  | run x => exact r.run_mono hρ (role hok.1)
  | runAll cs => exact congrArg (r.step + ·) (r.runAll_mono hρ fun c hc => role (hok c hc).1)
  | addContinuations p cs =>
    exact congrArg (2 * r.step + ·) (r.runAll_mono hρ fun c hc => role (hok.2 c hc).2)
  | _ => rfl

/-- Roles that are added later change no price. -/
theorem Labelled.supply_mono (hρ : ρ <+: ρ') (h : Labelled ρ main s)
    (hw : WellFormed s) : s.weight (r.prices ρ').supply = s.weight (r.prices ρ).supply := by
  have role {x : ℕ} (hx : s.Runnable x) : ∃ R, ρ[x]? = some R :=
    (h.payload x hx.lt).imp fun _ => And.left
  refine State.weight_congr (fun p _ => ?_) (fun t f hf => r.frame_mono hρ h hw hf) fun c hc => ?_
  · exact congrArg (· + _) (r.runAll_mono hρ fun c hc => role ((hw.payload p).stored c hc).2.2)
  · exact congrArg (r.step + ·) (r.run_mono hρ (role (hw.queue c hc).1))

/-! ## The account of a step -/

/-- What is left to do on the way along the redirects, when `n` payloads have been allocated. -/
def alongFrame (n : ℕ) : Frame (Code V E) V E → ℕ
  | .addContinuations p _ => 2 * (n - p)
  | .holding _ => 1
  | _ => 0

/-- The weight of the recursion of `add_continuations`. -/
@[simps] def along (n : ℕ) : Weight (Code V E) V E where
  payload _ _ := 0
  frame f := alongFrame n f
  callable _ := 0

variable [DecidableEq T] {u : Code V E} {rest : List (Frame (Code V E) V E)}

/-- Code that constructs a source pays for what will complete it. The role of the source may be
another program than the one that the code has in mind, but it is one of the same value. -/
theorem Labelled.pays_constructs {k : ℕ → Code V E}
    (h' : Labelled ρ main (s.makeSource.setStack t (.user (k s.next) :: rest)))
    (hs : s.stack t = .user u :: rest) (hacts : u.Acts (.source k)) :
    (r.prices ρ).Pays 1 s (s.makeSource.setStack t (.user (k s.next) :: rest)) := by
  refine (r.prices ρ).pays_constructs hs ?_
  cases hacts with
  | @source p b as as' purpose x hre hfate hwork =>
    have hfits : CallFits ρ main (.user (.complete s.next x as' purpose)) :=
      h'.frames t _ (by simp)
    obtain ⟨b', hb', hfate'⟩ : ∃ b', ρ[s.next]? = some (.task b') ∧ b'.fate = .inl x := by
      cases hfits with
      | makes hmakes =>
        obtain ⟨b', hb', hfate', -⟩ := hmakes
        exact ⟨b', hb', hfate'⟩
    have heval : b'.eval = b.eval := by
      rw [b'.eval_of_settled hfate', b.eval_of_settled hfate]
    have hpending : r.pending ρ s.next as' = r.attached b as' := by
      rw [r.pending_of_task hb', r.attached_congr heval]
    have hworth := r.worth_add_attached hre
    rw [r.worth_of_bare hwork] at hworth
    simp [Tariff.code, hpending]
    omega

/-- Code that makes a task pays for its run, which the thread makes at once. -/
theorem Labelled.pays_makeTaskInline {cancelled unwrap : Bool} {callable : Code V E}
    {k : ℕ → Code V E} {toRun toReturn : ℕ}
    (h' : Labelled ρ main (s₁.setStack t (.run toRun none :: .user (k toReturn) :: rest)))
    (hs : s.stack t = .user u :: rest)
    (hacts : u.Acts (.makeTask .inlineScheduler cancelled unwrap callable k))
    (hf : Factory s (.start cancelled callable) unwrap s₁ toRun toReturn) :
    (r.prices ρ).Pays (if unwrap then 2 else 11) s
      (s₁.setStack t (.run toRun none :: .user (k toReturn) :: rest)) := by
  refine (r.prices ρ).pays_makeTaskInline hs hf (h'.supply_made r hf rfl rfl) ?_
  cases hacts with
  | @makeTask p as as' purpose _ _ _ callable hre =>
    obtain ⟨b, hb⟩ := CallFits.exists_task
      (h'.frames t (.user (.built toReturn as' purpose)) (by simp))
    have hworth := h'.worth_made r hf rfl rfl hb hre
    simp [Tariff.code]
    split_ifs <;> omega

/-- Code that makes a task pays for its run from the queue. -/
theorem Labelled.pays_makeTaskDispatcher {cancelled unwrap : Bool} {callable : Code V E}
    {k : ℕ → Code V E} {toRun toReturn : ℕ}
    (h' : Labelled ρ main ({ s₁ with queue := s₁.queue ++ [(toRun, none)] }.setStack t
      (.user (k toReturn) :: rest)))
    (hs : s.stack t = .user u :: rest)
    (hacts : u.Acts (.makeTask .dispatcher cancelled unwrap callable k))
    (hf : Factory s (.start cancelled callable) unwrap s₁ toRun toReturn) :
    (r.prices ρ).Pays (if unwrap then 1 else 10) s
      ({ s₁ with queue := s₁.queue ++ [(toRun, none)] }.setStack t
        (.user (k toReturn) :: rest)) := by
  refine (r.prices ρ).pays_makeTaskDispatcher hs hf (h'.supply_made r hf rfl rfl) ?_
  cases hacts with
  | @makeTask p as as' purpose _ _ _ callable hre =>
    obtain ⟨b, hb⟩ := CallFits.exists_task
      (h'.frames t (.user (.built toReturn as' purpose)) (by simp))
    have hworth := h'.worth_made r hf rfl rfl hb hre
    simp [Tariff.code]
    split_ifs <;> omega

/-- Code that attaches a continuation pays for its run. -/
theorem Labelled.pays_thenDo {p : ℕ} {scheduler : Scheduler}
    {cancelled handlesExpected unwrap : Bool}
    {callable : Expected V E → Code V E} {k : ℕ → Code V E} {toRun toReturn : ℕ}
    (h : Labelled ρ main s)
    (h' : Labelled ρ main ({ s₁ with registered := toRun :: s₁.registered }.setStack t
      (.addContinuations p [⟨p, toRun, scheduler⟩] :: .user (k toReturn) :: rest)))
    (hs : s.stack t = .user u :: rest)
    (hacts : u.Acts (.thenDo p scheduler cancelled handlesExpected unwrap callable k))
    (hf : Factory s (.continuation handlesExpected cancelled callable) unwrap s₁ toRun toReturn) :
    ∃ n, 1 ≤ n ∧ (r.prices ρ).Pays n s
      ({ s₁ with registered := toRun :: s₁.registered }.setStack t
        (.addContinuations p [⟨p, toRun, scheduler⟩] :: .user (k toReturn) :: rest)) := by
  have hmade := h'.supply_made r hf rfl rfl
  have hreads : Reads ρ toRun p := by
    obtain ⟨-, hadds⟩ : CallFits ρ main (.addContinuations p [⟨p, toRun, scheduler⟩]) :=
      h'.frames t _ (by simp)
    exact hadds ⟨p, toRun, scheduler⟩ (.head _)
  cases hacts with
  | thenDo _ a as purpose =>
    obtain ⟨b₀, hb₀⟩ := CallFits.exists_task (h.top hs)
    obtain ⟨b, hb⟩ := CallFits.exists_task
      (h'.frames t (.user (.built toReturn as purpose)) (by simp))
    have hpending := h'.pending_made r hf rfl rfl hb hb₀ hreads as
    refine ⟨if a.unwrap then 1 else 10, by split_ifs <;> simp,
      (r.prices ρ).pays_thenDo hs hf hmade ?_⟩
    simp [Tariff.code, hpending]
    split_ifs <;> omega
  | observer _ scheduler =>
    cases hf with
    | plain =>
      obtain ⟨R, hR, hfits⟩ := h'.payload s.next (by simp)
      obtain ⟨b, rfl⟩ : ∃ b, R = .observer b := Role.eq_observer (by rw [← hfits.work]; simp)
      have hrun := r.run_of_role hR
      refine ⟨1, le_rfl, (r.prices ρ).pays_thenDo hs .plain hmade ?_⟩
      simp [Tariff.code, hrun, Tariff.role, Tariff.purpose, Tariff.pending_nil]
      omega

/-- The continuation of `task_factory` finds an error: it makes the task to return complete with
it. -/
theorem Labelled.pays_unwrapsError (h : Labelled ρ main s) {l q source : ℕ} {e : E}
    (hl : l < s.next) (hs : s.stack t = .run l (some q) :: rest)
    (hwork : (s.heap l).work = some (.unwrap source)) :
    (r.prices ρ).Pays 2 s (((s.read q l (.error e)).setResult source (.error e)).setStack t
      (.doCompletion source :: .unwrapping l :: rest)) := by
  have hrun : r.run ρ l = 7 * r.step := r.run_of_role (h.role_link hl hwork)
  refine State.Shifts.eq (State.weight_rewrite _ rfl rfl rfl rfl rfl) ?_
  simp [hs, Prices.frame, Tariff.spent, hrun]
  omega

/-- The continuation of `task_factory` finds a task: the task to return collapses into it. -/
theorem Labelled.pays_unwrapsTask (h : Labelled ρ main s) {l q source x : ℕ}
    (hl : l < s.next) (hs : s.stack t = .run l (some q) :: rest)
    (hwork : (s.heap l).work = some (.unwrap source)) :
    (r.prices ρ).Pays 1 s ((s.read q l (.ok (.task x))).setStack t
      (.collapseLeftIntoRight source x :: .unwrapping l :: rest)) := by
  have hrun : r.run ρ l = 7 * r.step := r.run_of_role (h.role_link hl hwork)
  refine State.Shifts.eq (State.weight_move _ rfl rfl rfl rfl) ?_
  simp [hs, Prices.frame, Tariff.spent, hrun]
  omega

omit [DecidableEq T] [Fintype T] in
/-- A recursion along the redirects comes closer to the payloads that were allocated last. -/
theorem along_addsAlong {n p q : ℕ} {cs ds : List Continuation} (hlt : p < q) (hn : q < n) :
    (along n : Weight (Code V E) V E).frames (.addContinuations q ds :: .holding p :: rest) <
      (along n).frames (.addContinuations p cs :: rest) := by
  simp [alongFrame]
  omega

/-- **Every step is paid for**: it takes from the supply what it does. Only the steps along the
redirects are free, and they come closer to the end of them. -/
theorem Step.pays (h : Labelled ρ main s) (h' : Labelled ρ main s') (ho : Ordered ρ s)
    (hset : Settled s) (hc : Claimed s) (hstep : Step Code.act s t () s') :
    ∃ n, (r.prices ρ).Pays n s s' ∧
      (n = 0 → s'.weight (along s'.next) < s.weight (along s.next)) := by
  have hw := hset.wellFormed
  have paid {n : ℕ} (hn : 1 ≤ n) (hpays : (r.prices ρ).Pays n s s') : ∃ n,
      (r.prices ρ).Pays n s s' ∧ (n = 0 → s'.weight (along s'.next) < s.weight (along s.next)) :=
    ⟨n, hpays, fun hzero => by omega⟩
  cases hstep with
  | idle hs hi => exact paid le_rfl ((r.prices ρ).pays_idle hs hi)
  | ticksNothing _ ha | ticks _ ha => exact absurd ha (Code.act_ne_tick _ _ _)
  | @mainReturns u x hs ha =>
    exact paid le_rfl ((r.prices ρ).pays_mainReturns hs (r.code_of_returns (ha ▸ u.acts)))
  | @returns u x rest y z hs ha =>
    exact paid le_rfl ((r.prices ρ).pays_returns hs (r.code_of_returns (ha ▸ u.acts)))
  | @emits u rest x k hs ha =>
    have hacts : u.Acts (.emit x k) := ha ▸ u.acts
    cases hacts
    refine paid le_rfl ((r.prices ρ).pays_emits hs ?_)
    simp [Tariff.code]
    omega
  | @constructs u rest k hs ha => exact paid le_rfl (h'.pays_constructs r hs (ha ▸ u.acts))
  | @completes u rest p x k hs ha =>
    have hacts : u.Acts (.complete p x k) := ha ▸ u.acts
    cases hacts
    refine paid le_rfl ((r.prices ρ).pays_completes hs ?_)
    simp [Tariff.code]
    omega
  | @makeTaskInline u rest cancelled unwrap callable k s₁ toRun toReturn hs ha hf =>
    exact paid (by split_ifs <;> simp) (h'.pays_makeTaskInline r hs (ha ▸ u.acts) hf)
  | @makeTaskDispatcher u rest cancelled unwrap callable k s₁ toRun toReturn hs ha hf =>
    exact paid (by split_ifs <;> simp) (h'.pays_makeTaskDispatcher r hs (ha ▸ u.acts) hf)
  | @thenDo u rest p scheduler cancelled handlesExpected unwrap callable k s₁ toRun toReturn hs ha _
      hf =>
    obtain ⟨n, hn, hpays⟩ := h.pays_thenDo r h' hs (ha ▸ u.acts) hf
    exact paid hn hpays
  | completed hs => exact paid le_rfl ((r.prices ρ).pays_completed hs)
  | runBare hs hwork => exact absurd hwork (hw.top hs).1.work
  | @decides x parent rest s₁ y hs hinput =>
    obtain ⟨R, hR, hfits, hfate⟩ := h.of_input hw hs hinput
    have hrole : r.role R = 3 * r.step := r.role_of_settled hfate (hfits.work ▸ hinput.standIn)
    exact paid le_rfl ((r.prices ρ).pays_decides hs hinput (by simp [r.run_of_role hR, hrole]))
  | @invokes x parent rest s₁ u hs hinput =>
    obtain ⟨R, hR, -, hfate⟩ := h.of_input hw hs hinput
    have hrole : r.role R = 3 * r.step + r.call + r.code ρ u := r.role_of_invoked hfate
    exact paid le_rfl ((r.prices ρ).pays_invokes hs hinput (by simp [r.run_of_role hR, hrole]))
  | unwrapsError hs hwork =>
    exact paid (by decide) (h.pays_unwrapsError r (hw.top hs).1.lt hs hwork)
  | unwrapsTask hs hwork => exact paid le_rfl (h.pays_unwrapsTask r (hw.top hs).1.lt hs hwork)
  | unwrapped hs => exact paid le_rfl ((r.prices ρ).pays_unwrapped hs)
  | completesPayload hs _ hdone =>
    exact paid le_rfl ((r.prices ρ).pays_completesPayload (hw.top hs).1 hs hdone)
  | collapses hs _ hdone =>
    exact paid le_rfl ((r.prices ρ).pays_collapses (hw.top hs).1 hs hdone)
  | refuses hs _ hdone =>
    rw [hc.not_refused hset hs] at hdone
    cases hdone
  | ranAll hs => exact paid le_rfl ((r.prices ρ).pays_ranAll hs)
  | handsInline hs => exact paid (by decide) ((r.prices ρ).pays_handsInline hs)
  | handsDispatcher hs => exact paid le_rfl ((r.prices ρ).pays_handsDispatcher hs)
  | addsNothing hs => exact paid (by decide) ((r.prices ρ).pays_addsNothing hs)
  | addsLate hs => exact paid le_rfl ((r.prices ρ).pays_addsLate hs)
  | stores hs => exact paid (by decide) ((r.prices ρ).pays_stores (hw.top hs).1 hs)
  | @addsAlong p q cs rest hs _ _ hr =>
    refine ⟨0, (r.prices ρ).pays_addsAlong hs, fun _ => ?_⟩
    refine State.Shifts.lt (State.weight_move _ rfl rfl rfl rfl) ?_
    rw [hs]
    exact along_addsAlong (ho.redirects p q hr) ((hw.payload p).redirect q hr).2
  | unlocks hs =>
    refine ⟨0, (r.prices ρ).pays_unlocks hs, fun _ => ?_⟩
    refine State.Shifts.lt (State.weight_move _ rfl rfl rfl rfl) ?_
    simp [hs, alongFrame]

end

end Arcana.Programs
