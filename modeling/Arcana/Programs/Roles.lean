import Arcana.Programs.Code
import Arcana.Tasks.Invariant

/-!
# The roles of payloads

What a payload is for. When code builds a program, every payload it makes gets a role (`Role`): it
is the payload of the task of a program, the payload of a task of a task, the continuation that
`task_factory` puts on such a payload, or the continuation that observes the result. The roles are a
list, in the order of allocation, that only grows, as a store typing does; what is said in terms of
the roles stays true when the list gets longer.

A role fixes the work of its payload and what its result has to be. `Labelled` says that every
payload fits its role, that every continuation is where it reads the result of its antecedent, or of
a program that stands for it, and that every call under way does what its place asks for.

* `Role` are the roles, with `Role.work`, `Role.antecedent`, `Role.fate` and `Role.Holds` for what
  they say.
* `Reads` says that a continuation can read the result of a payload.
* `Role.Fits`, `Code.Fits`, `CallFits` and `Fitting` are what is asked of payloads, user code, and
  calls.
* `Labelled` collects these. Each of them stays true when the list of roles gets longer
  (`Role.Fits.mono` and so on).
* `Labelled.fate` says that a work comes to what its role says.
-/

namespace Arcana.Programs

open Function Tasks

universe u v

variable {T : Type*} {V : Type u} {E : Type v} [ErrorTraits E]

/-- What a payload is for. -/
inductive Role (V : Type u) (E : Type v) [ErrorTraits E] : Type (max u v)
  /-- The payload of the task of `p`. When the callable of the last step returns a task, this is the
  stand-in that `task_factory` makes. -/
  | task (p : Program V E)
  /-- The payload that runs the last step of `p`, whose callable returns a task. -/
  | outer (p : Program V E) (unwraps : p.unwraps = true)
  /-- The continuation of `task_factory`, with its stand-in. -/
  | link (source : ℕ)
  /-- The continuation that observes the result of `p`. -/
  | observer (p : Program V E)

/-- The work of a payload with the role. -/
def Role.work : Role V E → Option (Work (Code V E) V E)
  | task p => if p.unwraps then none else p.work
  | outer p _ => p.work
  | link source => some (.unwrap source)
  | observer _ => some (.continuation true false .observe)

/-- The program whose result a work with the role reads. -/
def Role.antecedent : Role V E → Option (Program V E)
  | task p => p.antecedent
  | outer p _ => p.antecedent
  | link _ => none
  | observer p => some p

/-- What a work with the role comes to. -/
def Role.fate : Role V E → Expected V E ⊕ Code V E
  | task p => p.fate.map id Outcome.code
  | outer p _ => p.fate.map id Outcome.code
  | link _ => .inl (.ok .void)
  | observer p => .inr (.observe p.eval)

section roles

variable (ρ : List (Role V E))

/-- The result that a payload with the role may hold. A task of a task holds the error of its
program, or a task that the program comes down to. -/
def Role.Holds : Role V E → Expected V E → Prop
  | task p, r => r = p.eval
  | outer p _, .error e => p.eval = .error e
  | outer p _, .ok (.task q) => ∃ p', ρ[q]? = some (.task p') ∧ p'.Unfolds p
  | outer _ _, .ok _ => False
  | link _, _ => True
  | observer _, _ => True

/-- The continuation `x` can read the result of `q`: `q` is the task of a program that stands for
its antecedent; or `x` is put by `task_factory` on the task of a task whose stand-in it has. -/
inductive Reads : ℕ → ℕ → Prop
  | step {x q : ℕ} {R : Role V E} {p p' : Program V E} : ρ[x]? = some R → R.antecedent = some p →
      ρ[q]? = some (.task p') → p'.Replaces p → Reads x q
  | link {l q source : ℕ} {p : Program V E} {hp : p.unwraps = true} :
      ρ[l]? = some (.link source) → ρ[q]? = some (.outer p hp) → ρ[source]? = some (.task p) →
      source = q + 1 → Reads l q

/-- `x` is a payload of `make_task`, which reads no result. -/
def Starts (x : ℕ) : Prop :=
  ∃ R cancelled callable, ρ[x]? = some R ∧ R.work = some (.start cancelled callable)

/-- A queued callable. -/
def CallableFits : ℕ × Option ℕ → Prop
  | (x, none) => Starts ρ x
  | (x, some q) => Reads ρ x q

/-- The payload `x` at `p` is as the role says. -/
structure Role.Fits (R : Role V E) (p : ℕ) (x : Payload (Code V E) V E) : Prop where
  work : x.work = R.work
  result : ∀ r, x.result = some r → R.Holds ρ r
  stored : ∀ c ∈ x.continuation.span, Reads ρ c.continuation p
  redirect : ∀ q, x.taskRedirect = some q →
    ∃ p p', R = .task p ∧ ρ[q]? = some (.task p') ∧ p'.Unfolds p

/-- The code goes on to make the task of `p`. -/
def Code.Makes : Code V E → Program V E → Prop
  | build b as _, p => b.attach as = p
  | complete q r as _, p =>
    ∃ b, ρ[q]? = some (.task b) ∧ b.fate = .inl r ∧ b.work = none ∧ b.attach as = p
  | built q as _, p => ∃ b, ρ[q]? = some (.task b) ∧ b.attach as = p
  | _, _ => False

/-- What the code builds is for. -/
def Code.purpose : Code V E → Option Purpose
  | build _ _ purpose => some purpose
  | complete _ _ _ purpose => some purpose
  | built _ _ purpose => some purpose
  | _ => none

/-- Code that belongs to the run of `main`: it makes the task of a program, which is `main` when it
is to be observed, or it returns, or it observes the result. -/
inductive Code.Fits (main : Program V E) : Code V E → Prop
  | makes {u : Code V E} {p : Program V E} : u.Makes ρ p →
      (∀ scheduler, u.purpose = some (.observed scheduler) → p = main) → Fits main u
  | ret (r : Return V E) : Fits main (.ret r)
  | observe : Fits main (.observe main.eval)

/-- The code `u` does what the callable of the payload `x` has to do. -/
inductive Answers (x : ℕ) (u : Code V E) : Prop
  | returns {p : Program V E} {r : Return V E} : ρ[x]? = some (.task p) → u = .ret r →
      outputWrapper r = some p.eval → Answers x u
  | throws {p : Program V E} {hp : p.unwraps = true} {e : E} : ρ[x]? = some (.outer p hp) →
      u = .ret (.throws e) → p.eval = .error e → ErrorTraits.catches E = true → Answers x u
  | program {p p' : Program V E} {hp : p.unwraps = true} : ρ[x]? = some (.outer p hp) →
      u.Makes ρ p' → u.purpose = some .returned → p'.Unfolds p → Answers x u
  | observes {p : Program V E} {r : Expected V E} : ρ[x]? = some (.observer p) → u = .observe r →
      Answers x u
  | observed {p : Program V E} : ρ[x]? = some (.observer p) → u = .ret (.value .void) →
      Answers x u

/-- What is asked of a call under way. -/
def CallFits (main : Program V E) : Frame (Code V E) V E → Prop
  | .user u => u.Fits ρ main
  | .completing k => ∀ x, (k x).Fits ρ main
  | .run x parent => CallableFits ρ (x, parent)
  | .doWork _ => True
  | .unwrapping l => ∃ source, ρ[l]? = some (.link source)
  | .doCompletion _ => True
  | .runAll cs => ∀ c ∈ cs, Reads ρ c.continuation c.parent
  | .collapseLeftIntoRight left right =>
    ∃ p p', ρ[left]? = some (.task p) ∧ ρ[right]? = some (.task p') ∧ p'.Unfolds p
  | .addContinuations p cs => (∃ b, ρ[p]? = some (.task b)) ∧ ∀ c ∈ cs, Reads ρ c.continuation p
  | .holding _ => True

/-- What is asked of a call directly on top of another one. -/
def Fitting : Frame (Code V E) V E → Frame (Code V E) V E → Prop
  | .user u, .doWork x => Answers ρ x u
  | .completing k, .doWork x => ∀ r, Answers ρ x (k r)
  | _, _ => True

/-- **Everything in the state is as the roles say**, and what was observed is the value of
`main`. -/
structure Labelled (main : Program V E) (s : State T (Code V E) V E) : Prop where
  payload : ∀ p < s.next, ∃ R, ρ[p]? = some R ∧ R.Fits ρ p (s.heap p)
  bases : ∀ p < s.next, ∀ b, ρ[p]? = some (.task b) → b.work = none → p ∈ s.sources
  observers : ∀ x < s.next, ∀ p, ρ[x]? = some (.observer p) → p = main
  frames : ∀ t, ∀ f ∈ s.stack t, CallFits ρ main f
  calls : ∀ t, (s.stack t).IsChain (Fitting ρ)
  queue : ∀ c ∈ s.queue, CallableFits ρ c
  emitted : ∀ r ∈ s.emitted, r = main.eval

end roles

/-! ## The roles only grow -/

section mono

variable {ρ ρ' : List (Role V E)} {main : Program V E} {s : State T (Code V E) V E}

/-- A role that was given is kept. -/
theorem role_mono (h : ρ <+: ρ') {p : ℕ} {R : Role V E} (hR : ρ[p]? = some R) :
    ρ'[p]? = some R := by
  obtain ⟨hp, rfl⟩ := List.getElem?_eq_some_iff.1 hR
  exact List.prefix_iff_getElem?.1 h p hp

theorem Role.Holds.mono (h : ρ <+: ρ') {R : Role V E} {r : Expected V E} (hr : R.Holds ρ r) :
    R.Holds ρ' r := by
  cases R with
  | outer p =>
    rcases r with e | _ | _ | q
    · exact hr
    · exact hr
    · exact hr
    · obtain ⟨p', hq, hp'⟩ := hr
      exact ⟨p', role_mono h hq, hp'⟩
  | _ => exact hr

theorem Reads.mono (h : ρ <+: ρ') {x q : ℕ} (hr : Reads ρ x q) : Reads ρ' x q := by
  cases hr with
  | step hx ha hq hp =>
    exact .step (role_mono h hx) ha (role_mono h hq) hp
  | link hl hq hs e => exact .link (role_mono h hl) (role_mono h hq) (role_mono h hs) e

theorem CallableFits.mono (h : ρ <+: ρ') {c : ℕ × Option ℕ} (hc : CallableFits ρ c) :
    CallableFits ρ' c := by
  rcases c with ⟨x, _ | q⟩
  · obtain ⟨R, cancelled, callable, hx, hw⟩ := hc
    exact ⟨R, cancelled, callable, role_mono h hx, hw⟩
  · exact Reads.mono h hc

theorem Role.Fits.mono (h : ρ <+: ρ') {R : Role V E} {p : ℕ} {x : Payload (Code V E) V E}
    (hx : R.Fits ρ p x) : R.Fits ρ' p x where
  work := hx.work
  result r hr := (hx.result r hr).mono h
  stored c hc := (hx.stored c hc).mono h
  redirect q hq := by
    obtain ⟨p, p', hR, hp', hu⟩ := hx.redirect q hq
    exact ⟨p, p', hR, role_mono h hp', hu⟩

theorem Code.Makes.mono (h : ρ <+: ρ') {u : Code V E} {p : Program V E} (hu : u.Makes ρ p) :
    u.Makes ρ' p := by
  cases u with
  | build => exact hu
  | complete =>
    obtain ⟨b, hb, hrest⟩ := hu
    exact ⟨b, role_mono h hb, hrest⟩
  | built =>
    obtain ⟨b, hb, hrest⟩ := hu
    exact ⟨b, role_mono h hb, hrest⟩
  | ret | observe => exact hu

theorem Code.Fits.mono (h : ρ <+: ρ') {u : Code V E} (hu : u.Fits ρ main) : u.Fits ρ' main := by
  cases hu with
  | makes hu hmain => exact .makes (hu.mono h) hmain
  | ret r => exact .ret r
  | observe => exact .observe

theorem Answers.mono (h : ρ <+: ρ') {x : ℕ} {u : Code V E} (hu : Answers ρ x u) :
    Answers ρ' x u := by
  cases hu with
  | returns hx hu hr => exact .returns (role_mono h hx) hu hr
  | throws hx hu he hc => exact .throws (role_mono h hx) hu he hc
  | program hx hu hp hp' => exact .program (role_mono h hx) (hu.mono h) hp hp'
  | observes hx hu => exact .observes (role_mono h hx) hu
  | observed hx hu => exact .observed (role_mono h hx) hu

theorem CallFits.mono (h : ρ <+: ρ') {f : Frame (Code V E) V E} (hf : CallFits ρ main f) :
    CallFits ρ' main f := by
  cases f with
  | user => exact Code.Fits.mono h hf
  | completing => exact fun x => (hf x).mono h
  | run => exact CallableFits.mono h hf
  | unwrapping =>
    obtain ⟨source, hl⟩ := hf
    exact ⟨source, role_mono h hl⟩
  | runAll => exact fun c hc => (hf c hc).mono h
  | collapseLeftIntoRight =>
    obtain ⟨p, p', hp, hp', hu⟩ := hf
    exact ⟨p, p', role_mono h hp, role_mono h hp', hu⟩
  | addContinuations =>
    obtain ⟨⟨b, hb⟩, hcs⟩ := hf
    exact ⟨⟨b, role_mono h hb⟩, fun c hc => (hcs c hc).mono h⟩
  | doWork | doCompletion | holding => trivial

theorem Fitting.mono (h : ρ <+: ρ') {f g : Frame (Code V E) V E} (hf : Fitting ρ f g) :
    Fitting ρ' f g := by
  cases f <;> cases g <;> first | trivial | exact Answers.mono h hf | exact fun r => (hf r).mono h

theorem Labelled.mono (h : ρ <+: ρ') (hs : Labelled ρ main s) : Labelled ρ' main s where
  payload p hp := by
    obtain ⟨R, hR, hx⟩ := hs.payload p hp
    exact ⟨R, role_mono h hR, hx.mono h⟩
  bases p hp b hb := by
    obtain ⟨R, hR, -⟩ := hs.payload p hp
    rw [role_mono h hR] at hb
    exact hs.bases p hp b (hR.trans hb)
  observers x hx p hp := by
    obtain ⟨R, hR, -⟩ := hs.payload x hx
    rw [role_mono h hR] at hp
    exact hs.observers x hx p (hR.trans hp)
  frames t f hf := (hs.frames t f hf).mono h
  calls t := (hs.calls t).imp fun _ _ => .mono h
  queue c hc := (hs.queue c hc).mono h
  emitted := hs.emitted

end mono

/-! ## What the roles say about works -/

section

variable {ρ : List (Role V E)} {main : Program V E} {s s₁ : State T (Code V E) V E} {t : T}
  {x q : ℕ} {R : Role V E}

theorem Labelled.fits (h : Labelled ρ main s) (hx : x < s.next) (hR : ρ[x]? = some R) :
    R.Fits ρ x (s.heap x) := by
  obtain ⟨R', hR', hfits⟩ := h.payload x hx
  obtain rfl : R' = R := Option.some.inj (hR'.symm.trans hR)
  exact hfits

theorem Role.eq_link {source : ℕ} (h : R.work = some (.unwrap source)) : R = .link source := by
  cases R with
  | task p =>
    obtain ⟨-, h⟩ := Option.ite_none_left_eq_some.1 h
    cases p <;> cases h
  | outer p => cases p <;> cases h
  | link => cases h; rfl
  | observer => cases h

/-- The payload that unwraps is the continuation that `task_factory` made. -/
theorem Labelled.role_link (h : Labelled ρ main s) {l source : ℕ} (hl : l < s.next)
    (hwork : (s.heap l).work = some (.unwrap source)) : ρ[l]? = some (.link source) := by
  obtain ⟨R, hR, hfits⟩ := h.payload l hl
  obtain rfl := Role.eq_link (hfits.work ▸ hwork)
  exact hR

/-- It reads the payload of a task of a task, directly before the payload of the task that it
completes. -/
theorem Reads.of_link {l source : ℕ} (h : Reads ρ l q) (hl : ρ[l]? = some (.link source)) :
    ∃ p hp, ρ[q]? = some (.outer p hp) ∧ ρ[source]? = some (.task p) ∧ source = q + 1 := by
  cases h with
  | step hl' ha =>
    cases hl.symm.trans hl'
    cases ha
  | link hl' hq hsource hnext =>
    cases hl.symm.trans hl'
    exact ⟨_, _, hq, hsource, hnext⟩

/-- A redirect leads to a task that stands for the payload. -/
theorem Reads.forward {left right : ℕ} {p p' : Program V E} (h : Reads ρ x left)
    (hleft : ρ[left]? = some (.task p)) (hright : ρ[right]? = some (.task p'))
    (hp : p'.Unfolds p) : Reads ρ x right := by
  cases h with
  | step hx ha hq hrep =>
    cases hq.symm.trans hleft
    exact .step hx ha hright (hp.replaces hrep)
  | link _ hq => cases hq.symm.trans hleft

/-- **A work comes to what its role says**: it reads the value of its antecedent. -/
theorem Labelled.fate (h : Labelled ρ main s) {parent : Option ℕ} {y : Expected V E ⊕ Code V E}
    (hx : x < s.next) (hR : ρ[x]? = some R) (hc : CallableFits ρ (x, parent))
    (hq : ∀ q, parent = some q → q < s.next) (hw : WorkInput s x parent s₁ y) : y = R.fate := by
  have hwork := (h.fits hx hR).work
  cases hw with
  | start hstart =>
    rw [hwork] at hstart
    cases R with
    | task p => exact p.fate_of_start (Option.ite_none_left_eq_some.1 hstart).2
    | outer p => exact p.fate_of_start hstart
    | link | observer => cases hstart
  | @continuation handlesExpected cancelled callable q input hcont hparent hresult =>
    rw [hwork] at hcont
    subst hparent
    have hreads : Reads ρ x q := hc
    cases hreads with
    | link hl =>
      rw [hR] at hl
      cases hl
      cases hcont
    | @step R' p p' hx' ha hq' hrep =>
      rw [hR] at hx'
      cases hx'
      have hinput : input = p'.eval := (h.fits (hq q rfl) hq').result input hresult
      rw [hinput, hrep.eval]
      cases R with
      | task p => exact p.fate_of_continuation (Option.ite_none_left_eq_some.1 hcont).2 ha
      | outer p => exact p.fate_of_continuation hcont ha
      | link => cases ha
      | observer p =>
        cases hcont
        cases ha
        rfl

/-- The result of a work that invokes no callable is the value of its program. -/
theorem Role.holds_of_settled {r : Expected V E} (h : R.fate = .inl r) : R.Holds ρ r := by
  cases R with
  | task p =>
    cases hf : p.fate with
    | inl r' =>
      simp only [Role.fate, hf, Sum.map_inl, id, Sum.inl.injEq] at h
      rw [← h]
      exact (p.eval_of_settled hf).symm
    | inr o => simp [Role.fate, hf] at h
  | outer p hp =>
    cases hf : p.fate with
    | inl r' =>
      simp only [Role.fate, hf, Sum.map_inl, id, Sum.inl.injEq] at h
      obtain ⟨e, he⟩ := p.exists_error_of_settled hp hf
      have heval := p.eval_of_settled hf
      rw [← h, he]
      rw [he] at heval
      exact heval
    | inr o => simp [Role.fate, hf] at h
  | link => trivial
  | observer => trivial

/-- The callable of a work does what is asked of it. -/
theorem Role.answers_of_invoked {u : Code V E} (hR : ρ[x]? = some R) (hwork : R.work ≠ none)
    (h : R.fate = .inr u) : Answers ρ x u := by
  cases R with
  | task p =>
    cases hf : p.fate with
    | inl r' => simp [Role.fate, hf] at h
    | inr o =>
      simp only [Role.fate, hf, Sum.map_inr, Sum.inr.injEq] at h
      have hp : p.unwraps = false := by
        by_contra hp
        exact hwork (if_pos (by simpa using hp))
      obtain ⟨r, hr, hout⟩ := o.code_returns hp
      exact .returns hR (h.symm.trans hr) (hout.trans (congrArg some (p.eval_of_invoked hf).symm))
  | outer p hp =>
    cases hf : p.fate with
    | inl r' => simp [Role.fate, hf] at h
    | inr o =>
      simp only [Role.fate, hf, Sum.map_inr, Sum.inr.injEq] at h
      have heval := p.eval_of_invoked hf
      rcases o.code_unwraps hp with ⟨p', hcode, ho, hcost⟩ | ⟨e, hcode, ho, hc⟩
      · rw [← h, hcode]
        have hle := p.cost_of_invoked hf
        exact .program hR rfl rfl ⟨ho.symm.trans heval.symm, hcost.trans hle⟩
      · exact .throws hR (h.symm.trans hcode) (heval.trans ho) hc
  | link => cases h
  | observer p =>
    cases h
    exact .observes hR rfl

/-- The code of a callable makes no task that is to be observed. -/
theorem Outcome.code_fits {unwrap : Bool} (o : Outcome V E unwrap) : o.code.Fits ρ main := by
  cases o with
  | value | expected | throws => exact .ret _
  | program p => exact .makes (u := .build p [] .returned) rfl nofun

/-- The callable of a work belongs to the run. -/
theorem Role.fits_of_invoked {u : Code V E} (h : R.fate = .inr u)
    (hmain : ∀ p, R = .observer p → p = main) : u.Fits ρ main := by
  cases R with
  | task p | outer p =>
    cases hf : p.fate with
    | inl r => simp [Role.fate, hf] at h
    | inr o =>
      simp only [Role.fate, hf, Sum.map_inr, Sum.inr.injEq] at h
      exact h ▸ o.code_fits
  | link => cases h
  | observer p =>
    cases h
    rw [hmain p rfl]
    exact .observe

/-- What the call on top of a thread says of the roles. -/
theorem Labelled.top (h : Labelled ρ main s) {f : Frame (Code V E) V E}
    {rest : List (Frame (Code V E) V E)} (hs : s.stack t = f :: rest) : CallFits ρ main f :=
  h.frames t f (by rw [hs]; exact .head _)

/-- The role of a payload that is run, and what its work comes to. -/
theorem Labelled.of_input (h : Labelled ρ main s) (hw : WellFormed s) {parent : Option ℕ}
    {rest : List (Frame (Code V E) V E)} {y : Expected V E ⊕ Code V E}
    (hs : s.stack t = .run x parent :: rest) (hinput : WorkInput s x parent s₁ y) :
    ∃ R, ρ[x]? = some R ∧ R.Fits ρ x (s.heap x) ∧ R.fate = y := by
  obtain ⟨hx, hparent⟩ := hw.top hs
  obtain ⟨R, hR, hfits⟩ := h.payload x hx.lt
  exact ⟨R, hR, hfits, (h.fate hx.lt hR (h.top hs) (fun q hq => (hparent q hq).lt) hinput).symm⟩

end

end Arcana.Programs
