import Arcana.Tasks.Invariant
import Arcana.Tasks.Prices

/-!
# Plans

A discipline for user code of the task machine under which what happens does not depend on the
schedulers. A `Plan` says of a payload, from its allocation on, which result it will hold, and which
code its work comes to when it reads the result that is planned for its parent. `Discipline`
collects what a piece of code is judged by, and `Discipline.Follows` lists the calls that it may
make: it completes sources with the results that are planned for them, it makes tasks whose
callables are no tasks of tasks, and every call passes on what the code has to pay for (`Tariff`).

`Planned` says that every payload is as planned and that every call under way does its part. The
redirects, the mutexes held along them and the continuations of `task_factory` do not occur then.

* `Plan`, `Tariff` and `Discipline` are what user code is judged by.
* `Discipline.Follows` lists the calls, and `Discipline.Sound` says that the code of a program makes
  no others.
* `Plan.Held`, `Discipline.CallFits` and `Discipline.Fitting` are what is asked of payloads and of
  calls; `Discipline.Planned` collects these.
* `Planned.input` says that a work comes to the code that is planned for it.
* `Planned.move`, `Planned.write` and `Planned.alloc` say what is left to show of a step.
-/

namespace Arcana.Plans

open Function Tasks

variable {T U V E : Type*}

/-- What is planned for a payload: the result that it will hold, its place in the order in which
payloads are completed and, unless it is a source that code completes, its work: the payload whose
result it reads, and the code that this comes to. -/
structure Plan (U V E : Type*) where
  result : Expected V E
  rank : ℕ
  work : Option (Option ℕ × U)

/-- The prices of what is counted, with those of the completions of the payloads. -/
structure Tariff extends Tasks.Tariff where
  completion : ℕ → ℕ

/-- The tariff that counts the completion of `q`. -/
@[simps] def Tariff.completing (q : ℕ) : Tariff where
  step := 0
  call := 0
  observation := 0
  completion p := if p = q then 1 else 0

/-- What a piece of code is judged by: whether it fits the plans, what it returns in the end, what
it pays for until then, and what may be observed. -/
structure Discipline (U V E : Type*) where
  Fits : List (Plan U V E) → U → Prop
  result : U → Expected V E
  price : Tariff → List (Plan U V E) → U → ℕ
  Observable : Expected V E → Prop

namespace Discipline

variable (D : Discipline U V E) (ρ : List (Plan U V E))

/-- The code `k` goes on for the code `u`. -/
structure GoesOn (u k : U) : Prop where
  fits : D.Fits ρ k
  result : D.result k = D.result u

/-- What the code completes comes later than `rank`. -/
def After (rank : ℕ) (u : U) : Prop :=
  ∀ q, 1 ≤ D.price (.completing q) ρ u → ∃ pl, ρ[q]? = some pl ∧ rank < pl.rank

/-- The plan for a task that runs `u`, which it comes to when it reads `parent`. -/
@[simps] def task (rank : ℕ) (parent : Option ℕ) (u : U) : Plan U V E where
  result := D.result u
  rank := rank
  work := some (parent, u)

/-- **The calls that code in keeping with the plans makes.** -/
inductive Follows [ErrorTraits E] (u : U) : Action U V E → Prop
  | ret {r : Return V E} : outputWrapper r = some (D.result u) → (∀ τ, D.price τ ρ u = τ.step) →
      Follows u (.ret r)
  | emit {r : Expected V E} {k : U} : D.Observable r → D.GoesOn ρ u k →
      (∀ τ, D.price τ ρ u = τ.step + τ.observation + D.price τ ρ k) → Follows u (.emit r k)
  | source {k : ℕ → U} (pl : Plan U V E) : pl.work = none →
      D.GoesOn (ρ ++ [pl]) u (k ρ.length) →
      (∀ τ, D.price τ ρ u + τ.completion ρ.length =
        τ.step + D.price τ (ρ ++ [pl]) (k ρ.length)) → Follows u (.source k)
  | complete {p : ℕ} {k : Except RuntimeError Unit → U} {pl : Plan U V E} : ρ[p]? = some pl →
      pl.work = none → D.GoesOn ρ u (k (.ok ())) →
      (∀ τ, D.price τ ρ u = 4 * τ.step + τ.completion p + D.price τ ρ (k (.ok ()))) →
      Follows u (.complete p pl.result k)
  | makeTask {scheduler : Scheduler} {callable : U} {k : ℕ → U} (rank : ℕ) : D.Fits ρ callable →
      D.GoesOn (ρ ++ [D.task rank none callable]) u (k ρ.length) →
      (∀ τ, D.price τ ρ u = 5 * τ.step + τ.call + D.price τ ρ callable +
        D.price τ (ρ ++ [D.task rank none callable]) (k ρ.length)) →
      Follows u (.makeTask scheduler false false callable k)
  | thenDo {p : ℕ} {scheduler : Scheduler} {callable : Expected V E → U} {k : ℕ → U}
      {pl : Plan U V E} (rank : ℕ) : ρ[p]? = some pl → pl.rank < rank →
      D.Fits ρ (callable pl.result) → D.After ρ pl.rank (callable pl.result) →
      D.GoesOn (ρ ++ [D.task rank (some p) (callable pl.result)]) u (k ρ.length) →
      (∀ τ, D.price τ ρ u = 8 * τ.step + τ.call + D.price τ ρ (callable pl.result) +
        D.price τ (ρ ++ [D.task rank (some p) (callable pl.result)]) (k ρ.length)) →
      Follows u (.thenDo p scheduler false true false callable k)

/-- **The code of a program follows plans**: what fits goes on to fit when there are more plans, and
makes the calls that are listed. -/
structure Sound [ErrorTraits E] (act : U → Unit → Action U V E) : Prop where
  fits_mono {ρ ρ' : List (Plan U V E)} {u : U} : ρ <+: ρ' → D.Fits ρ u → D.Fits ρ' u
  price_mono {ρ ρ' : List (Plan U V E)} {u : U} (τ : Tariff) : ρ <+: ρ' → D.Fits ρ u →
    D.price τ ρ' u = D.price τ ρ u
  follows {ρ : List (Plan U V E)} {u : U} : D.Fits ρ u → D.Follows ρ u (act u ())

end Discipline

/-! ## States that are as planned -/

section

variable (D : Discipline U V E) (ρ : List (Plan U V E))

/-- The work of a payload with the plan. -/
inductive Plan.Works (pl : Plan U V E) : Option (Work U V E) → Prop
  | bare : pl.work = none → Works pl none
  | start {u : U} : pl.work = some (none, u) → Works pl (some (.start false u))
  | continuation {q : ℕ} {pl' : Plan U V E} {callable : Expected V E → U} : ρ[q]? = some pl' →
      pl.work = some (some q, callable pl'.result) →
      Works pl (some (.continuation true false callable))

/-- The payload `x` is planned to run when it can read `parent`. -/
def Reads (x : ℕ) (parent : Option ℕ) : Prop :=
  ∃ pl u, ρ[x]? = some pl ∧ pl.work = some (parent, u)

/-- The payload `x` at `p` is as planned. -/
structure Plan.Held (p : ℕ) (pl : Plan U V E) (x : Payload U V E) : Prop where
  work : pl.Works ρ x.work
  result : ∀ r, x.result = some r → r = pl.result
  stored : ∀ c ∈ x.continuation.span, Reads ρ c.continuation (some p)
  redirect : x.taskRedirect = none

namespace Discipline

/-- The plan can be kept: its code fits and returns what is planned, and what it reads and what it
completes come in the right order. -/
structure Keeps (pl : Plan U V E) (parent : Option ℕ) (u : U) : Prop where
  fits : D.Fits ρ u
  result : D.result u = pl.result
  after : ∀ q, parent = some q → ∃ pl', ρ[q]? = some pl' ∧ pl'.rank < pl.rank ∧ D.After ρ pl'.rank u

/-- What is asked of a call under way. -/
def CallFits : Frame U V E → Prop
  | .user u => D.Fits ρ u
  | .completing k => D.Fits ρ (k (.ok ()))
  | .run x parent => Reads ρ x parent
  | .runAll cs => ∀ c ∈ cs, Reads ρ c.continuation (some c.parent)
  | .addContinuations p cs => ∀ c ∈ cs, Reads ρ c.continuation (some p)
  | .doWork _ | .doCompletion _ => True
  | .unwrapping _ | .collapseLeftIntoRight _ _ | .holding _ => False

/-- What is asked of a call directly on top of another one: the code of a callable returns what is
planned for its payload. -/
def Fitting : Frame U V E → Frame U V E → Prop
  | .user u, .doWork x => ∀ pl, ρ[x]? = some pl → D.result u = pl.result
  | .completing k, .doWork x => ∀ pl, ρ[x]? = some pl → D.result (k (.ok ())) = pl.result
  | _, _ => True

/-- **Everything in the state is as planned.** -/
structure Planned (s : State T U V E) : Prop where
  length : ρ.length = s.next
  keeps : ∀ (p : ℕ) (pl : Plan U V E) (parent : Option ℕ) (u : U), ρ[p]? = some pl →
    pl.work = some (parent, u) → D.Keeps ρ pl parent u
  payload : ∀ (p : ℕ) (pl : Plan U V E), ρ[p]? = some pl → pl.Held ρ p (s.heap p)
  bases : ∀ (p : ℕ) (pl : Plan U V E), ρ[p]? = some pl → pl.work = none → p ∈ s.sources
  frames : ∀ t, ∀ f ∈ s.stack t, D.CallFits ρ f
  calls : ∀ t, (s.stack t).IsChain (D.Fitting ρ)
  queue : ∀ c ∈ s.queue, Reads ρ c.1 c.2
  emitted : ∀ r ∈ s.emitted, D.Observable r

end Discipline

end

/-! ## More plans -/

section mono

variable {D : Discipline U V E} {ρ ρ' : List (Plan U V E)}

/-- A plan that was made is kept. -/
theorem plan_mono (h : ρ <+: ρ') {p : ℕ} {pl : Plan U V E} (hp : ρ[p]? = some pl) :
    ρ'[p]? = some pl := by
  obtain ⟨hlt, rfl⟩ := List.getElem?_eq_some_iff.1 hp
  exact List.prefix_iff_getElem?.1 h p hlt

theorem Reads.mono (h : ρ <+: ρ') {x : ℕ} {parent : Option ℕ} (hr : Reads ρ x parent) :
    Reads ρ' x parent := by
  obtain ⟨pl, u, hx, hu⟩ := hr
  exact ⟨pl, u, plan_mono h hx, hu⟩

theorem Plan.Works.mono (h : ρ <+: ρ') {pl : Plan U V E} {work : Option (Work U V E)}
    (hw : pl.Works ρ work) : pl.Works ρ' work := by
  cases hw with
  | bare hw => exact .bare hw
  | start hw => exact .start hw
  | continuation hq hw => exact .continuation (plan_mono h hq) hw

theorem Plan.Held.mono (h : ρ <+: ρ') {p : ℕ} {pl : Plan U V E} {x : Payload U V E}
    (hx : pl.Held ρ p x) : pl.Held ρ' p x where
  work := hx.work.mono h
  result := hx.result
  stored c hc := (hx.stored c hc).mono h
  redirect := hx.redirect

namespace Discipline

variable [ErrorTraits E] {act : U → Unit → Action U V E}

theorem After.mono (hD : D.Sound act) (h : ρ <+: ρ') {rank : ℕ} {u : U} (hu : D.Fits ρ u)
    (ha : D.After ρ rank u) : D.After ρ' rank u := by
  intro q hq
  rw [hD.price_mono _ h hu] at hq
  obtain ⟨pl, hpl, hrank⟩ := ha q hq
  exact ⟨pl, plan_mono h hpl, hrank⟩

theorem Keeps.mono (hD : D.Sound act) (h : ρ <+: ρ') {pl : Plan U V E} {parent : Option ℕ} {u : U}
    (hk : D.Keeps ρ pl parent u) : D.Keeps ρ' pl parent u where
  fits := hD.fits_mono h hk.fits
  result := hk.result
  after q hq := by
    obtain ⟨pl', hpl', hrank, hafter⟩ := hk.after q hq
    exact ⟨pl', plan_mono h hpl', hrank, hafter.mono hD h hk.fits⟩

theorem CallFits.mono (hD : D.Sound act) (h : ρ <+: ρ') {f : Frame U V E} (hf : D.CallFits ρ f) :
    D.CallFits ρ' f := by
  cases f with
  | user | completing => exact hD.fits_mono h hf
  | run => exact Reads.mono h hf
  | runAll | addContinuations => exact fun c hc => (hf c hc).mono h
  | doWork | doCompletion => trivial
  | unwrapping | collapseLeftIntoRight | holding => exact hf

omit [ErrorTraits E] in
/-- What is asked of adjacent calls stays asked, for payloads that are there. -/
theorem Fitting.mono (h : ρ <+: ρ') {s : State T U V E} (hlen : ρ.length = s.next)
    {f g : Frame U V E} (hg : g.Ok s) (hf : D.Fitting ρ f g) : D.Fitting ρ' f g := by
  have back {x : ℕ} {pl : Plan U V E} (hx : s.Runnable x) (hpl : ρ'[x]? = some pl) :
      ρ[x]? = some pl := by
    have hlt := hx.lt
    have hget : ρ[x]? = some ρ[x] := List.getElem?_eq_getElem (by omega)
    rw [plan_mono h hget] at hpl
    rw [hget, hpl]
  cases f <;> cases g <;> try trivial
  · exact fun pl hpl => hf pl (back hg hpl)
  · exact fun pl hpl => hf pl (back hg hpl)

end Discipline

end mono

namespace Discipline.Planned

variable {D : Discipline U V E} {ρ : List (Plan U V E)} {s s' s₁ : State T U V E} {t : T} {p : ℕ}
  {pl : Plan U V E}

theorem exists_plan (h : D.Planned ρ s) (hp : p < s.next) : ∃ pl, ρ[p]? = some pl :=
  ⟨_, List.getElem?_eq_getElem (h.length ▸ hp)⟩

theorem lt (h : D.Planned ρ s) (hp : ρ[p]? = some pl) : p < s.next :=
  h.length ▸ (List.getElem?_eq_some_iff.1 hp).1

theorem top (h : D.Planned ρ s) {f : Frame U V E} {rest : List (Frame U V E)}
    (hs : s.stack t = f :: rest) : D.CallFits ρ f :=
  h.frames t f (by rw [hs]; exact .head _)

theorem below (h : D.Planned ρ s) {f g : Frame U V E} {rest : List (Frame U V E)}
    (hs : s.stack t = f :: g :: rest) : D.Fitting ρ f g := by
  have hc := h.calls t
  rw [hs] at hc
  exact (List.isChain_cons_cons.1 hc).1

theorem rest (h : D.Planned ρ s) {f : Frame U V E} {rest : List (Frame U V E)}
    (hs : s.stack t = f :: rest) : rest.IsChain (D.Fitting ρ) := by
  have hc := h.calls t
  rw [hs] at hc
  exact hc.tail

/-- Reading an input changes nothing that the plans are about. -/
theorem read [ErrorTraits E] (h : D.Planned ρ s) {x : ℕ} {parent : Option ℕ} {y : Expected V E ⊕ U}
    (hinput : WorkInput s x parent s₁ y) : D.Planned ρ s₁ := by
  cases hinput with
  | start => exact h
  | continuation =>
    exact ⟨h.length, h.keeps, h.payload, h.bases, h.frames, h.calls, h.queue, h.emitted⟩

/-- **A work comes to the code that is planned**: it reads the result that is planned for its
parent. -/
theorem input [ErrorTraits E] (h : D.Planned ρ s) {x : ℕ} {parent : Option ℕ}
    {y : Expected V E ⊕ U} (hr : Reads ρ x parent) (hinput : WorkInput s x parent s₁ y) :
    ∃ pl u, ρ[x]? = some pl ∧ pl.work = some (parent, u) ∧ y = .inr u := by
  obtain ⟨pl, u, hx, hu⟩ := hr
  refine ⟨pl, u, hx, hu, ?_⟩
  have hworks := (h.payload x pl hx).work
  cases hinput with
  | start hstart =>
    rw [hstart] at hworks
    cases hworks with
    | start hplan =>
      cases hu.symm.trans hplan
      rfl
  | continuation hcont hparent hresult =>
    rw [hcont] at hworks
    cases hworks with
    | continuation hq hplan =>
      cases hu.symm.trans hplan
      cases hparent
      rw [(h.payload _ _ hq).result _ hresult]
      rfl

variable [DecidableEq T] {fs : List (Frame U V E)}

/-- A step that leaves the heap alone. -/
theorem move (h : D.Planned ρ s) (heap : s'.heap = s.heap) (next : s'.next = s.next)
    (sources : s'.sources = s.sources) (stack : s'.stack = update s.stack t fs)
    (frames : ∀ f ∈ fs, f ∈ s.stack t ∨ D.CallFits ρ f) (calls : fs.IsChain (D.Fitting ρ))
    (queue : ∀ c ∈ s'.queue, c ∈ s.queue ∨ Reads ρ c.1 c.2)
    (emitted : ∀ r ∈ s'.emitted, r ∈ s.emitted ∨ D.Observable r) : D.Planned ρ s' where
  length := h.length.trans next.symm
  keeps := h.keeps
  payload p pl hp := heap ▸ h.payload p pl hp
  bases p pl hp hw := sources ▸ h.bases p pl hp hw
  frames t' f hf := by
    rw [stack, update_apply] at hf
    split at hf
    · exact (frames f hf).elim (h.frames t f) id
    · exact h.frames t' f hf
  calls t' := by
    rw [stack, update_apply]
    split
    · exact calls
    · exact h.calls t'
  queue c hc := (queue c hc).elim (h.queue c) id
  emitted r hr := (emitted r hr).elim (h.emitted r) id

omit [DecidableEq T] in
/-- A write to a payload. -/
theorem write (h : D.Planned ρ s) {x : Payload U V E} (heap : s'.heap = update s.heap p x)
    (next : s'.next = s.next) (sources : s'.sources = s.sources) (stack : s'.stack = s.stack)
    (queue : s'.queue = s.queue) (emitted : s'.emitted = s.emitted)
    (held : ∀ pl : Plan U V E, ρ[p]? = some pl → pl.Held ρ p (s.heap p) → pl.Held ρ p x) :
    D.Planned ρ s' where
  length := h.length.trans next.symm
  keeps := h.keeps
  payload q pl hq := by
    have hx := h.payload q pl hq
    rw [heap, update_apply]
    split
    · rename_i e
      subst e
      exact held pl hq hx
    · exact hx
  bases p pl hp hw := sources ▸ h.bases p pl hp hw
  frames := stack ▸ h.frames
  calls := stack ▸ h.calls
  queue := queue ▸ h.queue
  emitted := emitted ▸ h.emitted

omit [DecidableEq T] in
/-- The allocation of a payload for which there is a plan. -/
theorem alloc [ErrorTraits E] {act : U → Unit → Action U V E} (hD : D.Sound act) (hw : WellFormed s)
    (h : D.Planned ρ s) (pl : Plan U V E) {x : Payload U V E}
    (heap : s'.heap = update s.heap s.next x) (next : s'.next = s.next + 1)
    (stack : s'.stack = s.stack) (queue : s'.queue = s.queue) (emitted : s'.emitted = s.emitted)
    (sources : ∀ p ∈ s.sources, p ∈ s'.sources)
    (keeps : ∀ parent u, pl.work = some (parent, u) → D.Keeps (ρ ++ [pl]) pl parent u)
    (held : pl.Held (ρ ++ [pl]) s.next x) (base : pl.work = none → s.next ∈ s'.sources) :
    D.Planned (ρ ++ [pl]) s' := by
  have hρ : ρ <+: ρ ++ [pl] := List.prefix_append ρ [pl]
  have cases_on {p : ℕ} {pl' : Plan U V E} (hp : (ρ ++ [pl])[p]? = some pl') :
      ρ[p]? = some pl' ∧ p < s.next ∨ p = s.next ∧ pl' = pl := by
    rcases lt_trichotomy p s.next with hlt | rfl | hlt
    · rw [List.getElem?_append_left (h.length ▸ hlt)] at hp
      exact .inl ⟨hp, hlt⟩
    · rw [← h.length, List.getElem?_concat_length] at hp
      exact .inr ⟨rfl, (Option.some.inj hp).symm⟩
    · rw [List.getElem?_eq_none (by simp [h.length]; omega)] at hp
      cases hp
  constructor
  · simp [h.length, next]
  · intro p pl' parent u hp hu
    rcases cases_on hp with ⟨hp, -⟩ | ⟨rfl, rfl⟩
    · exact (h.keeps p pl' parent u hp hu).mono hD hρ
    · exact keeps parent u hu
  · intro p pl' hp
    rw [heap]
    rcases cases_on hp with ⟨hp, hlt⟩ | ⟨rfl, rfl⟩
    · rw [update_of_ne (by omega)]
      exact (h.payload p pl' hp).mono hρ
    · rw [update_self]
      exact held
  · intro p pl' hp hnone
    rcases cases_on hp with ⟨hp, -⟩ | ⟨rfl, rfl⟩
    · exact sources p (h.bases p pl' hp hnone)
    · exact base hnone
  · rw [stack]
    exact fun t f hf => (h.frames t f hf).mono hD hρ
  · rw [stack]
    intro t
    exact (h.calls t).imp_of_mem_imp fun f g _ hg =>
      Fitting.mono hρ h.length (hw.frames t g hg)
  · rw [queue]
    exact fun c hc => (h.queue c hc).mono hρ
  · rw [emitted]
    exact h.emitted

end Discipline.Planned

end Arcana.Plans
