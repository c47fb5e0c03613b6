import Arcana.Tasks.Results
import Arcana.Plans.Plan

/-!
# The account of a planned run

Every part of a state has a price (`Discipline.prices`): the code of a call under way, a payload
that is to be run, with what its code will pay for, and a payload that is completed. `Advances` says
what a step does: there may be more plans, everything is as planned again, and what the step did was
paid for out of the prices of the parts that it took. `Planned.advances` is the one theorem about
steps; it has a lemma for each kind of call of user code.

* `Discipline.run` is the price of running a payload, and `Discipline.prices` are the prices of the
  machine that come of it. `supply_mono` says that more plans change no price.
* `Advances` says what a step does, with the plans for what it allocates.
* `Planned.advances_returns`, `Planned.advances_thenDo` and so on: one lemma for each rule, which
  takes its account from `Prices`.
* `Planned.advances` puts these together: every step goes as planned and is paid for.
-/

namespace Arcana.Plans

open Function Tasks

variable {T U V E : Type*}

/-- What the completions of `n` payloads cost. -/
def Tariff.total (τ : Tariff) (n : ℕ) : ℕ := ∑ p ∈ Finset.range n, τ.completion p

theorem Tariff.total_succ (τ : Tariff) (n : ℕ) :
    τ.total (n + 1) = τ.total n + τ.completion n :=
  Finset.sum_range_succ _ _

namespace Discipline

section

variable (D : Discipline U V E) (τ : Tariff) (ρ : List (Plan U V E))

/-- The price of running the payload `x`, with what its code pays for. -/
def run (x : ℕ) : ℕ :=
  (ρ[x]?.bind Plan.work).elim 0 fun c =>
    3 * τ.step + τ.call + τ.completion x + D.price τ ρ c.2

/-- The prices of the machine. -/
@[simps toTariff code run completion] def prices : Prices U where
  toTariff := τ.toTariff
  code := D.price τ ρ
  run := D.run τ ρ
  completion := τ.completion

@[simp] theorem prices_total (n : ℕ) : (D.prices τ ρ).total n = τ.total n := rfl

end

variable {D : Discipline U V E} {τ : Tariff} {ρ ρ' : List (Plan U V E)} {s s' s₁ : State T U V E}
  {t : T}

theorem run_of_plan (D : Discipline U V E) (τ : Tariff) {x : ℕ} {pl : Plan U V E}
    {parent : Option ℕ} {u : U} (hx : ρ[x]? = some pl) (hu : pl.work = some (parent, u)) :
    D.run τ ρ x = 3 * τ.step + τ.call + τ.completion x + D.price τ ρ u := by
  simp [run, hx, hu]

/-! ## More plans change no price -/

section mono

variable [ErrorTraits E] {act : U → Unit → Action U V E}

theorem run_mono (hD : D.Sound act) (hρ : ρ <+: ρ') (h : D.Planned ρ s) {x : ℕ}
    {parent : Option ℕ} (hx : Reads ρ x parent) : D.run τ ρ' x = D.run τ ρ x := by
  obtain ⟨pl, u, hpl, hu⟩ := hx
  rw [run_of_plan D τ hpl hu, run_of_plan D τ (plan_mono hρ hpl) hu,
    hD.price_mono τ hρ (h.keeps x pl parent u hpl hu).fits]

theorem runAll_mono (hD : D.Sound act) (hρ : ρ <+: ρ') (h : D.Planned ρ s)
    {cs : List Continuation} (hcs : ∀ c ∈ cs, ∃ parent, Reads ρ c.continuation parent) :
    (D.prices τ ρ').runAll cs = (D.prices τ ρ).runAll cs := by
  refine Prices.runAll_congr rfl fun c hc => ?_
  obtain ⟨parent, hread⟩ := hcs c hc
  exact run_mono hD hρ h hread

theorem frame_mono (hD : D.Sound act) (hρ : ρ <+: ρ') (h : D.Planned ρ s) {f : Frame U V E}
    (hf : D.CallFits ρ f) : (D.prices τ ρ').frame f = (D.prices τ ρ).frame f := by
  cases f with
  | user u => exact hD.price_mono τ hρ hf
  | completing k => exact congrArg (τ.step + ·) (hD.price_mono τ hρ hf)
  | run => exact run_mono hD hρ h hf
  | runAll cs => exact congrArg (τ.step + ·) (runAll_mono hD hρ h fun c hc => ⟨_, hf c hc⟩)
  | addContinuations p cs =>
    exact congrArg (2 * τ.step + ·) (runAll_mono hD hρ h fun c hc => ⟨_, hf c hc⟩)
  | _ => rfl

theorem supply_mono [Fintype T] (hD : D.Sound act) (hρ : ρ <+: ρ') (h : D.Planned ρ s) :
    s.weight (D.prices τ ρ').supply = s.weight (D.prices τ ρ).supply := by
  apply State.weight_congr
  · intro p hp
    obtain ⟨pl, hpl⟩ := h.exists_plan hp
    simp only [Prices.supply_payload]
    rw [runAll_mono hD hρ h fun c hc => ⟨_, (h.payload p pl hpl).stored c hc⟩]
    rfl
  · exact fun t f hf => frame_mono hD hρ h (h.frames t f hf)
  · exact fun c hc => congrArg (τ.step + ·) (run_mono hD hρ h (h.queue c hc))

end mono

/-- A fresh payload has no price until it is run. -/
theorem supply_alloc [Fintype T] (s' : State T U V E) {x : Payload U V E}
    (heap : s'.heap = update s.heap s.next x) (next : s'.next = s.next + 1)
    (stack : s'.stack = s.stack) (queue : s'.queue = s.queue)
    (completed : x.completed = false) (span : x.continuation.span = []) :
    s'.weight (D.prices τ ρ).supply = s.weight (D.prices τ ρ).supply := by
  have hlt (p : ℕ) (hp : p < s.next) : s'.heap p = s.heap p := by
    rw [heap, update_of_ne (by omega)]
  rw [State.weight_alloc _ 1 next hlt stack queue]
  simp [heap, completed, span]

/-! ## Steps -/

/-- How code makes a task. -/
theorem Follows.of_makeTask [ErrorTraits E] {u callable : U} {scheduler : Scheduler}
    {cancelled unwrap : Bool} {k : ℕ → U}
    (h : D.Follows ρ u (.makeTask scheduler cancelled unwrap callable k)) :
    cancelled = false ∧ unwrap = false ∧ ∃ rank, D.Fits ρ callable ∧
      D.GoesOn (ρ ++ [D.task rank none callable]) u (k ρ.length) ∧
      ∀ τ, D.price τ ρ u = 5 * τ.step + τ.call + D.price τ ρ callable +
        D.price τ (ρ ++ [D.task rank none callable]) (k ρ.length) := by
  cases h with
  | makeTask rank hcallable hk hprice => exact ⟨rfl, rfl, rank, hcallable, hk, hprice⟩

/-- The queue with one more callable. -/
theorem forall_mem_concat {c : ℕ × Option ℕ} {cs : List (ℕ × Option ℕ)} (hc : Reads ρ c.1 c.2) :
    ∀ c' ∈ cs ++ [c], c' ∈ cs ∨ Reads ρ c'.1 c'.2 := by
  intro c' hc'
  rcases List.mem_append.1 hc' with hc' | hc'
  · exact .inl hc'
  · exact .inr (List.mem_singleton.1 hc' ▸ hc)

/-- What a step does, with the plans for what it allocates. -/
structure Advances [Fintype T] (D : Discipline U V E) (ρ ρ' : List (Plan U V E))
    (s s' : State T U V E) : Prop where
  more : ρ <+: ρ'
  planned : D.Planned ρ' s'
  pays : ∀ τ : Tariff, ∃ n, 1 ≤ n ∧ (D.prices τ ρ').Pays n s s'

namespace Planned

section alloc

variable [ErrorTraits E] {act : U → Unit → Action U V E}

/-- Allocation of a task that is to run `u`. -/
theorem makeWork [DecidableEq T] [Fintype T] (hD : D.Sound act) (hw : WellFormed s)
    (h : D.Planned ρ s) (rank : ℕ) {parent : Option ℕ} {u : U} {work : Work U V E}
    (hkeeps : D.Keeps ρ (D.task rank parent u) parent u)
    (hworks : (D.task rank parent u).Works ρ (some work)) :
    let s₁ := { s with heap := update s.heap s.next { work := some work }, next := s.next + 1 }
    let ρ₁ := ρ ++ [D.task rank parent u]
    ρ <+: ρ₁ ∧ D.Planned ρ₁ s₁ ∧ ρ₁[s.next]? = some (D.task rank parent u) ∧
      ∀ τ, s₁.weight (D.prices τ ρ₁).supply = s.weight (D.prices τ ρ₁).supply := by
  intro s₁ ρ₁
  have hρ : ρ <+: ρ₁ := List.prefix_append _ _
  refine ⟨hρ, h.alloc hD hw (D.task rank parent u) rfl rfl rfl rfl rfl (fun _ => id) ?_ ?_ nofun,
    ?_, fun τ => supply_alloc s₁ rfl rfl rfl rfl rfl rfl⟩
  · intro parent' u' hu
    cases hu
    exact hkeeps.mono hD hρ
  · exact ⟨hworks.mono hρ, nofun, nofun, rfl⟩
  · rw [← h.length]
    exact List.getElem?_concat_length ..

/-- Allocation of a source. -/
theorem makeSource (hD : D.Sound act) (hw : WellFormed s) (h : D.Planned ρ s) {pl : Plan U V E}
    (hpl : pl.work = none) : D.Planned (ρ ++ [pl]) s.makeSource := by
  refine h.alloc hD hw pl rfl rfl rfl rfl rfl (fun _ => .tail _) ?_ ?_ fun _ => .head _
  · intro parent u hu
    rw [hpl] at hu
    cases hu
  · exact ⟨.bare hpl, nofun, nofun, rfl⟩

end alloc

variable {u k : U} {f g : Frame U V E} {rest : List (Frame U V E)}

/-- The code that goes on returns to the same call. -/
theorem isChain_goesOn (h : D.Planned ρ s) (hs : s.stack t = .user u :: rest)
    (hk : D.GoesOn ρ u k) : (Frame.user k :: rest).IsChain (D.Fitting ρ) := by
  have hc := h.calls t
  rw [hs] at hc
  refine hc.imp_head fun {g} hg => ?_
  cases g <;> try trivial
  exact fun pl hpl => hk.result.trans (hg pl hpl)

/-- A call on top of which nothing was asked is replaced by another one. -/
theorem isChain_replace (h : D.Planned ρ s) (hs : s.stack t = f :: rest)
    (hg : ∀ f', D.Fitting ρ g f') : (g :: rest).IsChain (D.Fitting ρ) :=
  List.isChain_cons.2 ⟨fun f' _ => hg f', h.rest hs⟩

/-- A payload whose work unwraps a task of a task is not planned. -/
theorem not_unwraps (h : D.Planned ρ s) {x source : ℕ} {parent : Option ℕ} (hx : Reads ρ x parent)
    (hwork : (s.heap x).work = some (.unwrap source)) : False := by
  obtain ⟨pl, u, hpl, -⟩ := hx
  have hworks := (h.payload x pl hpl).work
  rw [hwork] at hworks
  cases hworks

variable [DecidableEq T] [Fintype T]

/-! ### Steps of the task system -/

/-- A payload is completed, and its continuations are to be run. -/
theorem advances_completesPayload (h : D.Planned ρ s) (hw : WellFormed s) {x : ℕ}
    (hs : s.stack t = .doCompletion x :: rest) (hdone : (s.heap x).completed = false) :
    D.Advances ρ ρ s ((s.setPayload x ((s.heap x).cannibalized none)).setStack t
      (.runAll (s.heap x).continuation.span :: rest)) := by
  have hx := (hw.top hs).1
  obtain ⟨pl, hpl⟩ := h.exists_plan hx
  have hheld := h.payload x pl hpl
  have h₁ : D.Planned ρ (s.setPayload x ((s.heap x).cannibalized none)) := by
    refine h.write rfl rfl rfl rfl rfl rfl fun pl' _ hx' => ⟨hx'.work, hx'.result, fun c hc => ?_,
      rfl⟩
    simp [Payload.cannibalized] at hc
  refine ⟨List.prefix_rfl, h₁.move rfl rfl rfl rfl ?_ ?_ (fun _ => .inl) fun _ => .inl,
    fun τ => ⟨1, le_rfl, (D.prices τ ρ).pays_completesPayload hx hs hdone⟩⟩
  · refine List.forall_mem_cons.2 ⟨.inr fun c hc => ?_, WellFormed.forall_tail_mem_or hs⟩
    obtain ⟨-, hparent, -⟩ := (hw.payload x).stored c hc
    exact hparent ▸ hheld.stored c hc
  · exact h.isChain_replace hs fun f' => by cases f' <;> trivial

/-- Continuations are stored with the payload that they are to read. -/
theorem advances_stores (h : D.Planned ρ s) (hw : WellFormed s) {p : ℕ} {cs : List Continuation}
    (hs : s.stack t = .addContinuations p cs :: rest) :
    D.Advances ρ ρ s ((s.setPayload p
      { s.heap p with continuation := (s.heap p).continuation.append cs }).setStack t rest) := by
  have h₁ : D.Planned ρ (s.setPayload p
      { s.heap p with continuation := (s.heap p).continuation.append cs }) := by
    refine h.write rfl rfl rfl rfl rfl rfl fun pl' _ hx' => ⟨hx'.work, hx'.result, fun c hc => ?_,
      hx'.redirect⟩
    rw [ContinuationStorage.span_append, List.mem_append] at hc
    exact hc.elim (hx'.stored c) (h.top hs c)
  exact ⟨List.prefix_rfl, h₁.move rfl rfl rfl rfl (WellFormed.forall_tail_mem_or hs) (h.rest hs)
    (fun _ => .inl) fun _ => .inl,
    fun τ => ⟨2, by decide, (D.prices τ ρ).pays_stores (hw.top hs).1 hs⟩⟩

/-- The first of the continuations is handed to the inline scheduler. -/
theorem advances_handsInline (h : D.Planned ρ s) {c : Continuation} {cs : List Continuation}
    (hs : s.stack t = .runAll (c :: cs) :: rest) :
    D.Advances ρ ρ s ({ s with handed := c.continuation :: s.handed }.setStack t
      (.run c.continuation (some c.parent) :: .runAll cs :: rest)) := by
  have hreads := List.forall_mem_cons.1 (h.top hs)
  refine ⟨List.prefix_rfl, h.move rfl rfl rfl rfl ?_ ?_ (fun _ => .inl) fun _ => .inl,
    fun τ => ⟨2, by decide, (D.prices τ ρ).pays_handsInline hs⟩⟩
  · exact List.forall_mem_cons.2 ⟨.inr hreads.1, List.forall_mem_cons.2 ⟨.inr hreads.2,
      WellFormed.forall_tail_mem_or hs⟩⟩
  · exact List.isChain_cons_cons.2 ⟨trivial, h.isChain_replace hs fun f' => by
      cases f' <;> trivial⟩

/-- The first of the continuations is queued. -/
theorem advances_handsDispatcher (h : D.Planned ρ s) {c : Continuation} {cs : List Continuation}
    (hs : s.stack t = .runAll (c :: cs) :: rest) :
    D.Advances ρ ρ s ({ s with
      handed := c.continuation :: s.handed
      queue := s.queue ++ [(c.continuation, some c.parent)] }.setStack t (.runAll cs :: rest)) := by
  have hreads := List.forall_mem_cons.1 (h.top hs)
  refine ⟨List.prefix_rfl, h.move rfl rfl rfl rfl ?_ ?_ (forall_mem_concat hreads.1) fun _ => .inl,
    fun τ => ⟨1, le_rfl, (D.prices τ ρ).pays_handsDispatcher hs⟩⟩
  · exact List.forall_mem_cons.2 ⟨.inr hreads.2, WellFormed.forall_tail_mem_or hs⟩
  · exact h.isChain_replace hs fun f' => by cases f' <;> trivial

variable [ErrorTraits E] {act : U → Unit → Action U V E}

/-! ### Steps of user code -/

/-- The code of a thread returns. -/
theorem advances_mainReturns (h : D.Planned ρ s) (hD : D.Sound act) {r : Return V E}
    (hs : s.stack t = [.user u]) (ha : act u () = .ret r) :
    D.Advances ρ ρ s (s.setStack t []) := by
  have hfollows := hD.follows (h.top hs)
  rw [ha] at hfollows
  cases hfollows with
  | ret hout hprice =>
    exact ⟨List.prefix_rfl, h.move rfl rfl rfl rfl nofun .nil (fun _ => .inl) fun _ => .inl,
      fun τ => ⟨1, le_rfl, (D.prices τ ρ).pays_mainReturns hs (hprice τ)⟩⟩

/-- The code of a callable returns what is planned for its payload. -/
theorem advances_returns (h : D.Planned ρ s) (hD : D.Sound act) {x : ℕ} {r : Return V E}
    {y : Expected V E} (hs : s.stack t = .user u :: .doWork x :: rest) (ha : act u () = .ret r)
    (hr : outputWrapper r = some y) :
    D.Advances ρ ρ s ((s.setResult x y).setStack t (.doCompletion x :: rest)) := by
  have hfollows := hD.follows (h.top hs)
  rw [ha] at hfollows
  cases hfollows with
  | ret hout hprice =>
    have hy : D.result u = y := Option.some.inj (hout.symm.trans hr)
    have hresult : D.Planned ρ (s.setResult x y) := by
      refine h.write rfl rfl rfl rfl rfl rfl fun pl hpl hx => ⟨hx.work, fun z hz => ?_, hx.stored,
        hx.redirect⟩
      cases hz
      exact hy.symm.trans (h.below hs pl hpl)
    refine ⟨List.prefix_rfl, hresult.move rfl rfl rfl rfl ?_ ?_ (fun _ => .inl) fun _ => .inl,
      fun τ => ⟨1, le_rfl, (D.prices τ ρ).pays_returns hs (hprice τ)⟩⟩
    · exact List.forall_mem_cons.2 ⟨.inr trivial, fun f hf => .inl (by simp [hs, hf])⟩
    · exact (h.rest hs).imp_head fun _ => trivial

/-- The code reports something. -/
theorem advances_emits (h : D.Planned ρ s) (hD : D.Sound act) {r : Expected V E}
    (hs : s.stack t = .user u :: rest) (ha : act u () = .emit r k) :
    D.Advances ρ ρ s ({ s with emitted := s.emitted ++ [r] }.setStack t (.user k :: rest)) := by
  have hfollows := hD.follows (h.top hs)
  rw [ha] at hfollows
  cases hfollows with
  | emit hobs hk hprice =>
    refine ⟨List.prefix_rfl, h.move rfl rfl rfl rfl ?_ (h.isChain_goesOn hs hk) (fun _ => .inl) ?_,
      fun τ => ⟨1, le_rfl, (D.prices τ ρ).pays_emits hs (hprice τ)⟩⟩
    · exact List.forall_mem_cons.2 ⟨.inr hk.fits, WellFormed.forall_tail_mem_or hs⟩
    · intro z hz
      rcases List.mem_append.1 hz with hz | hz
      · exact .inl hz
      · exact .inr (List.mem_singleton.1 hz ▸ hobs)

/-- The code constructs a source. -/
theorem advances_constructs (h : D.Planned ρ s) (hD : D.Sound act) (hw : WellFormed s)
    {k : ℕ → U} (hs : s.stack t = .user u :: rest) (ha : act u () = .source k) :
    ∃ ρ', D.Advances ρ ρ' s (s.makeSource.setStack t (.user (k s.next) :: rest)) := by
  have hfollows := hD.follows (h.top hs)
  rw [ha] at hfollows
  cases hfollows with
  | source pl hpl hk hprice =>
    rw [h.length] at hk
    have hρ : ρ <+: ρ ++ [pl] := List.prefix_append _ _
    have h' := h.makeSource hD hw hpl
    refine ⟨ρ ++ [pl], hρ, h'.move rfl rfl rfl rfl ?_ (h'.isChain_goesOn hs hk) (fun _ => .inl)
      fun _ => .inl, fun τ => ⟨1, le_rfl, (D.prices τ (ρ ++ [pl])).pays_constructs hs ?_⟩⟩
    · exact List.forall_mem_cons.2 ⟨.inr hk.fits, WellFormed.forall_tail_mem_or hs⟩
    · have hcost := hprice τ
      rw [h.length, ← hD.price_mono τ hρ (h.top hs)] at hcost
      exact hcost

/-- The code completes a source with the result that is planned for it. -/
theorem advances_completes (h : D.Planned ρ s) (hD : D.Sound act) {p : ℕ} {r : Expected V E}
    {k : Except RuntimeError Unit → U} (hs : s.stack t = .user u :: rest)
    (ha : act u () = .complete p r k) :
    D.Advances ρ ρ s ((s.setResult p r).setStack t (.doCompletion p :: .completing k :: rest)) := by
  have hfollows := hD.follows (h.top hs)
  rw [ha] at hfollows
  cases hfollows with
  | @complete _ _ pl hp hpl hk hprice =>
    have hresult : D.Planned ρ (s.setResult p pl.result) := by
      refine h.write rfl rfl rfl rfl rfl rfl fun pl' hpl' hx => ⟨hx.work, fun z hz => ?_, hx.stored,
        hx.redirect⟩
      cases hz
      cases hp.symm.trans hpl'
      rfl
    have hchain : (Frame.completing k :: rest).IsChain (D.Fitting ρ) := by
      refine (h.isChain_goesOn hs hk).imp_head fun {g} hg => ?_
      cases g <;> trivial
    refine ⟨List.prefix_rfl, hresult.move rfl rfl rfl rfl ?_ ?_ (fun _ => .inl) fun _ => .inl,
      fun τ => ⟨1, le_rfl, (D.prices τ ρ).pays_completes hs (hprice τ)⟩⟩
    · exact List.forall_mem_cons.2 ⟨.inr trivial, List.forall_mem_cons.2 ⟨.inr hk.fits,
        WellFormed.forall_tail_mem_or hs⟩⟩
    · exact List.isChain_cons_cons.2 ⟨trivial, hchain⟩

/-- The code makes a task, and the thread runs it. -/
theorem advances_makeTaskInline (h : D.Planned ρ s) (hD : D.Sound act) (hw : WellFormed s)
    {cancelled unwrap : Bool} {callable : U} {k : ℕ → U} {toRun toReturn : ℕ}
    (hs : s.stack t = .user u :: rest)
    (ha : act u () = .makeTask .inlineScheduler cancelled unwrap callable k)
    (hf : Factory s (.start cancelled callable) unwrap s₁ toRun toReturn) :
    ∃ ρ', D.Advances ρ ρ' s (s₁.setStack t (.run toRun none :: .user (k toReturn) :: rest)) := by
  obtain ⟨rfl, rfl, rank, hcallable, hk, hprice⟩ := (ha ▸ hD.follows (h.top hs)).of_makeTask
  cases hf with
  | plain =>
    obtain ⟨hρ, h', hpl, hweight⟩ := h.makeWork hD hw rank ⟨hcallable, rfl, fun _ hq => by cases hq⟩
      (.start rfl)
    rw [h.length] at hk
    refine ⟨_, hρ, h'.move rfl rfl rfl rfl ?_ ?_ (fun _ => .inl) fun _ => .inl,
      fun τ => ⟨2, by decide, (D.prices τ _).pays_makeTaskInline hs .plain (m := 0) (hweight τ) ?_⟩⟩
    · exact List.forall_mem_cons.2 ⟨.inr ⟨_, callable, hpl, rfl⟩, List.forall_mem_cons.2
        ⟨.inr hk.fits, WellFormed.forall_tail_mem_or hs⟩⟩
    · exact List.isChain_cons_cons.2 ⟨trivial, h'.isChain_goesOn hs hk⟩
    · have hrun := run_of_plan D τ hpl rfl
      have hcost := hprice τ
      rw [h.length, ← hD.price_mono τ hρ (h.top hs), ← hD.price_mono τ hρ hcallable] at hcost
      simp [Tariff.total_succ, hrun]
      omega

/-- The code makes a task on a dispatcher. -/
theorem advances_makeTaskDispatcher (h : D.Planned ρ s) (hD : D.Sound act) (hw : WellFormed s)
    {cancelled unwrap : Bool} {callable : U} {k : ℕ → U} {toRun toReturn : ℕ}
    (hs : s.stack t = .user u :: rest)
    (ha : act u () = .makeTask .dispatcher cancelled unwrap callable k)
    (hf : Factory s (.start cancelled callable) unwrap s₁ toRun toReturn) :
    ∃ ρ', D.Advances ρ ρ' s ({ s₁ with queue := s₁.queue ++ [(toRun, none)] }.setStack t
      (.user (k toReturn) :: rest)) := by
  obtain ⟨rfl, rfl, rank, hcallable, hk, hprice⟩ := (ha ▸ hD.follows (h.top hs)).of_makeTask
  cases hf with
  | plain =>
    obtain ⟨hρ, h', hpl, hweight⟩ := h.makeWork hD hw rank ⟨hcallable, rfl, fun _ hq => by cases hq⟩
      (.start rfl)
    rw [h.length] at hk
    refine ⟨_, hρ, h'.move rfl rfl rfl rfl ?_ (h'.isChain_goesOn hs hk) ?_ fun _ => .inl,
      fun τ =>
      ⟨1, le_rfl, (D.prices τ _).pays_makeTaskDispatcher hs .plain (m := 0) (hweight τ) ?_⟩⟩
    · exact List.forall_mem_cons.2 ⟨.inr hk.fits, WellFormed.forall_tail_mem_or hs⟩
    · exact forall_mem_concat ⟨_, callable, hpl, rfl⟩
    · have hrun := run_of_plan D τ hpl rfl
      have hcost := hprice τ
      rw [h.length, ← hD.price_mono τ hρ (h.top hs), ← hD.price_mono τ hρ hcallable] at hcost
      simp [Tariff.total_succ, hrun]
      omega

/-- The code attaches a continuation to a task. -/
theorem advances_thenDo (h : D.Planned ρ s) (hD : D.Sound act) (hw : WellFormed s) {p : ℕ}
    {scheduler : Scheduler} {cancelled handlesExpected unwrap : Bool} {callable : Expected V E → U}
    {k : ℕ → U} {toRun toReturn : ℕ} (hs : s.stack t = .user u :: rest)
    (ha : act u () = .thenDo p scheduler cancelled handlesExpected unwrap callable k)
    (hf : Factory s (.continuation handlesExpected cancelled callable) unwrap s₁ toRun toReturn) :
    ∃ ρ', D.Advances ρ ρ' s ({ s₁ with registered := toRun :: s₁.registered }.setStack t
      (.addContinuations p [⟨p, toRun, scheduler⟩] :: .user (k toReturn) :: rest)) := by
  have hfollows := hD.follows (h.top hs)
  rw [ha] at hfollows
  cases hfollows with
  | @thenDo _ _ _ _ pl rank hp hrank hcallable hafter hk hprice =>
    cases hf with
    | plain =>
      have hkeeps : D.Keeps ρ (D.task rank (some p) (callable pl.result)) (some p)
          (callable pl.result) := by
        refine ⟨hcallable, rfl, fun q hq => ?_⟩
        cases hq
        exact ⟨pl, hp, hrank, hafter⟩
      obtain ⟨hρ, h', hpl, hweight⟩ := h.makeWork hD hw rank hkeeps (.continuation hp rfl)
      rw [h.length] at hk
      refine ⟨_, hρ, h'.move rfl rfl rfl rfl ?_ ?_ (fun _ => .inl) fun _ => .inl,
        fun τ => ⟨1, le_rfl, (D.prices τ _).pays_thenDo hs .plain (m := 0) (hweight τ) ?_⟩⟩
      · refine List.forall_mem_cons.2 ⟨.inr fun c hc => ?_, List.forall_mem_cons.2
          ⟨.inr hk.fits, WellFormed.forall_tail_mem_or hs⟩⟩
        obtain rfl := List.mem_singleton.1 hc
        exact ⟨_, _, hpl, rfl⟩
      · exact List.isChain_cons_cons.2 ⟨trivial, h'.isChain_goesOn hs hk⟩
      · have hrun := run_of_plan D τ hpl rfl
        have hcost := hprice τ
        rw [h.length, ← hD.price_mono τ hρ (h.top hs), ← hD.price_mono τ hρ hcallable] at hcost
        simp [Tariff.total_succ, hrun]
        omega

/-- The work of a payload that is run invokes its callable on the result that is planned. -/
theorem advances_invokes (h : D.Planned ρ s) {x : ℕ} {parent : Option ℕ}
    (hs : s.stack t = .run x parent :: rest) (hinput : WorkInput s x parent s₁ (.inr u)) :
    D.Advances ρ ρ s ({ s₁ with invoked := x :: s₁.invoked }.setStack t
      (.user u :: .doWork x :: rest)) := by
  obtain ⟨pl, u', hpl, hu', e⟩ := h.input (h.top hs) hinput
  cases e
  have hkeeps := h.keeps x pl parent u hpl hu'
  have h₁ := h.read hinput
  have hs₁ := hs
  rw [← hinput.sameRest.stack] at hs₁
  refine ⟨List.prefix_rfl, h₁.move rfl rfl rfl rfl ?_ ?_ (fun _ => .inl) fun _ => .inl,
    fun τ => ⟨1, le_rfl, (D.prices τ ρ).pays_invokes hs hinput (run_of_plan D τ hpl hu')⟩⟩
  · exact List.forall_mem_cons.2 ⟨.inr hkeeps.fits, List.forall_mem_cons.2 ⟨.inr trivial,
      WellFormed.forall_tail_mem_or hs₁⟩⟩
  · refine List.isChain_cons_cons.2 ⟨fun pl' hpl' => ?_, h₁.isChain_replace hs₁ fun f' => ?_⟩
    · cases hpl.symm.trans hpl'
      exact hkeeps.result
    · cases f' <;> trivial

/-- **Every step goes as planned and is paid for**, when no completion of a source is refused. -/
theorem advances (h : D.Planned ρ s) (hD : D.Sound act) (hw : WellFormed s)
    (hrefuse : ∀ p k rest, s.stack t = .doCompletion p :: .completing k :: rest →
      (s.heap p).completed = false) (hstep : Step act s t () s') :
    ∃ ρ', D.Advances ρ ρ' s s' := by
  cases hstep with
  | @idle i p parent hs hi =>
    refine ⟨ρ, List.prefix_rfl, h.move rfl rfl rfl rfl ?_ (.singleton _)
      (fun c hc => .inl (List.mem_of_mem_eraseIdx hc)) fun _ => .inl,
      fun τ => ⟨1, le_rfl, (D.prices τ ρ).pays_idle hs hi⟩⟩
    intro f hf
    obtain rfl := List.mem_singleton.1 hf
    exact .inr (h.queue _ (List.mem_of_getElem? hi))
  | mainReturns hs ha => exact ⟨ρ, h.advances_mainReturns hD hs ha⟩
  | returns hs ha hr => exact ⟨ρ, h.advances_returns hD hs ha hr⟩
  | emits hs ha => exact ⟨ρ, h.advances_emits hD hs ha⟩
  | constructs hs ha => exact h.advances_constructs hD hw hs ha
  | completes hs ha => exact ⟨ρ, h.advances_completes hD hs ha⟩
  | makeTaskInline hs ha hf => exact h.advances_makeTaskInline hD hw hs ha hf
  | makeTaskDispatcher hs ha hf => exact h.advances_makeTaskDispatcher hD hw hs ha hf
  | thenDo hs ha _ hf => exact h.advances_thenDo hD hw hs ha hf
  | ticksNothing hs ha | ticks hs ha =>
    have hfollows := hD.follows (h.top hs)
    rw [ha] at hfollows
    cases hfollows
  | @completed k rest hs =>
    refine ⟨ρ, List.prefix_rfl, h.move rfl rfl rfl rfl ?_ ?_ (fun _ => .inl) fun _ => .inl,
      fun τ => ⟨1, le_rfl, (D.prices τ ρ).pays_completed hs⟩⟩
    · exact List.forall_mem_cons.2 ⟨.inr (show D.Fits ρ (k (.ok ())) from h.top hs),
        WellFormed.forall_tail_mem_or hs⟩
    · have hc := h.calls t
      rw [hs] at hc
      refine hc.imp_head fun {g} hg => ?_
      cases g <;> trivial
  | runBare hs hwork => exact absurd hwork (hw.top hs).1.work
  | decides hs hinput =>
    obtain ⟨_, _, _, _, e⟩ := h.input (h.top hs) hinput
    cases e
  | invokes hs hinput => exact ⟨ρ, h.advances_invokes hs hinput⟩
  | unwrapsError hs hwork | unwrapsTask hs hwork => exact (h.not_unwraps (h.top hs) hwork).elim
  | unwrapped hs | collapses hs | unlocks hs => exact (h.top hs).elim
  | completesPayload hs _ hdone => exact ⟨ρ, h.advances_completesPayload hw hs hdone⟩
  | refuses hs _ hdone =>
    rw [hrefuse _ _ _ hs] at hdone
    cases hdone
  | ranAll hs =>
    exact ⟨ρ, List.prefix_rfl, h.move rfl rfl rfl rfl (WellFormed.forall_tail_mem_or hs) (h.rest hs)
      (fun _ => .inl) fun _ => .inl, fun τ => ⟨1, le_rfl, (D.prices τ ρ).pays_ranAll hs⟩⟩
  | handsInline hs => exact ⟨ρ, h.advances_handsInline hs⟩
  | handsDispatcher hs => exact ⟨ρ, h.advances_handsDispatcher hs⟩
  | addsNothing hs =>
    exact ⟨ρ, List.prefix_rfl, h.move rfl rfl rfl rfl (WellFormed.forall_tail_mem_or hs) (h.rest hs)
      (fun _ => .inl) fun _ => .inl, fun τ => ⟨2, by decide, (D.prices τ ρ).pays_addsNothing hs⟩⟩
  | @addsAlong p q cs rest hs _ _ hr =>
    obtain ⟨pl, hpl⟩ := h.exists_plan (hw.top hs).1
    rw [(h.payload p pl hpl).redirect] at hr
    cases hr
  | @addsLate p cs rest hs =>
    refine ⟨ρ, List.prefix_rfl, h.move rfl rfl rfl rfl ?_ ?_ (fun _ => .inl) fun _ => .inl,
      fun τ => ⟨1, le_rfl, (D.prices τ ρ).pays_addsLate hs⟩⟩
    · refine List.forall_mem_cons.2 ⟨.inr fun c hc => ?_, WellFormed.forall_tail_mem_or hs⟩
      rw [((hw.top hs).2 c hc).1]
      exact h.top hs c hc
    · exact h.isChain_replace hs fun f' => by cases f' <;> trivial
  | stores hs => exact ⟨ρ, h.advances_stores hw hs⟩

end Planned

end Discipline

end Arcana.Plans
