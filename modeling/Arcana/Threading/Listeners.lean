import Arcana.Threading.Cancellation

/-!
# Which listeners of a cancellation are called

With every ticket kept, each listener is called once: by `signal_cancelled`, in the reverse order of
the registrations, or by its own `add_listener` if that comes after the signal
(`listeners_run_once`). The proof follows the one call of `cancel` that signals through its stages
(`Stage`, `Follows`).

When tickets are destroyed, `signal_cancelled` still calls the copies it made. A listener is not
called after the destruction of its ticket in the runs in which none is destroyed while a copy of
its listener waits for its turn (`not_called_after`).

* `Timely` and `Kept` are the conditions on a step: no copy of the listener waits, and no ticket is
  destroyed.
* `Released` is the invariant of the runs with destructions, and `Released.step` its step lemma.
* `Stage` is how far the call of `cancel` that signals has come. `Follows` says that a state is at a
  stage, and `Follows.signal`, `Follows.deliver`, `Follows.invoke` and so on which step leads to
  which stage.
* `CalledOnce` is the invariant of the runs whose tickets are kept, and `CalledOnce.step` its step
  lemma.
* `not_called_after` and `listeners_run_once` are the results about runs, and `called_after` a run
  in which a listener is called after its ticket was destroyed.
-/

namespace Arcana.Threading.SourceState

open Foundations Containers

variable {ι F : Type*} [DecidableEq ι] {s s' : SourceState ι F} {i j : ι} {id : Int64}

section Stack

variable {stack : ι → List (Frame F)} (new rest : List (Frame F))

/-- A frame is new or was there before. -/
theorem mem_update (hrest : ∀ fr ∈ rest, fr ∈ stack i) {fr : Frame F}
    (h : fr ∈ Function.update stack i (new ++ rest) j) : j = i ∧ fr ∈ new ∨ fr ∈ stack j := by
  by_cases hj : j = i
  · subst hj
    rw [Function.update_self] at h
    exact (List.mem_append.1 h).imp (⟨rfl, ·⟩) (hrest fr)
  · rw [Function.update_of_ne hj] at h
    exact .inr h

/-- When a call returns, no frame is new. -/
theorem mem_pop {rest : List (Frame F)} (hrest : ∀ fr ∈ rest, fr ∈ stack i) {fr : Frame F}
    (h : fr ∈ Function.update stack i rest j) : fr ∈ stack j := by
  rcases mem_update [] rest hrest h with ⟨-, hmem⟩ | hmem
  · cases hmem
  · exact hmem

end Stack

/-! ## Destroyed tickets -/

/-- A ticket is destroyed while no copy of its listener waits to be called. -/
def Timely (s : SourceState ι F) (a : SourceAction ι F) : Prop :=
  ∀ i id, a = .destroy i id → ∀ j todo, .delivering todo ∈ s.stack j → id ∉ todo.map Prod.fst

/-- No listener was called after its ticket was destroyed, and none that is to be called is gone. -/
structure Released (s : SourceState ι F) : Prop where
  log : s.log.Pairwise fun a b => ∀ i id own, a = .destroyed id → b ≠ .invoked i id own
  todo : ∀ i todo, .delivering todo ∈ s.stack i → ∀ x ∈ todo, x.1 ∉ s.destroyed

/-- A step in which no ticket is destroyed. -/
theorem Released.congr (h : s.Released) (e : Event ι) {t : SourceState ι F}
    (new rest : List (Frame F)) (he : ∀ id, e.invokedId = some id → id ∉ s.destroyed)
    (he' : e.destroyedId = none)
    (hrest : ∀ fr ∈ rest, fr ∈ s.stack i)
    (hnew : ∀ todo, .delivering todo ∈ new → ∀ x ∈ todo, x.1 ∉ s.destroyed)
    (hstack : t.stack = Function.update s.stack i (new ++ rest) := by rfl)
    (hlog : t.log = s.log ++ [e] := by rfl) : t.Released := by
  constructor
  · rw [hlog, List.pairwise_append]
    refine ⟨h.log, List.pairwise_singleton _ _, fun a ha b hb => ?_⟩
    obtain rfl := List.mem_singleton.1 hb
    rintro i id own rfl rfl
    exact he id rfl (mem_destroyed.2 ha)
  · intro j todo htodo x hx
    rw [destroyed_append hlog, he']
    rw [hstack] at htodo
    simp only [Option.toList_none, List.append_nil]
    rcases mem_update new rest hrest htodo with ⟨-, hmem⟩ | hmem
    · exact hnew todo hmem x hx
    · exact h.todo j todo hmem x hx

/-- A step that nobody sees. -/
theorem Released.silent (h : s.Released) {t : SourceState ι F} (new rest : List (Frame F))
    (hrest : ∀ fr ∈ rest, fr ∈ s.stack i) (hnew : ∀ todo, .delivering todo ∉ new)
    (hstack : t.stack = Function.update s.stack i (new ++ rest) := by rfl)
    (hlog : t.log = s.log := by rfl) : t.Released := by
  constructor
  · rw [hlog]
    exact h.log
  · intro j todo htodo x hx
    rw [destroyed, hlog]
    rw [hstack] at htodo
    rcases mem_update new rest hrest htodo with ⟨-, hmem⟩ | hmem
    · exact absurd hmem (hnew todo)
    · exact h.todo j todo hmem x hx

theorem Released.step (hs : s.Sound) (h : s.Released) {a : SourceAction ι F} (htimely : s.Timely a)
    (hstep : Step s a s') : s'.Released := by
  cases hstep with
  | @add i id callback listeners hinsert =>
    refine h.congr (.registered i id) [_] _ (fun _ he => by cases he) rfl (fun _ hfr => hfr)
      fun todo htodo => ?_
    cases List.mem_singleton.1 htodo
  | cancelAgain hrequested => exact h
  | cancel hrequested =>
    refine h.silent [_] _ (fun _ hfr => hfr) fun todo htodo => ?_
    cases List.mem_singleton.1 htodo
  | @destroy i id listeners hid hremove =>
    constructor
    · refine List.pairwise_append.2 ⟨h.log, List.pairwise_singleton _ _, fun a ha b hb => ?_⟩
      obtain rfl := List.mem_singleton.1 hb
      exact fun _ _ _ _ => nofun
    · intro j todo htodo x hx
      rw [destroyed_append rfl]
      intro hmem
      rcases List.mem_append.1 hmem with hmem | hmem
      · exact h.todo j todo htodo x hx hmem
      · obtain rfl : x.1 = id := List.mem_singleton.1 hmem
        exact htimely i x.1 rfl j todo htodo (List.mem_map_of_mem hx)
  | @signal i rest hi =>
    refine h.congr (i := i) .signalled [_] rest (fun _ he => by cases he) rfl
      (fun _ hfr => hi ▸ .tail _ hfr) fun todo htodo => ?_
    cases List.mem_singleton.1 htodo
    intro x hx
    have hids : x.1 ∈ s.listeners.items.map Prod.fst := List.mem_map_of_mem (List.mem_reverse.1 hx)
    rw [hs.ids] at hids
    exact of_decide_eq_true (List.mem_filter.1 hids).2
  | @finish i rest hi =>
    exact h.congr (i := i) .cancelled [] rest (fun _ he => by cases he) rfl
      (fun _ hfr => hi ▸ .tail _ hfr) fun _ htodo => by cases htodo
  | @deliver i id listener todo rest hi =>
    have hcopy : .delivering ((id, listener) :: todo) ∈ s.stack i := hi ▸ .head _
    refine h.congr (i := i) (.invoked i id false) [_, _] rest (fun id' he => ?_) rfl
      (fun _ hfr => hi ▸ .tail _ hfr) fun todo' htodo => ?_
    · obtain rfl := Option.some.inj he
      exact h.todo i _ hcopy (id, listener) (.head _)
    · have htodo : todo' = todo := by simpa using htodo
      subst htodo
      exact fun x hx => h.todo i _ hcopy x (.tail _ hx)
  | @invoke i id copied rest hi =>
    have howed : id ∈ s.owed i := by
      rw [owed, hi]
      exact .head _
    refine h.congr (i := i) (.invoked i id true) [_, _] rest (fun id' he => ?_) rfl
      (fun _ hfr => hi ▸ .tail _ hfr) fun todo' htodo => ?_
    · obtain rfl := Option.some.inj he
      exact (hs.owing i id howed).2.2
    · simp at htodo
  | @handOut i id rest hi =>
    exact h.congr (i := i) (.returned id) [] rest (fun _ he => by cases he) rfl
      (fun _ hfr => hi ▸ .tail _ hfr) fun _ htodo => by cases htodo
  | @listened i id listener rest hi =>
    exact h.silent (i := i) [] rest (fun _ hfr => hi ▸ .tail _ hfr) fun _ htodo => by cases htodo

/-- **A listener is not called after its ticket was destroyed**, in every run in which no ticket is
destroyed while a copy of its listener waits for its turn in `signal_cancelled`. -/
theorem not_called_after (h : Reach step Timely ({} : SourceState ι F) s) :
    s.log.Pairwise fun a b => ∀ i id own, a = .destroyed id → b ≠ .invoked i id own := by
  have hs : s.Sound ∧ s.Released :=
    h.invariant (I := fun s => s.Sound ∧ s.Released) ⟨.initial, .nil, nofun⟩
      fun a l b ha hl hstep =>
      ⟨ha.1.step (step_sound hstep), ha.2.step ha.1 hl (step_sound hstep)⟩
  exact hs.2.log

/-- Whether a ticket may be destroyed: no copy waits in the stack of any thread given. -/
def timely (threads : List ι) (s : SourceState ι F) : SourceAction ι F → Bool
  | .destroy _ id => threads.all fun j => (s.stack j).all fun
    | .delivering todo => id ∉ todo.map Prod.fst
    | _ => true
  | _ => true

omit [DecidableEq ι] in
theorem timely_sound {threads : List ι} (hall : ∀ i, i ∈ threads) {a : SourceAction ι F}
    (h : s.timely threads a = true) : s.Timely a := by
  rintro i id rfl j todo htodo
  exact of_decide_eq_true (List.all_eq_true.1 (List.all_eq_true.1 h j (hall j)) _ htodo)

/-- A listener destroys the ticket of one that was called before it. -/
theorem not_called_after_called : ∃ s, Reach step Timely ({} : SourceState Unit ℕ) s ∧
    .destroyed 1 ∈ s.log ∧
    s.log.Pairwise fun a b => ∀ i id own, a = .destroyed id → b ≠ .invoked i id own := by
  have hrun : (runWhile (timely [()]) step ({} : SourceState Unit ℕ) [.addListener () 10, .go (),
      .addListener () 20, .go (), .cancel (), .go (), .go (), .go (), .go (), .destroy () 1, .go (),
      .go ()]).map (fun s => decide (.destroyed 1 ∈ s.log)) = some true := by decide
  obtain ⟨s, hreach, hdestroyed⟩ := exists_reach_of_runWhile
    (fun _ _ => timely_sound fun _ => List.mem_singleton.2 rfl) hrun
  exact ⟨s, hreach, of_decide_eq_true hdestroyed, not_called_after hreach⟩

/-- The listener added last is called first, and destroys the ticket of the other one. -/
theorem called_after : ∃ s, Reach step anyStep ({} : SourceState Unit ℕ) s ∧
    ¬s.log.Pairwise fun a b => ∀ i id own, a = .destroyed id → b ≠ .invoked i id own := by
  have hrun : (run step ({} : SourceState Unit ℕ) [.addListener () 10, .go (), .addListener () 20,
      .go (), .cancel (), .go (), .go (), .destroy () 0, .go (), .go ()]).map
      (fun s => s.log.drop 6) = some [.destroyed 0, .invoked () 0 false] := by decide
  obtain ⟨s, hreach, hlog⟩ := exists_reach_of_run hrun
  refine ⟨s, hreach, fun h => ?_⟩
  have hpair := List.drop_sublist 6 s.log
  rw [hlog] at hpair
  exact List.pairwise_iff_forall_sublist.1 h hpair () 0 false rfl rfl

/-! ## Kept tickets -/

/-- The listeners that were registered before the signal. -/
def early : List (Event ι) → List Int64
  | [] => []
  | .signalled :: _ => []
  | e :: log => e.registeredId.toList ++ early log

section Early

omit [DecidableEq ι]

theorem early_append_of_mem {l : List (Event ι)} (h : .signalled ∈ l) (l' : List (Event ι)) :
    early (l ++ l') = early l := by
  induction l with
  | nil => cases h
  | cons e l ih =>
    cases e with
    | signalled => rfl
    | _ =>
      have hl : .signalled ∈ l := by simpa using h
      simp only [List.cons_append, early, ih hl]

theorem early_append {l : List (Event ι)} (h : .signalled ∉ l) (l' : List (Event ι)) :
    early (l ++ l') = l.filterMap Event.registeredId ++ early l' := by
  induction l with
  | nil => rfl
  | cons e l ih =>
    obtain ⟨he, hl⟩ : .signalled ≠ e ∧ .signalled ∉ l := by simpa using h
    cases e with
    | signalled => exact absurd rfl he
    | _ => simp [early, ih hl, Event.registeredId, List.filterMap_cons]

theorem early_sublist (l : List (Event ι)) :
    (early l).Sublist (l.filterMap Event.registeredId) := by
  induction l with
  | nil => exact .slnil
  | cons e l ih =>
    cases e with
    | signalled => exact List.nil_sublist _
    | registered i id => exact ih.cons_cons id
    | _ => exact ih

/-- Before the signal, all listeners are early. -/
theorem early_eq (h : .signalled ∉ s.log) : early s.log = s.registered := by
  have hnil := early_append h []
  rwa [List.append_nil, early, List.append_nil] at hnil

end Early

/-- How far the call of `cancel` that signals has come, with its thread. -/
inductive Stage (ι F : Type*)
  | untouched
  | begun (i : ι)
  | delivering (i : ι) (todo : List (Int64 × F))
  | finished

namespace Stage

def requested : Stage ι F → Bool
  | .untouched => false
  | _ => true

def signaled : Stage ι F → Bool
  | .untouched | .begun _ => false
  | _ => true

/-- The listeners that are still to be called. -/
def todo : Stage ι F → List Int64
  | .delivering _ todo => todo.map Prod.fst
  | _ => []

/-- The frames of the call. -/
def frames : Stage ι F → ι → List (Frame F)
  | .begun i => Function.update (fun _ => []) i [.signalling]
  | .delivering i todo => Function.update (fun _ => []) i [.delivering todo]
  | _ => fun _ => []

end Stage

/-- The state is at a stage of the signal. -/
structure Follows (s : SourceState ι F) (stage : Stage ι F) : Prop where
  frames : (fun j => (s.stack j).filter Frame.isSignal) = stage.frames
  requested : s.requested = stage.requested
  signaled : s.signaled = stage.signaled
  signalled : .signalled ∈ s.log ↔ stage.signaled = true
  cancelled : .cancelled ∈ s.log ↔ stage = .finished
  order : stage.signaled = true →
    (early s.log).reverse = s.invoked.filter (· ∈ early s.log) ++ stage.todo
  before : stage.signaled = false → s.invoked = []

/-- Each listener is called by the one who is to call it, and what `add_listener` has returned was
called or is left to the signal. -/
structure CalledOnce (s : SourceState ι F) : Prop where
  kept : s.destroyed = []
  nodup : s.invoked.Nodup
  known : ∀ id ∈ s.invoked, id ∈ s.registered
  pending : ∀ i id copied, .adding id (some copied) ∈ s.stack i →
    s.signaled = true ∧ id ∉ early s.log ∧ id ∉ s.invoked
  called : ∀ i id, .adding id none ∈ s.stack i → id ∈ early s.log ∨ .invoked i id true ∈ s.log
  returned : ∀ id ∈ s.returned, id ∈ early s.log ∨
    ∃ i, .registered i id ∈ s.log ∧ .invoked i id true ∈ s.log
  own : ∀ i id own, .invoked i id own ∈ s.log → (own = false ↔ id ∈ early s.log)

section Log

omit [DecidableEq ι]

variable {t : SourceState ι F} {e : Event ι}

/-- An event that is no registration leaves the early listeners as they are. -/
theorem early_step (hlog : t.log = s.log ++ [e]) (he : e.registeredId = none) :
    early t.log = early s.log := by
  rw [hlog]
  by_cases h : .signalled ∈ s.log
  · exact early_append_of_mem h _
  · rw [early_append h, early_eq h, registered]
    cases e <;> simp_all [early, Event.registeredId]

theorem invoked_step (hlog : t.log = s.log ++ [e]) (he : e.invokedId = none) :
    t.invoked = s.invoked := by
  rw [invoked_append hlog, he]
  exact List.append_nil _

theorem mem_invoked : id ∈ s.invoked ↔ ∃ i own, .invoked i id own ∈ s.log := by
  constructor
  · intro h
    obtain ⟨e, he, hid⟩ := List.mem_filterMap.1 h
    cases e <;> simp [Event.invokedId] at hid
    rename_i i id' own
    exact ⟨i, own, hid ▸ he⟩
  · rintro ⟨i, own, h⟩
    exact List.mem_filterMap.2 ⟨_, h, rfl⟩

end Log

/-! ### The stages -/

/-- The frames of the signal, when one stack changes. -/
theorem frames_update {stack : ι → List (Frame F)} (frames : List (Frame F)) (i : ι) :
    (fun j => (Function.update stack i frames j).filter Frame.isSignal) =
      Function.update (fun j => (stack j).filter Frame.isSignal) i
        (frames.filter Frame.isSignal) := by
  funext j
  by_cases hj : j = i
  · rw [hj, Function.update_self, Function.update_self]
  · rw [Function.update_of_ne hj, Function.update_of_ne hj]

variable {stage : Stage ι F}

theorem Follows.frames_eq (h : s.Follows stage) (i : ι) :
    (s.stack i).filter Frame.isSignal = stage.frames i := congrFun h.frames i

/-- A stack that keeps its frames of the signal. -/
theorem Follows.frames_same (h : s.Follows stage) {frames : List (Frame F)}
    (hframes : frames.filter Frame.isSignal = (s.stack i).filter Frame.isSignal) :
    (fun j => (Function.update s.stack i frames j).filter Frame.isSignal) = stage.frames := by
  rw [frames_update, hframes, Function.update_eq_self, h.frames]

/-- A frame of the signal is the one of the stage. -/
theorem Follows.eq_begun (h : s.Follows stage) {rest : List (Frame F)}
    (hi : s.stack i = .signalling :: rest) : stage = .begun i := by
  have hmem : .signalling ∈ (s.stack i).filter Frame.isSignal :=
    List.mem_filter.2 ⟨hi ▸ .head _, rfl⟩
  rw [h.frames_eq] at hmem
  cases stage with
  | untouched => cases hmem
  | finished => cases hmem
  | begun j =>
    by_cases hij : i = j
    · rw [hij]
    · rw [Stage.frames, Function.update_of_ne hij] at hmem
      cases hmem
  | delivering j todo =>
    by_cases hij : i = j
    · rw [Stage.frames, hij, Function.update_self] at hmem
      cases List.mem_singleton.1 hmem
    · rw [Stage.frames, Function.update_of_ne hij] at hmem
      cases hmem

theorem Follows.eq_delivering (h : s.Follows stage) {todo : List (Int64 × F)}
    {rest : List (Frame F)}
    (hi : s.stack i = .delivering todo :: rest) : stage = .delivering i todo := by
  have hmem : .delivering todo ∈ (s.stack i).filter Frame.isSignal :=
    List.mem_filter.2 ⟨hi ▸ .head _, rfl⟩
  rw [h.frames_eq] at hmem
  cases stage with
  | untouched => cases hmem
  | finished => cases hmem
  | begun j =>
    by_cases hij : i = j
    · rw [Stage.frames, hij, Function.update_self] at hmem
      cases List.mem_singleton.1 hmem
    · rw [Stage.frames, Function.update_of_ne hij] at hmem
      cases hmem
  | delivering j todo' =>
    by_cases hij : i = j
    · rw [Stage.frames, hij, Function.update_self] at hmem
      cases List.mem_singleton.1 hmem
      rw [hij]
    · rw [Stage.frames, Function.update_of_ne hij] at hmem
      cases hmem

/-- The one call of `cancel` that signals goes on, and the frames of no other change. -/
theorem frames_go (frame : Frame F) (frames : List (Frame F)) {i : ι} {rest : List (Frame F)}
    (hframe : frame.isSignal = true)
    (h : (fun j => (s.stack j).filter Frame.isSignal) = Function.update (fun _ => []) i [frame])
    (hi : s.stack i = frame :: rest) :
    (fun j => (Function.update s.stack i (frames ++ rest) j).filter Frame.isSignal) =
      Function.update (fun _ => []) i (frames.filter Frame.isSignal) := by
  have hrest : rest.filter Frame.isSignal = [] := by
    have hself := congrFun h i
    rw [Function.update_self, hi, List.filter_cons_of_pos hframe, List.cons.injEq] at hself
    exact hself.2
  rw [frames_update, h, List.filter_append, hrest, List.append_nil, Function.update_idem]

/-- A step that is neither of the signal nor the call of a listener. -/
theorem Follows.quiet (h : s.Follows stage) {t : SourceState ι F} {e : Event ι}
    (frames : List (Frame F))
    (hregistered : e.registeredId = none) (hinvoked : e.invokedId = none)
    (hsignalled : e ≠ .signalled) (hcancelled : e ≠ .cancelled)
    (hframes : frames.filter Frame.isSignal = (s.stack i).filter Frame.isSignal)
    (hlog : t.log = s.log ++ [e]) (hstack : t.stack = Function.update s.stack i frames)
    (hrequested : t.requested = s.requested) (hsignaled : t.signaled = s.signaled) :
    t.Follows stage := by
  have hearly := early_step hlog hregistered
  have hsame := invoked_step hlog hinvoked
  constructor
  · rw [hstack]
    exact h.frames_same hframes
  · rw [hrequested, h.requested]
  · rw [hsignaled, h.signaled]
  · rw [hlog, List.mem_append, List.mem_singleton, or_iff_left hsignalled.symm, h.signalled]
  · rw [hlog, List.mem_append, List.mem_singleton, or_iff_left hcancelled.symm, h.cancelled]
  · rw [hearly, hsame]
    exact h.order
  · rw [hsame]
    exact h.before

theorem Follows.add (h : s.Follows stage) {listeners : TicketedCollection F} {copied : Option F} :
    ({ s with
      listeners
      stack := Function.update s.stack i (.adding id copied :: s.stack i)
      log := s.log ++ [.registered i id] } : SourceState ι F).Follows stage := by
  set t : SourceState ι F :=
    { s with
      listeners
      stack := Function.update s.stack i (.adding id copied :: s.stack i)
      log := s.log ++ [.registered i id] } with ht
  have hsame : t.invoked = s.invoked := invoked_step (e := .registered i id) rfl rfl
  constructor
  · exact h.frames_same rfl
  · exact h.requested
  · exact h.signaled
  · rw [ht]
    simpa using h.signalled
  · rw [ht]
    simpa using h.cancelled
  · intro hsignaled
    rw [hsame, ht, early_append_of_mem (h.signalled.2 hsignaled)]
    exact h.order hsignaled
  · rw [hsame]
    exact h.before

theorem Follows.cancel (h : s.Follows stage) (hrequested : s.requested = false) :
    ({ s with requested := true, stack := Function.update s.stack i (.signalling :: s.stack i) } :
      SourceState ι F).Follows (.begun i) := by
  obtain rfl : stage = .untouched := by
    have hstage := h.requested
    rw [hrequested] at hstage
    cases stage <;> first | rfl | cases hstage
  constructor
  · have hnone : (s.stack i).filter Frame.isSignal = [] := h.frames_eq i
    rw [frames_update, h.frames, List.filter_cons_of_pos rfl, hnone]
    rfl
  · rfl
  · exact h.signaled
  · exact h.signalled
  · exact h.cancelled.trans (iff_of_false nofun nofun)
  · nofun
  · exact h.before

/-- The signal takes a copy of all listeners that were registered. -/
theorem Follows.signal (hs : s.Sound) (hkept : s.destroyed = []) (h : s.Follows stage)
    {rest : List (Frame F)} (hi : s.stack i = .signalling :: rest) :
    ({ s with
      signaled := true
      stack := Function.update s.stack i (.delivering s.listeners.items.reverse :: rest)
      log := s.log ++ [.signalled] } : SourceState ι F).Follows
        (.delivering i s.listeners.items.reverse) := by
  obtain rfl := h.eq_begun hi
  have hunsignalled : .signalled ∉ s.log := fun hmem => by cases h.signalled.1 hmem
  set t : SourceState ι F :=
    { s with
      signaled := true
      stack := Function.update s.stack i (.delivering s.listeners.items.reverse :: rest)
      log := s.log ++ [.signalled] } with ht
  have hearly : early t.log = s.registered :=
    (early_step (s := s) (e := .signalled) rfl rfl).trans (early_eq hunsignalled)
  have hsame : t.invoked = s.invoked := invoked_step (e := .signalled) rfl rfl
  constructor
  · exact frames_go .signalling [.delivering s.listeners.items.reverse] rfl h.frames hi
  · exact h.requested
  · rfl
  · simp [ht, Stage.signaled]
  · refine iff_of_false (fun hmem => ?_) nofun
    rw [ht] at hmem
    have hcancelled : .cancelled ∈ s.log := by simpa using hmem
    cases h.cancelled.1 hcancelled
  · intro _
    have hids := hs.ids
    rw [hkept] at hids
    rw [hearly, hsame, h.before rfl]
    simp only [Stage.todo, List.map_reverse, hids]
    simp
  · nofun

theorem Follows.finish (h : s.Follows stage) {rest : List (Frame F)}
    (hi : s.stack i = .delivering [] :: rest) :
    ({ s with stack := Function.update s.stack i rest, log := s.log ++ [.cancelled] } :
      SourceState ι F).Follows .finished := by
  obtain rfl := h.eq_delivering hi
  set t : SourceState ι F :=
    { s with stack := Function.update s.stack i rest, log := s.log ++ [.cancelled] } with ht
  have hearly : early t.log = early s.log := early_step (e := .cancelled) rfl rfl
  have hsame : t.invoked = s.invoked := invoked_step (e := .cancelled) rfl rfl
  constructor
  · have hframes := frames_go (.delivering []) [] rfl h.frames hi
    refine hframes.trans ?_
    funext j
    by_cases hj : j = i
    · rw [hj, Function.update_self]
      rfl
    · rw [Function.update_of_ne hj]
      rfl
  · exact h.requested
  · exact h.signaled
  · rw [ht]
    simpa [Stage.signaled] using h.signalled
  · simp [ht]
  · rw [hearly, hsame]
    exact h.order
  · nofun

/-- The loop calls the next listener in the reverse order of the registrations. -/
theorem Follows.deliver (h : s.Follows stage) {listener : F} {todo : List (Int64 × F)}
    {rest : List (Frame F)} (hi : s.stack i = .delivering ((id, listener) :: todo) :: rest) :
    id ∈ early s.log ∧ ({ s with
      stack := Function.update s.stack i (.listening id listener :: .delivering todo :: rest)
      log := s.log ++ [.invoked i id false] } : SourceState ι F).Follows (.delivering i todo) := by
  obtain rfl := h.eq_delivering hi
  have horder := h.order rfl
  have hid : id ∈ early s.log := by
    rw [← List.mem_reverse, horder]
    exact List.mem_append_right _ (.head _)
  set t : SourceState ι F :=
    { s with
      stack := Function.update s.stack i (.listening id listener :: .delivering todo :: rest)
      log := s.log ++ [.invoked i id false] } with ht
  have hearly : early t.log = early s.log := early_step (e := .invoked i id false) rfl rfl
  have hinvoked : t.invoked = s.invoked ++ [id] :=
    invoked_append (s := s) (e := .invoked i id false) rfl
  refine ⟨hid, ?_, h.requested, h.signaled, ?_, ?_, fun _ => ?_, nofun⟩
  · exact frames_go (.delivering _) [.listening id listener, .delivering todo] rfl h.frames
      hi
  · rw [ht]
    simpa [Stage.signaled] using h.signalled
  · refine (iff_of_eq ?_).trans (h.cancelled.trans (iff_of_false nofun nofun))
    simp [ht]
  · rw [hearly, hinvoked, horder, List.filter_append]
    simp [Stage.todo, hid]

theorem Follows.invoke (h : s.Follows stage) {copied : F} {rest : List (Frame F)}
    (hi : s.stack i = .adding id (some copied) :: rest) (hsignaled : s.signaled = true)
    (hid : id ∉ early s.log) :
    ({ s with
      stack := Function.update s.stack i (.listening id copied :: .adding id none :: rest)
      log := s.log ++ [.invoked i id true] } : SourceState ι F).Follows stage := by
  set t : SourceState ι F :=
    { s with
      stack := Function.update s.stack i (.listening id copied :: .adding id none :: rest)
      log := s.log ++ [.invoked i id true] } with ht
  have hearly : early t.log = early s.log := early_step (e := .invoked i id true) rfl rfl
  have hinvoked : t.invoked = s.invoked ++ [id] :=
    invoked_append (s := s) (e := .invoked i id true) rfl
  constructor
  · exact h.frames_same (by rw [hi]; rfl)
  · exact h.requested
  · exact h.signaled
  · rw [ht]
    simpa using h.signalled
  · rw [ht]
    simpa using h.cancelled
  · intro hstage
    rw [hearly, hinvoked, List.filter_append, h.order hstage]
    simp [hid]
  · intro hstage
    rw [h.signaled, hstage] at hsignaled
    cases hsignaled

/-- What the loop has still to call was not called. -/
theorem Follows.notMem_of_todo (h : s.Follows stage) (hs : s.Sound) {listener : F}
    {todo : List (Int64 × F)} {rest : List (Frame F)}
    (hi : s.stack i = .delivering ((id, listener) :: todo) :: rest) : id ∉ s.invoked := by
  intro hmem
  obtain rfl := h.eq_delivering hi
  have hid := (h.deliver hi).1
  have hnodup : (early s.log).reverse.Nodup :=
    List.nodup_reverse.2 (hs.nodup_registered.sublist (early_sublist s.log))
  rw [h.order rfl, List.nodup_append] at hnodup
  have hcalled : id ∈ s.invoked.filter (· ∈ early s.log) :=
    List.mem_filter.2 ⟨hmem, decide_eq_true hid⟩
  exact hnodup.2.2 id hcalled id (.head _) rfl

/-! ### The calls -/

omit [DecidableEq ι] in
/-- A step with an event by which nobody is called. -/
theorem CalledOnce.congr (h : s.CalledOnce) (e : Event ι) {t : SourceState ι F}
    (hinvoked : e.invokedId = none) (hdestroyed : e.destroyedId = none)
    (hlog : t.log = s.log ++ [e]) (hsignaled : s.signaled = true → t.signaled = true)
    (hearly : ∀ id, id ∈ early s.log → id ∈ early t.log)
    (hlate : s.invoked ≠ [] ∨ s.signaled = true → early t.log = early s.log)
    (hpending : ∀ i id copied, .adding id (some copied) ∈ t.stack i →
      .adding id (some copied) ∈ s.stack i ∨ t.signaled = true ∧ id ∉ early t.log ∧
      id ∉ s.registered)
    (hcalled : ∀ i id, .adding id none ∈ t.stack i → .adding id none ∈ s.stack i ∨ id ∈ early t.log)
    (hreturned : ∀ id ∈ e.returnedId, id ∈ early s.log ∨
      ∃ i, .registered i id ∈ s.log ∧ .invoked i id true ∈ s.log) : t.CalledOnce := by
  have hsame := invoked_step hlog hinvoked
  have hmem {e' : Event ι} (he' : e' ∈ s.log) : e' ∈ t.log := hlog ▸ List.mem_append_left _ he'
  constructor
  · rw [destroyed_append hlog, hdestroyed, h.kept]
    rfl
  · rw [hsame]
    exact h.nodup
  · intro id hid
    rw [hsame] at hid
    rw [registered_append hlog]
    exact List.mem_append_left _ (h.known id hid)
  · intro i id copied hi
    rw [hsame]
    rcases hpending i id copied hi with hi | ⟨hset, hnot, hnew⟩
    · obtain ⟨hset, hnot, hinv⟩ := h.pending i id copied hi
      exact ⟨hsignaled hset, hlate (.inr hset) ▸ hnot, hinv⟩
    · exact ⟨hset, hnot, fun hinv => hnew (h.known id hinv)⟩
  · intro i id hi
    rcases hcalled i id hi with hi | hid
    · exact (h.called i id hi).imp (hearly id) hmem
    · exact .inl hid
  · intro id hid
    have hold : id ∈ early s.log ∨ ∃ i, .registered i id ∈ s.log ∧ .invoked i id true ∈ s.log := by
      rw [returned_append hlog] at hid
      rcases List.mem_append.1 hid with hid | hid
      · exact h.returned id hid
      · exact hreturned id (Option.mem_toList.1 hid)
    exact hold.imp (hearly id) fun ⟨i, hi⟩ => ⟨i, hi.imp hmem hmem⟩
  · intro i id own hi
    have hold : .invoked i id own ∈ s.log := by
      rw [hlog] at hi
      rcases List.mem_append.1 hi with hi | hi
      · exact hi
      · obtain rfl := List.mem_singleton.1 hi
        cases hinvoked
    rw [hlate (.inl (List.ne_nil_of_mem (mem_invoked.2 ⟨i, own, hold⟩)))]
    exact h.own i id own hold

omit [DecidableEq ι] in
/-- A listener is called, by the one who is to call it. -/
theorem CalledOnce.call (h : s.CalledOnce) {t : SourceState ι F} {own : Bool}
    (hlog : t.log = s.log ++ [.invoked i id own]) (hsignaled : t.signaled = s.signaled)
    (hid : id ∈ s.registered) (hnot : id ∉ s.invoked) (hown : own = false ↔ id ∈ early s.log)
    (hpending : ∀ j id' copied, .adding id' (some copied) ∈ t.stack j →
      .adding id' (some copied) ∈ s.stack j ∧ id' ≠ id)
    (hcalled : ∀ j id', .adding id' none ∈ t.stack j →
      .adding id' none ∈ s.stack j ∨ j = i ∧ id' = id ∧ own = true) : t.CalledOnce := by
  have hearly : early t.log = early s.log := early_step hlog rfl
  have hinvoked : t.invoked = s.invoked ++ [id] := invoked_append hlog
  have hmem {e' : Event ι} (he' : e' ∈ s.log) : e' ∈ t.log := hlog ▸ List.mem_append_left _ he'
  constructor
  · rw [destroyed_append hlog, h.kept]
    rfl
  · rw [hinvoked, List.nodup_append]
    refine ⟨h.nodup, by simp, ?_⟩
    rintro a ha b hb rfl
    obtain rfl := List.mem_singleton.1 hb
    exact hnot ha
  · intro a ha
    rw [hinvoked] at ha
    rw [registered_append hlog]
    refine List.mem_append_left _ ?_
    rcases List.mem_append.1 ha with ha | ha
    · exact h.known a ha
    · obtain rfl := List.mem_singleton.1 ha
      exact hid
  · intro j a copied hj
    obtain ⟨hj, hne⟩ := hpending j a copied hj
    obtain ⟨hset, hlate, hinv⟩ := h.pending j a copied hj
    rw [hsignaled, hearly, hinvoked, List.mem_append, List.mem_singleton, not_or]
    exact ⟨hset, hlate, hinv, hne⟩
  · intro j a hj
    rw [hearly]
    rcases hcalled j a hj with hj | ⟨rfl, rfl, rfl⟩
    · exact (h.called j a hj).imp_right hmem
    · exact .inr (by simp [hlog])
  · intro a ha
    rw [returned_append hlog] at ha
    rw [hearly]
    simp only [Event.returnedId, Option.toList_none, List.append_nil] at ha
    exact (h.returned a ha).imp_right fun ⟨j, hj⟩ => ⟨j, hj.imp hmem hmem⟩
  · intro j a own' hj
    rw [hearly]
    rw [hlog] at hj
    rcases List.mem_append.1 hj with hj | hj
    · exact h.own j a own' hj
    · cases List.mem_singleton.1 hj
      exact hown

omit [DecidableEq ι] in
/-- A step that nobody sees. -/
theorem CalledOnce.silent (h : s.CalledOnce) {t : SourceState ι F}
    (hadding : ∀ i id copied, .adding id copied ∈ t.stack i → .adding id copied ∈ s.stack i)
    (hlog : t.log = s.log := by rfl) (hsignaled : t.signaled = s.signaled := by rfl) :
    t.CalledOnce := by
  constructor
  · rw [destroyed, hlog]
    exact h.kept
  · rw [invoked, hlog]
    exact h.nodup
  · rw [invoked, registered, hlog]
    exact h.known
  · intro i id copied hi
    rw [hsignaled, invoked, hlog]
    exact h.pending i id copied (hadding i id _ hi)
  · intro i id hi
    rw [hlog]
    exact h.called i id (hadding i id _ hi)
  · rw [SourceState.returned, hlog]
    exact h.returned
  · rw [hlog]
    exact h.own

theorem CalledOnce.add (hf : s.Follows stage) (h : s.CalledOnce)
    {listeners : TicketedCollection F} {callback : F} (hid : id ∉ s.registered) :
    ({ s with
      listeners
      stack := Function.update s.stack i
        (.adding id (if s.signaled then some callback else none) :: s.stack i)
      log := s.log ++ [.registered i id] } : SourceState ι F).CalledOnce := by
  have hnot : id ∉ early s.log := fun hmem => hid ((early_sublist s.log).subset hmem)
  rcases Bool.eq_false_or_eq_true s.signaled with hset | hset
  · have hsignalled : .signalled ∈ s.log := hf.signalled.2 (hf.signaled ▸ hset)
    have hearly := early_append_of_mem hsignalled [.registered i id]
    refine h.congr (.registered i id) rfl rfl rfl (fun _ => hset) (fun a ha => hearly ▸ ha)
      (fun _ => hearly) ?_ ?_ nofun
    · intro j a copied hj
      rcases mem_update [_] _ (fun _ hfr => hfr) hj with ⟨-, hj⟩ | hj
      · obtain ⟨rfl, -⟩ := Frame.adding.inj (List.mem_singleton.1 hj)
        exact .inr ⟨hset, hearly ▸ hnot, hid⟩
      · exact .inl hj
    · intro j a hj
      rcases mem_update [_] _ (fun _ hfr => hfr) hj with ⟨-, hj⟩ | hj
      · obtain ⟨-, hcopied⟩ := Frame.adding.inj (List.mem_singleton.1 hj)
        rw [hset] at hcopied
        cases hcopied
      · exact .inl hj
  · have hstage : stage.signaled = false := hf.signaled ▸ hset
    have hsignalled : .signalled ∉ s.log := by
      rw [hf.signalled, hstage]
      exact Bool.false_ne_true
    have hearly : early (s.log ++ [.registered i id]) = early s.log ++ [id] := by
      rw [early_append hsignalled, early_eq hsignalled]
      rfl
    have hunset : ¬s.signaled = true := Bool.eq_false_iff.1 hset
    refine h.congr (.registered i id) rfl rfl rfl (fun hs => absurd hs hunset)
      (fun a ha => ?_) ?_ ?_ ?_ nofun
    · rw [hearly]
      exact List.mem_append_left _ ha
    · rintro (hne | hs)
      · exact absurd (hf.before hstage) hne
      · exact absurd hs hunset
    · intro j a copied hj
      rcases mem_update [_] _ (fun _ hfr => hfr) hj with ⟨-, hj⟩ | hj
      · obtain ⟨-, hcopied⟩ := Frame.adding.inj (List.mem_singleton.1 hj)
        rw [hset] at hcopied
        cases hcopied
      · exact .inl hj
    · intro j a hj
      rcases mem_update [_] _ (fun _ hfr => hfr) hj with ⟨-, hj⟩ | hj
      · obtain ⟨rfl, -⟩ := Frame.adding.inj (List.mem_singleton.1 hj)
        exact .inr (by simp [hearly])
      · exact .inl hj

/-- The listener that its own `add_listener` calls. -/
theorem CalledOnce.invoke (hs : s.Sound) (h : s.CalledOnce) {copied : F} {rest : List (Frame F)}
    (hi : s.stack i = .adding id (some copied) :: rest) :
    ({ s with
      stack := Function.update s.stack i (.listening id copied :: .adding id none :: rest)
      log := s.log ++ [.invoked i id true] } : SourceState ι F).CalledOnce := by
  obtain ⟨-, hlate, hnot⟩ := h.pending i id copied (hi ▸ .head _)
  have howed : s.owed i = id :: rest.filterMap Frame.addingId := by
    rw [owed, hi]
    rfl
  have hnodup := hs.nodup i
  rw [howed, List.nodup_cons] at hnodup
  have hregistered := (hs.owing i id (howed ▸ .head _)).1
  -- no other frame has the id
  have hother (j : ι) (c : Option F) (hj : .adding id c ∈ rest ∨ j ≠ i ∧ .adding id c ∈ s.stack j) :
      False := by
    rcases hj with hj | ⟨hne, hj⟩
    · exact hnodup.1 (List.mem_filterMap.2 ⟨_, hj, rfl⟩)
    · have hj' : id ∈ s.owed j := List.mem_filterMap.2 ⟨_, hj, rfl⟩
      exact hne (hs.owner j i id (hs.owing j id hj').1 hregistered)
  refine h.call rfl rfl (mem_registered.2 ⟨i, hregistered⟩) hnot ?_ ?_ ?_
  · exact iff_of_false (by simp) hlate
  · intro j a c hj
    dsimp only at hj
    by_cases hji : j = i
    · subst hji
      rw [Function.update_self] at hj
      have hrest : .adding a (some c) ∈ rest := by simpa using hj
      refine ⟨hi ▸ .tail _ hrest, ?_⟩
      rintro rfl
      exact hother j _ (.inl hrest)
    · rw [Function.update_of_ne hji] at hj
      refine ⟨hj, ?_⟩
      rintro rfl
      exact hother j _ (.inr ⟨hji, hj⟩)
  · intro j a hj
    have hrest : ∀ fr ∈ rest, fr ∈ s.stack i := fun _ hfr => hi ▸ .tail _ hfr
    rcases mem_update [.listening id copied, .adding id none] rest hrest hj with
        ⟨rfl, hnew⟩ | hold
    · obtain rfl : a = id := by simpa using hnew
      exact .inr ⟨rfl, rfl, rfl⟩
    · exact .inl hold

theorem CalledOnce.step (hs : s.Sound) (hf : s.Follows stage) (h : s.CalledOnce)
    {a : SourceAction ι F} (ha : ∀ i id, a ≠ .destroy i id) (hstep : Step s a s') :
    s'.CalledOnce ∧ ∃ stage, s'.Follows stage := by
  cases hstep with
  | @add i id callback listeners hinsert =>
    obtain ⟨rfl, -, -⟩ := TicketedCollection.insert_eq hinsert
    exact ⟨h.add hf hs.fresh, stage, hf.add⟩
  | cancelAgain hrequested => exact ⟨h, stage, hf⟩
  | @cancel i hrequested =>
    refine ⟨h.silent fun j id copied hj => ?_, _, hf.cancel hrequested⟩
    rcases mem_update [_] _ (fun _ hfr => hfr) hj with ⟨-, hj⟩ | hj
    · cases List.mem_singleton.1 hj
    · exact hj
  | destroy hid hremove => exact absurd rfl (ha _ _)
  | @signal i rest hi =>
    refine ⟨h.congr .signalled rfl rfl rfl (fun _ => rfl) (fun a ha => ?_) (fun _ => ?_) ?_ ?_
      (fun _ ha => by cases ha), _,
      hf.signal hs h.kept hi⟩
    · rwa [early_step (s := s) (e := .signalled) rfl rfl]
    · exact early_step (s := s) (e := .signalled) rfl rfl
    · intro j a copied hj
      rcases mem_update [_] _ (fun _ hfr => hi ▸ .tail _ hfr) hj with ⟨-, hj⟩ | hj
      · cases List.mem_singleton.1 hj
      · exact .inl hj
    · intro j a hj
      rcases mem_update [_] _ (fun _ hfr => hi ▸ .tail _ hfr) hj with ⟨-, hj⟩ | hj
      · cases List.mem_singleton.1 hj
      · exact .inl hj
  | @finish i rest hi =>
    have hkeep (j : ι) (fr : Frame F) : fr ∈ Function.update s.stack i rest j → fr ∈ s.stack j :=
      mem_pop fun _ hfr => hi ▸ .tail _ hfr
    have hearly : early (s.log ++ [.cancelled]) = early s.log :=
      early_step (s := s) (t := { s with log := s.log ++ [.cancelled] }) (e := .cancelled) rfl rfl
    exact ⟨h.congr .cancelled rfl rfl rfl id (fun a ha => hearly ▸ ha) (fun _ => hearly)
      (fun j a c hj => .inl (hkeep j _ hj)) (fun j a hj => .inl (hkeep j _ hj))
      (fun _ ha => by cases ha), _,
      hf.finish hi⟩
  | @deliver i id listener todo rest hi =>
    obtain ⟨hid, hf'⟩ := hf.deliver hi
    have hrest : ∀ fr ∈ rest, fr ∈ s.stack i := fun _ hfr => hi ▸ .tail _ hfr
    have hkeep (j : ι) (a : Int64) (c : Option F) (hj : .adding a c ∈ Function.update s.stack i
        (.listening id listener :: .delivering todo :: rest) j) : .adding a c ∈ s.stack j := by
      rcases mem_update [.listening id listener, .delivering todo] rest hrest hj with ⟨-, hj⟩ | hj
      · simp at hj
      · exact hj
    refine ⟨h.call rfl rfl ((early_sublist s.log).subset hid) ?_ (iff_of_true rfl hid) ?_
      ?_, _, hf'⟩
    · exact hf.notMem_of_todo hs hi
    · intro j a c hj
      refine ⟨hkeep j a _ hj, ?_⟩
      rintro rfl
      exact (h.pending j a c (hkeep j a _ hj)).2.1 hid
    · exact fun j a hj => .inl (hkeep j a _ hj)
  | @invoke i id copied rest hi =>
    obtain ⟨hset, hlate, -⟩ := h.pending i id copied (hi ▸ .head _)
    exact ⟨h.invoke hs hi, stage, hf.invoke hi hset hlate⟩
  | @handOut i id rest hi =>
    have hkeep (j : ι) (fr : Frame F) : fr ∈ Function.update s.stack i rest j → fr ∈ s.stack j :=
      mem_pop fun _ hfr => hi ▸ .tail _ hfr
    have hearly : early (s.log ++ [.returned id]) = early s.log :=
      early_step (s := s) (t := { s with log := s.log ++ [.returned id] })
        (e := .returned id) rfl rfl
    have howed : id ∈ s.owed i := by
      rw [owed, hi]
      exact .head _
    refine ⟨h.congr (.returned id) rfl rfl rfl (fun hset => hset) (fun a ha => hearly ▸ ha)
      (fun _ => hearly) (fun j a c hj => .inl (hkeep j _ hj)) (fun j a hj => .inl (hkeep j _ hj))
      fun a ha => ?_, stage, hf.quiet (i := i) (e := .returned id) rest rfl rfl (by simp) (by simp)
        (by rw [hi]; rfl) rfl rfl rfl rfl⟩
    obtain rfl : a = id := (Option.some.inj ha).symm
    exact (h.called i a (hi ▸ .head _)).imp_right fun hinv => ⟨i, (hs.owing i a howed).1, hinv⟩
  | @listened i id listener rest hi =>
    have hkeep (j : ι) (fr : Frame F) : fr ∈ Function.update s.stack i rest j → fr ∈ s.stack j :=
      mem_pop fun _ hfr => hi ▸ .tail _ hfr
    refine ⟨h.silent fun j a c hj => hkeep j _ hj, stage, ?_⟩
    exact { hf with frames := hf.frames_same (by rw [hi]; rfl) }

/-- No ticket is destroyed. -/
def Kept (_ : SourceState ι F) (a : SourceAction ι F) : Prop := ∀ i id, a ≠ .destroy i id

/-- **Each listener is called once, in the promised order**, in every run in which the tickets are
kept: none is called twice, and each one was called when its `add_listener` and the first `cancel`
have returned; those registered before the signal are called by it, the last one first; one that is
added after it is called by its own `add_listener`; and once a `cancel` was made, another one does
nothing. -/
theorem listeners_run_once (h : Reach step Kept ({} : SourceState ι F) s) :
    s.invoked.Nodup ∧
    (∀ id ∈ s.returned, .cancelled ∈ s.log → id ∈ s.invoked) ∧
    (.signalled ∉ s.log → s.invoked = []) ∧
    s.invoked.filter (· ∈ early s.log) <+: (early s.log).reverse ∧
    (∀ i id own, .invoked i id own ∈ s.log → (own = false ↔ id ∈ early s.log)) ∧
    (∀ id ∈ s.returned, .signalled ∈ s.log → id ∉ early s.log →
      ∃ i, .registered i id ∈ s.log ∧ .invoked i id true ∈ s.log) ∧
    ∀ i s', s.requested = true → s.step (.cancel i) = some s' → s' = s := by
  have hinit : ({} : SourceState ι F).Sound ∧ ({} : SourceState ι F).CalledOnce ∧
      ∃ stage, ({} : SourceState ι F).Follows stage :=
    ⟨.initial, ⟨rfl, .nil, nofun, nofun, nofun, nofun, nofun⟩, .untouched,
      ⟨rfl, rfl, rfl, by simp [Stage.signaled], by simp, nofun, fun _ => rfl⟩⟩
  have hs : s.Sound ∧ s.CalledOnce ∧ ∃ stage, s.Follows stage :=
    h.invariant (I := fun s => s.Sound ∧ s.CalledOnce ∧ ∃ stage, s.Follows stage) hinit
      fun a l b ⟨hsound, honce, stage, hf⟩ hl hstep =>
        ⟨hsound.step (step_sound hstep), honce.step hsound hf hl (step_sound hstep)⟩
  obtain ⟨-, honce, stage, hf⟩ := hs
  refine ⟨honce.nodup, fun id hid hcancelled => ?_, fun hsignalled => ?_, ?_, honce.own,
    fun id hid hsignalled hlate => ?_, fun i s' hrequested hstep => ?_⟩
  · rcases honce.returned id hid with hearly | ⟨i, -, hown⟩
    · obtain rfl := hf.cancelled.1 hcancelled
      have horder : (early s.log).reverse = s.invoked.filter (· ∈ early s.log) ++ [] := hf.order rfl
      rw [← List.mem_reverse, horder, List.append_nil] at hearly
      exact (List.mem_filter.1 hearly).1
    · exact mem_invoked.2 ⟨i, true, hown⟩
  · refine hf.before ?_
    rw [← Bool.not_eq_true]
    exact fun hset => hsignalled (hf.signalled.2 hset)
  · cases hset : stage.signaled with
    | true => exact ⟨stage.todo, (hf.order hset).symm⟩
    | false =>
      rw [hf.before hset]
      exact List.nil_prefix
  · exact (honce.returned id hid).resolve_left hlate
  · cases step_sound hstep with
    | cancelAgain => rfl
    | cancel hunset =>
      rw [hrequested] at hunset
      cases hunset

/-- Two listeners of which the last one adds a third, with two threads that cancel. -/
theorem listeners_run_once_nested : ∃ s, Reach step Kept ({} : SourceState Bool ℕ) s ∧
    s.invoked = [1, 2, 0] ∧ s.invoked.Nodup := by
  let kept (_ : SourceState Bool ℕ) : SourceAction Bool ℕ → Bool
    | .destroy _ _ => false
    | _ => true
  have hkept (s : SourceState Bool ℕ) (a : SourceAction Bool ℕ) (h : kept s a = true) :
      s.Kept a := by
    rintro i id rfl
    cases h
  have hrun : (runWhile kept step ({} : SourceState Bool ℕ) [.addListener true 10, .go true,
      .addListener true 20, .go true, .cancel false, .cancel true, .go false, .go false,
      .addListener false 30, .go false, .go false, .go false, .go false, .go false, .go false,
      .go false]).map (fun s => s.invoked) = some [1, 2, 0] := by decide
  obtain ⟨s, hreach, hinvoked⟩ := exists_reach_of_runWhile hkept hrun
  exact ⟨s, hreach, hinvoked, (listeners_run_once hreach).1⟩

end Arcana.Threading.SourceState
