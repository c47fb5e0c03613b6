import Arcana.Messaging.Delivery

/-!
# Router delivery is exact

What the specification promises (`Delivery.Sound`) is proved of its own runs, and a router has it
from the correspondence. `RouterState.delivers` is the exactness of a delivery under nesting, and
`RouterState.silent_once_destroyed` says that a listener is not called any more once its ticket was
destroyed. Both are about the runs in which no ticket is destroyed during the outermost `fire` in
which its listener was added: `internal_remove_listener` does not look at the pending listeners, so
that such a listener stays (`RouterState.called_after_destroyed`).

* `Due` says which event may come next in a log, `Heard` that a log consists of such events, and
  `Nested` how the fires in progress are nested; `Delivery.Sound` is the invariant of the
  specification.
* `Delivery.Sound.step` and `Delivery.Sound.of_reach` prove it of every run of the specification.
* `RouterState.silent_once_destroyed` and `RouterState.delivers` are the results about routers.
* `RouterState.called_after_destroyed` is a run in which a listener is called after its ticket was
  destroyed.
-/

namespace Arcana.Messaging

open Foundations

variable {Ev C V : Type*} [DecidableEq Ev]

/-! ## What the specification promises -/

/-- Nothing is delivered to a listener whose ticket was destroyed. -/
def MayPrecede (a b : Event Ev C V) : Prop :=
  ∀ e id c v, a = .destroyed e id → b ≠ .invoked e id c v

/-- An event that may come next. -/
def Due (base : Ev → List (Int64 × C)) (destroyed destroyed' : Ev → List Int64) :
    Event Ev C V → Prop
  | .invoked e id c _ => (id, c) ∈ base e ∧ id ∉ destroyed e
  | .destroyed e id => id ∈ destroyed' e
  | .missing _ _ => False
  | _ => True

/-- The log of a run. -/
structure Heard (base : Ev → List (Int64 × C)) (destroyed : Ev → List Int64)
    (log : List (Event Ev C V)) : Prop where
  base : ∀ e id c v, .invoked e id c v ∈ log → (id, c) ∈ base e
  destroyed : ∀ e id, .destroyed e id ∈ log → id ∈ destroyed e
  later : log.Pairwise MayPrecede
  present : ∀ e id, .missing e id ∉ log

/-- Each fire in progress is for listeners that the fires around it are for, or were registered
since, and those whose turn has not come are the last ones of them. -/
def Nested (registered : Ev → List (Int64 × C)) : List (Call Ev C V) → Prop
  | [] => True
  | call :: calls => call.base <+: baseOf registered call.event calls ∧ call.todo <:+ call.base ∧
      Nested registered calls

/-- What holds in every run of the specification. -/
structure Delivery.Sound (d : Delivery Ev C V) : Prop where
  nested : Nested d.registered d.calls
  heard : Heard d.base d.destroyed d.log

variable {d d' : Delivery Ev C V} {e : Ev} {registered registered' : Ev → List (Int64 × C)}
  {calls : List (Call Ev C V)}

omit [DecidableEq Ev] in
theorem Heard.append {base base' : Ev → List (Int64 × C)} {destroyed destroyed' : Ev → List Int64}
    {log : List (Event Ev C V)} {event : Event Ev C V} (h : Heard base destroyed log)
    (hbase : ∀ e, base e ⊆ base' e) (hdestroyed : ∀ e, destroyed e ⊆ destroyed' e)
    (hdue : Due base' destroyed destroyed' event) : Heard base' destroyed' (log ++ [event]) := by
  constructor
  · intro e id c v hmem
    rcases List.mem_append.1 hmem with hmem | hmem
    · exact hbase e (h.base e id c v hmem)
    · obtain rfl := List.mem_singleton.1 hmem
      exact hdue.1
  · intro e id hmem
    rcases List.mem_append.1 hmem with hmem | hmem
    · exact hdestroyed e (h.destroyed e id hmem)
    · obtain rfl := List.mem_singleton.1 hmem
      exact hdue
  · refine List.pairwise_append.2 ⟨h.later, List.pairwise_singleton _ _, ?_⟩
    rintro a ha b hb e id c v rfl rfl
    obtain rfl := List.mem_singleton.1 hb
    exact hdue.2 (h.destroyed e id ha)
  · intro e id hmem
    rcases List.mem_append.1 hmem with hmem | hmem
    · exact h.present e id hmem
    · obtain rfl := List.mem_singleton.1 hmem
      exact hdue

theorem baseOf_mono (h : ∀ e, registered e <+: registered' e) :
    baseOf registered e calls <+: baseOf registered' e calls := by
  induction calls with
  | nil => exact h e
  | cons call calls ih =>
    rw [baseOf, baseOf]
    split_ifs with he
    · exact List.prefix_rfl
    · exact ih

theorem Nested.mono (h : ∀ e, registered e <+: registered' e) (hn : Nested registered calls) :
    Nested registered' calls := by
  induction calls with
  | nil => trivial
  | cons call calls ih => exact ⟨hn.1.trans (baseOf_mono h), hn.2.1, ih hn.2.2⟩

/-- When a fire ends, the next one of its type is for at least the same listeners. -/
theorem Nested.base_subset {call : Call Ev C V} (h : Nested registered (call :: calls)) (e : Ev) :
    baseOf registered e (call :: calls) ⊆ baseOf registered e calls := by
  rw [baseOf]
  split_ifs with he
  · subst he
    exact h.1.subset
  · exact List.Subset.refl _

namespace Delivery.Sound

theorem initial (n : Int64) : ({ nextId := n } : Delivery Ev C V).Sound :=
  ⟨trivial, nofun, nofun, .nil, nofun⟩

theorem add (h : d.Sound) {callback : C} (hstep : d.step (.add e callback) = some d') :
    d'.Sound := by
  obtain ⟨nextId, -, rfl⟩ := Option.map_eq_some_iff.1 hstep
  have hgrow (e' : Ev) : d.registered e' <+: (d.register e callback nextId).registered e' := by
    by_cases he : e' = e
    · subst he
      rw [register_self]
      exact List.prefix_append _ _
    · exact ⟨[], (List.append_nil _).trans (register_other he).symm⟩
  exact ⟨h.nested.mono hgrow, h.heard.append (fun e => (baseOf_mono hgrow).subset)
    (fun e => List.Subset.refl _) trivial⟩

theorem destroy (h : d.Sound) {id : Int64} (hstep : d.step (.destroy e id) = some d') :
    d'.Sound := by
  obtain ⟨-, hd'⟩ := Option.ite_none_right_eq_some.1 hstep
  obtain rfl := Option.some.inj hd'
  have hgrow (e' : Ev) : d.destroyed e' ⊆ (d.release e id).destroyed e' := by
    by_cases he : e' = e
    · subst he
      rw [release_self]
      exact List.subset_append_left _ _
    · rw [release_other he]
      exact List.Subset.refl _
  have hdue : Due d.base d.destroyed (d.release e id).destroyed
      (.destroyed e id : Event Ev C V) := by
    rw [Due, release_self]
    exact List.mem_append_right _ (.head _)
  exact ⟨h.nested, h.heard.append (fun e => List.Subset.refl _) hgrow hdue⟩

/-- The listener that is called is one whose turn comes and that is not destroyed. -/
theorem goOn (h : d.Sound) {call : Call Ev C V} (hd : d.calls = call :: calls) :
    (Delivery.goOn { d with calls } call).Sound := by
  have hnested := h.nested
  rw [hd] at hnested
  obtain ⟨hpre, hsuffix, hrest⟩ := hnested
  have hbase : d.base = fun e => baseOf d.registered e (call :: calls) := by
    funext e
    rw [Delivery.base, hd]
  rw [Delivery.goOn]
  split
  · next x todo hdrop =>
    have hkept : x.1 ∉ d.destroyed call.event := by
      have hmem : x ∈ call.todo.filter (fun x => ¬x.1 ∈ d.destroyed call.event) := by
        rw [filter_of_dropWhile_cons hdrop]
        exact .head _
      exact of_decide_eq_true (List.mem_filter.1 hmem).2
    have htodo : x :: todo <:+ call.base := by
      rw [← hdrop]
      exact (List.dropWhile_suffix _).trans hsuffix
    refine ⟨⟨hpre, (List.suffix_cons x todo).trans htodo, hrest⟩, ?_⟩
    refine h.heard.append (fun e => ?_) (fun e => List.Subset.refl _) ⟨?_, hkept⟩
    · rw [hbase]
      exact List.Subset.refl _
    · rw [Delivery.base, baseOf, if_pos rfl]
      exact htodo.subset (.head _)
  · refine ⟨hrest, h.heard.append (fun e => ?_) (fun e => List.Subset.refl _) trivial⟩
    rw [hbase]
    exact Nested.base_subset ⟨hpre, hsuffix, hrest⟩ e

theorem step (h : d.Sound) {a : Action Ev C V} (hstep : d.step a = some d') : d'.Sound := by
  cases a with
  | add e callback => exact h.add hstep
  | destroy e id => exact h.destroy hstep
  | fire e value =>
    obtain rfl := Option.some.inj hstep
    let call : Call Ev C V := { event := e, value, base := d.base e, todo := d.base e }
    have hfired : Delivery.Sound
        { d with calls := call :: d.calls, log := d.log ++ [.fired e value] } := by
      refine ⟨⟨List.prefix_rfl, List.suffix_rfl, h.nested⟩, ?_⟩
      refine h.heard.append (fun e' => ?_) (fun e' => List.Subset.refl _) trivial
      have hsame : baseOf d.registered e' (call :: d.calls) = d.base e' := baseOf_cons rfl
      show d.base e' ⊆ baseOf d.registered e' (call :: d.calls)
      rw [hsame]
      exact List.Subset.refl _
    exact hfired.goOn rfl
  | ret =>
    cases hd : d.calls with
    | nil =>
      rw [Delivery.step, hd] at hstep
      cases hstep
    | cons call calls =>
      rw [Delivery.step, hd] at hstep
      obtain rfl := Option.some.inj hstep
      exact h.goOn hd

theorem of_reach {n : Int64} (h : Reach Delivery.step anyStep { nextId := n } d) : d.Sound :=
  h.invariant (initial n) fun _ _ _ ha _ hstep => ha.step hstep

end Delivery.Sound

/-! ## What a router does -/

variable {s s' : RouterState Ev C V} {id : Int64}

/-- A listener that was added since the outermost fire of its type began is not in the list. -/
theorem Matches.ne_of_added (h : Matches s d) (hid : id ∈ (activity e s.log).added) :
    id ∉ (d.base e).map Prod.fst := by
  rw [h.tracks] at hid
  have hids := h.ids e
  rw [(h.lists e).waiting, List.map_append, List.map_map, List.pairwise_append] at hids
  intro hbase
  exact Int64.lt_irrefl (hids.2.2 id hbase id hid)

/-- The list of a type that is not being fired. -/
theorem Matches.listeners_idle (h : Matches s d) (hdepth : (activity e s.log).depth = 0) :
    s.router.pending e = [] ∧ s.router.listeners e =
      ((d.registered e).filter (·.1 ∉ d.destroyed e)).map fun x =>
      { callback := x.2, id := x.1 } := by
  rw [h.tracks] at hdepth
  have hidle : s.router.sentries e = false := by
    rw [h.sentries, List.any_eq_false]
    exact List.countP_eq_zero.1 hdepth
  have hlists := h.lists e
  obtain ⟨hpending, hvalid⟩ := hlists.idle hidle
  have hbase : d.base e = d.registered e := baseOf_idle (h.idle hidle)
  refine ⟨hpending, ?_⟩
  rw [← hbase, ← hlists.current, valids_eq_map hvalid, List.map_map]
  refine (List.map_id _).symm.trans (List.map_congr_left fun x hx => ?_)
  obtain ⟨callback, id, valid⟩ := x
  obtain rfl : valid = true := hvalid _ hx
  rfl

/-- A fire goes through the whole list, which has the length that it had. -/
theorem stop_eq {r : Router Ev C} {fires : List (Fire Ev V)}
    (h : List.Forall₂ (Corresponds r d) fires calls) :
    ∀ fire ∈ fires, fire.stop = (r.listeners fire.event).length := by
  induction h with
  | nil => nofun
  | cons hcall _ ih => exact List.forall_mem_cons.2 ⟨hcall.event ▸ hcall.stop, ih⟩

/-- The assertion fails for a ticket that is not destroyed in time. -/
theorem Matches.missing (h : Matches s d) (hid : id ∈ (activity e s.log).added)
    (hstep : s.step (.destroy e id) = some s') : .missing e id ∈ s'.log := by
  obtain ⟨-, hs'⟩ := Option.ite_none_right_eq_some.1 hstep
  have hremove : s.router.removeListener e id = none := by
    rw [Router.removeListener, Option.map_eq_none_iff, List.findIdx?_eq_none_iff]
    intro x hx
    have hne : x.id ≠ id := by
      rintro rfl
      exact h.ne_of_added hid ((h.lists e).known x hx)
    simpa using hne
  rw [hremove] at hs'
  obtain rfl := Option.some.inj hs'
  simp

instance (s : RouterState Ev C V) : (a : Action Ev C V) → Decidable (Timely s a)
  | .destroy e id => decidable_of_iff (id ∉ (activity e s.log).added)
      ⟨fun h _ _ heq => by cases heq; exact h, fun h => h e id rfl⟩
  | .add _ _ => .isTrue fun _ _ heq => nomatch heq
  | .fire _ _ => .isTrue fun _ _ heq => nomatch heq
  | .ret => .isTrue fun _ _ heq => nomatch heq

namespace RouterState

/-- **A listener is not called once its ticket was destroyed**, and the assertion of
`internal_remove_listener` holds, in every run in which no ticket is destroyed during the outermost
fire of its type in which its listener was added. The assertion fails in the first step that is not
so. -/
theorem silent_once_destroyed {n : Int64}
    (h : Reach RouterState.step Timely { router := { nextId := n } } s) :
    s.log.Pairwise MayPrecede ∧ (∀ e id, .missing e id ∉ s.log) ∧
    ∀ a s', s.step a = some s' → ((∀ e id, .missing e id ∉ s'.log) ↔ Timely s a) := by
  obtain ⟨d, hd, hm⟩ := simulates h
  have hheard := (Delivery.Sound.of_reach hd).heard
  rw [hm.log] at hheard
  refine ⟨hheard.later, hheard.present, fun a s' hstep => ⟨?_, fun htimely => ?_⟩⟩
  · rintro hpresent e id rfl hid
    exact hpresent e id (hm.missing hid hstep)
  · obtain ⟨d', hd', hm'⟩ := hm.step htimely hstep
    rw [← hm'.log]
    exact ((Delivery.Sound.of_reach hd).step hd').heard.present

/-- A listener that destroys its own ticket, and the one of the next listener. -/
theorem silent_once_destroyed_self : ∃ s : RouterState Bool ℕ ℕ,
    Reach RouterState.step Timely { router := { nextId := 5 } } s ∧
    s.log = [.registered true 5, .registered true 6, .fired true 1, .invoked true 5 50 1,
      .destroyed true 5, .destroyed true 6, .ended true, .fired true 2, .ended true] ∧
    s.log.Pairwise MayPrecede := by
  have hrun : (runWhile (fun s a => decide (Timely s a)) RouterState.step
      ({ router := { nextId := 5 } } : RouterState Bool ℕ ℕ)
        [.add true 50, .add true 60, .fire true 1, .destroy true 5, .destroy true 6, .ret,
         .fire true 2]).map (fun s => s.log) =
      some [.registered true 5, .registered true 6, .fired true 1, .invoked true 5 50 1,
        .destroyed true 5, .destroyed true 6, .ended true, .fired true 2, .ended true] := by decide
  obtain ⟨s, hreach, hlog⟩ := exists_reach_of_runWhile (fun _ _ => of_decide_eq_true) hrun
  exact ⟨s, hreach, hlog, (silent_once_destroyed hreach).1⟩

/-- A callback adds a listener and destroys its ticket at once: the assertion fails, and without it
the listener is called by the next fire. -/
theorem called_after_destroyed : ∃ s : RouterState Unit ℕ ℕ,
    Reach RouterState.step anyStep { router := { nextId := 0 } } s ∧
    .missing () 1 ∈ s.log ∧ ¬s.log.Pairwise MayPrecede := by
  have hrun : (run RouterState.step ({ router := { nextId := 0 } } : RouterState Unit ℕ ℕ)
      [.add () 10, .fire () 7, .add () 20, .destroy () 1, .ret, .fire () 8, .ret]).map
        (fun s => s.log) =
      some [.registered () 0, .fired () 7, .invoked () 0 10 7, .registered () 1, .missing () 1,
        .destroyed () 1, .ended (), .fired () 8, .invoked () 0 10 8, .invoked () 1 20 8] := by
    decide
  obtain ⟨s, hreach, hlog⟩ := exists_reach_of_run hrun
  refine ⟨s, hreach, ?_, fun hlater => ?_⟩
  · rw [hlog]
    decide
  · have hsub : [.destroyed () 1, .invoked () 1 20 8].Sublist s.log := by
      rw [hlog]
      decide
    have hpair := List.rel_of_pairwise_cons (hlater.sublist hsub) (.head _)
    exact hpair () 1 20 8 rfl rfl

/-- **Delivery is exact under nesting.** A run does what the specification does: each fire calls, in
the order of registration and once, the listeners that were registered before the outermost fire of
its type began and that are not destroyed when their turn comes. Between fires of a type its list is
that of the listeners registered, without the destroyed ones; those added since the outermost fire
began were not called; and the list that a fire goes through is as long as it was. -/
theorem delivers {n : Int64} (h : Reach RouterState.step Timely { router := { nextId := n } } s) :
    ∃ d : Delivery Ev C V, Reach Delivery.step anyStep { nextId := n } d ∧ d.log = s.log ∧
      (∀ e, ((d.registered e).map Prod.fst).Pairwise (· < ·)) ∧
      (∀ e, (activity e s.log).depth = 0 → s.router.pending e = [] ∧ s.router.listeners e =
        ((d.registered e).filter (·.1 ∉ d.destroyed e)).map fun x =>
        { callback := x.2, id := x.1 }) ∧
      (∀ e, ∀ id ∈ (activity e s.log).added, ∀ c v, .invoked e id c v ∉ s.log) ∧
      ∀ fire ∈ s.fires, fire.stop = (s.router.listeners fire.event).length := by
  obtain ⟨d, hd, hm⟩ := simulates h
  have hheard := (Delivery.Sound.of_reach hd).heard
  rw [hm.log] at hheard
  refine ⟨d, hd, hm.log, hm.ids, fun e hdepth => hm.listeners_idle hdepth,
    fun e id hid c v hmem => ?_, stop_eq hm.calls⟩
  exact hm.ne_of_added hid (List.mem_map_of_mem (hheard.base e id c v hmem))

/-- In a fire with a fire inside, a callback adds a listener and another one is destroyed before its
turn. -/
theorem delivers_nested : ∃ s : RouterState Bool ℕ ℕ,
    Reach RouterState.step Timely { router := { nextId := 5 } } s ∧
    s.log = [.registered true 5, .registered true 6, .fired true 1, .invoked true 5 50 1,
      .registered true 7, .fired true 2, .invoked true 5 50 2, .destroyed true 6, .ended true,
      .ended true, .fired true 3, .invoked true 5 50 3, .invoked true 7 70 3, .ended true] ∧
    ∃ d : Delivery Bool ℕ ℕ, Reach Delivery.step anyStep { nextId := 5 } d ∧ d.log = s.log := by
  have hrun : (runWhile (fun s a => decide (Timely s a)) RouterState.step
      ({ router := { nextId := 5 } } : RouterState Bool ℕ ℕ)
        [.add true 50, .add true 60, .fire true 1, .add true 70, .fire true 2, .destroy true 6,
         .ret, .ret, .fire true 3, .ret, .ret]).map (fun s => s.log) =
      some [.registered true 5, .registered true 6, .fired true 1, .invoked true 5 50 1,
        .registered true 7, .fired true 2, .invoked true 5 50 2, .destroyed true 6, .ended true,
        .ended true, .fired true 3, .invoked true 5 50 3, .invoked true 7 70 3, .ended true] := by
    decide
  obtain ⟨s, hreach, hlog⟩ := exists_reach_of_runWhile (fun _ _ => of_decide_eq_true) hrun
  obtain ⟨d, hd, hsame, -⟩ := delivers hreach
  exact ⟨s, hreach, hlog, d, hd, hsame⟩

end RouterState

end Arcana.Messaging
