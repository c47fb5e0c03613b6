import Mathlib.Data.List.TakeWhile
import Arcana.Messaging.Router

/-!
# What a router delivers

The specification (`Delivery`) knows the listeners that were registered for each event type and the
ids of those whose ticket was destroyed. An event goes, one after another, to the listeners that
were registered when the outermost `fire` of its type began, as far as they are not destroyed when
their turn comes. There are no sentries, no pending listeners and no flags.

In the runs in which no ticket is destroyed during the outermost `fire` of its type in which its
listener was added (`Timely`), a router does step by step what the specification does (`Matches`).

* `Delivery` is the specification, and `Delivery.step` a step of it: a registration, the destruction
  of a ticket, the beginning of a `fire`, or the return of a callback, upon which the next listener
  is called.
* `Activity` is a history of a run: how many fires of a type are in progress, and which listeners
  were added since the outermost one began. `Timely` is a condition on the step to come in terms of
  it.
* `Corresponds` relates a fire in progress to the call of the specification, `Lists` the two lists
  of a type to the registrations, and `Matches` a router to the specification.
* `Matches.add`, `Matches.destroy`, `Matches.begin` and `Matches.goOn` say that each step of user
  code keeps them related; the end of a fire is `Matches.endInner` or `Matches.endOuter`.
* `Matches.step` puts these together, and `simulates` says it of runs.
-/

namespace Arcana.Messaging

open Foundations

variable {Ev C V : Type*} [DecidableEq Ev]

/-! ## The specification -/

/-- A `fire` in progress: the listeners that it is for, and those whose turn has not come. -/
structure Call (Ev C V : Type*) where
  event : Ev
  value : V
  base : List (Int64 × C)
  todo : List (Int64 × C)

/-- The listeners registered, the ids of those destroyed and the fires in progress. -/
structure Delivery (Ev C V : Type*) where
  nextId : Int64
  registered : Ev → List (Int64 × C) := fun _ => []
  destroyed : Ev → List Int64 := fun _ => []
  calls : List (Call Ev C V) := []
  log : List (Event Ev C V) := []

/-- The listeners that an event is for: those of the fire of its type that is in progress, or
all. -/
def baseOf (registered : Ev → List (Int64 × C)) (e : Ev) : List (Call Ev C V) → List (Int64 × C)
  | [] => registered e
  | call :: calls => if call.event = e then call.base else baseOf registered e calls

namespace Delivery

def base (d : Delivery Ev C V) (e : Ev) : List (Int64 × C) := baseOf d.registered e d.calls

/-- The next listener whose ticket is not destroyed is called, or the fire ends. -/
def goOn (d : Delivery Ev C V) (call : Call Ev C V) : Delivery Ev C V :=
  match call.todo.dropWhile fun x => x.1 ∈ d.destroyed call.event with
  | x :: todo =>
    { d with
      calls := { call with todo } :: d.calls
      log := d.log ++ [.invoked call.event x.1 x.2 call.value] }
  | [] => { d with log := d.log ++ [.ended call.event] }

/-- One step of the user code. -/
def step (d : Delivery Ev C V) : Action Ev C V → Option (Delivery Ev C V)
  | .add e callback => (increment d.nextId).map fun nextId =>
    { d with
      nextId
      registered := Function.update d.registered e (d.registered e ++ [(d.nextId, callback)])
      log := d.log ++ [.registered e d.nextId] }
  | .destroy e id =>
    if id ∈ (d.registered e).map Prod.fst ∧ id ∉ d.destroyed e then some
      { d with
        destroyed := Function.update d.destroyed e (d.destroyed e ++ [id])
        log := d.log ++ [.destroyed e id] }
    else
      none
  | .fire e value => some (goOn { d with log := d.log ++ [.fired e value] }
      { event := e, value, base := d.base e, todo := d.base e })
  | .ret =>
    match d.calls with
    | [] => none
    | call :: calls => some (goOn { d with calls } call)

end Delivery

/-! ## The runs -/

/-- How many fires of a type are in progress, and the listeners that were added since the outermost
one began. -/
structure Activity where
  depth : ℕ := 0
  added : List Int64 := []

/-- What an event makes of the activity of a type. -/
def Activity.after (e : Ev) (activity : Activity) : Event Ev C V → Activity
  | .fired e' _ => if e' = e then { activity with depth := activity.depth + 1 } else activity
  | .ended e' =>
    if e' = e then
      if activity.depth ≤ 1 then {} else { activity with depth := activity.depth - 1 }
    else
      activity
  | .registered e' id =>
    if e' = e ∧ 0 < activity.depth then
      { activity with added := activity.added ++ [id] }
    else
      activity
  | _ => activity

def activity (e : Ev) (log : List (Event Ev C V)) : Activity := log.foldl (Activity.after e) {}

/-- No ticket is destroyed during the outermost fire of its type in which its listener was added. -/
def Timely (s : RouterState Ev C V) (a : Action Ev C V) : Prop :=
  ∀ e id, a = .destroy e id → id ∉ (activity e s.log).added

/-! ## The correspondence -/

/-- Each guard holds whether its type was being fired before. -/
def Guards : List (Fire Ev V) → Prop
  | [] => True
  | fire :: fires => fire.previous = fires.any (fun f => f.event = fire.event) ∧ Guards fires

/-- The sentries when the guard of the innermost fire is destroyed. -/
theorem sentries_of_guards {sentries : Ev → Bool} {fire : Fire Ev V} {fires : List (Fire Ev V)}
    (hguards : Guards (fire :: fires))
    (hsentries : ∀ e, sentries e = (fire :: fires).any fun f => f.event = e) (e : Ev) :
    Function.update sentries fire.event fire.previous e = fires.any fun f => f.event = e := by
  by_cases he : e = fire.event
  · subst he
    rw [Function.update_self]
    exact hguards.1
  · rw [Function.update_of_ne he, hsentries, List.any_cons, decide_eq_false (Ne.symm he),
      Bool.false_or]

/-- What is still to be done in a fire. -/
structure Corresponds (r : Router Ev C) (d : Delivery Ev C V) (fire : Fire Ev V)
    (call : Call Ev C V) :
    Prop where
  event : fire.event = call.event
  value : fire.value = call.value
  base : call.base = d.base call.event
  stop : fire.stop = (r.listeners call.event).length
  todo : valids ((r.listeners call.event).drop fire.next) =
    call.todo.filter (·.1 ∉ d.destroyed call.event)

/-- The lists of a type. -/
structure Lists (r : Router Ev C) (d : Delivery Ev C V) (e : Ev) : Prop where
  current : valids (r.listeners e) = (d.base e).filter (·.1 ∉ d.destroyed e)
  waiting : d.registered e = d.base e ++ (r.pending e).map Listener.entry
  fresh : ∀ x ∈ r.pending e, x.valid = true ∧ x.id ∉ d.destroyed e
  idle : r.sentries e = false → r.pending e = [] ∧ ∀ x ∈ r.listeners e, x.valid = true
  nodup : ((r.listeners e).map Listener.id).Nodup
  below : ∀ x ∈ r.listeners e, x.id < r.nextId
  known : ∀ x ∈ r.listeners e, x.id ∈ (d.base e).map Prod.fst

/-- A router and the specification, between two steps. -/
structure Matches (s : RouterState Ev C V) (d : Delivery Ev C V) : Prop where
  log : d.log = s.log
  nextId : d.nextId = s.router.nextId
  tickets : ∀ e id, (e, id) ∈ s.tickets → id ∈ (d.registered e).map Prod.fst ∧ id ∉ d.destroyed e
  nodup : s.tickets.Nodup
  gone : ∀ e, ∀ id ∈ d.destroyed e, id ∈ (d.registered e).map Prod.fst
  ids : ∀ e, ((d.registered e).map Prod.fst).Pairwise (· < ·)
  below : ∀ e, ∀ x ∈ d.registered e, x.1 < d.nextId
  calls : List.Forall₂ (Corresponds s.router d) s.fires d.calls
  sentries : ∀ e, s.router.sentries e = s.fires.any fun f => f.event = e
  guards : Guards s.fires
  lists : ∀ e, Lists s.router d e
  tracks : ∀ e, activity e s.log =
    { depth := s.fires.countP fun f => f.event = e, added := (s.router.pending e).map Listener.id }

variable {s s' : RouterState Ev C V} {d : Delivery Ev C V} {e : Ev} {id : Int64}

section Base

variable {registered registered' : Ev → List (Int64 × C)} {calls : List (Call Ev C V)}

theorem baseOf_idle (h : ∀ call ∈ calls, call.event ≠ e) :
    baseOf registered e calls = registered e := by
  induction calls with
  | nil => rfl
  | cons call calls ih =>
    rw [baseOf, if_neg (h call (.head _)), ih fun c hc => h c (.tail _ hc)]

theorem baseOf_active (h : ∃ call ∈ calls, call.event = e) :
    baseOf registered' e calls = baseOf registered e calls := by
  induction calls with
  | nil =>
    obtain ⟨call, hcall, -⟩ := h
    cases hcall
  | cons call calls ih =>
    rw [baseOf, baseOf]
    split_ifs with he
    · rfl
    · obtain ⟨c, hc, hce⟩ := h
      rcases List.mem_cons.1 hc with rfl | hc
      · exact absurd hce he
      · exact ih ⟨c, hc, hce⟩

theorem baseOf_congr (h : registered' e = registered e) :
    baseOf registered' e calls = baseOf registered e calls := by
  induction calls with
  | nil => exact h
  | cons call calls ih => rw [baseOf, baseOf, ih]

/-- A fire whose listeners are those of its type changes nothing. -/
theorem baseOf_cons {call : Call Ev C V} (h : call.base = baseOf registered call.event calls) :
    baseOf registered e (call :: calls) = baseOf registered e calls := by
  rw [baseOf]
  split_ifs with he
  · rw [h, he]
  · rfl

end Base

section Calls

variable {r r' : Router Ev C} {d' : Delivery Ev C V} {fires : List (Fire Ev V)}
  {calls : List (Call Ev C V)}

omit [DecidableEq Ev] in
theorem forall₂_imp {α β : Type*} {R S : α → β → Prop} {l : List α} {l' : List β}
    (h : List.Forall₂ R l l') (himp : ∀ a b, b ∈ l' → R a b → S a b) : List.Forall₂ S l l' := by
  induction h with
  | nil => exact .nil
  | cons hab _ ih => exact .cons (himp _ _ (.head _) hab) (ih fun a b hb => himp a b (.tail _ hb))

theorem events_eq (h : List.Forall₂ (Corresponds r d) fires calls) :
    fires.map Fire.event = calls.map Call.event := by
  induction h with
  | nil => rfl
  | cons hcall _ ih => rw [List.map_cons, List.map_cons, hcall.event, ih]

theorem base_eq (h : List.Forall₂ (Corresponds r d) fires calls) :
    ∀ call ∈ calls, call.base = d.base call.event := by
  induction h with
  | nil => nofun
  | cons hcall _ ih => exact List.forall_mem_cons.2 ⟨hcall.base, ih⟩

/-- A type is being fired if one of the calls is of the type. -/
theorem Matches.active (h : Matches s d) :
    s.router.sentries e = true ↔ ∃ call ∈ d.calls, call.event = e := by
  have hmem : e ∈ s.fires.map Fire.event ↔ e ∈ d.calls.map Call.event := by rw [events_eq h.calls]
  rw [h.sentries, List.any_eq_true]
  simp only [decide_eq_true_eq]
  exact List.mem_map.symm.trans (hmem.trans List.mem_map)

theorem Matches.idle (h : Matches s d) (he : s.router.sentries e = false) :
    ∀ call ∈ d.calls, call.event ≠ e := by
  intro call hcall hevent
  rw [h.active.2 ⟨call, hcall, hevent⟩] at he
  cases he

/-- A call that is left as it is. -/
theorem Corresponds.congr {fire : Fire Ev V} {call : Call Ev C V} (h : Corresponds r d fire call)
    (hbase : d'.base call.event = d.base call.event)
    (hlisteners : r'.listeners call.event = r.listeners call.event)
    (hdestroyed : d'.destroyed call.event = d.destroyed call.event) : Corresponds r' d' fire call :=
  ⟨h.event, h.value, h.base.trans hbase.symm, by rw [h.stop, hlisteners],
    by rw [hlisteners, hdestroyed, h.todo]⟩

theorem activity_append (log : List (Event Ev C V)) (event : Event Ev C V) :
    activity e (log ++ [event]) = (activity e log).after e event := by
  rw [activity, List.foldl_append]
  rfl

end Calls

/-! ### Listeners that are added -/

theorem Matches.fresh (h : Matches s d) (e : Ev) :
    s.router.nextId ∉ (d.registered e).map Prod.fst := by
  intro hmem
  obtain ⟨x, hx, hid⟩ := List.mem_map.1 hmem
  have hlt := h.below e x hx
  rw [hid, h.nextId] at hlt
  exact Int64.lt_irrefl hlt

/-- The lists of a type that a step does not touch. -/
theorem Lists.congr {r r' : Router Ev C} {d' : Delivery Ev C V} (h : Lists r d e)
    (hbase : d'.base e = d.base e) (hregistered : d'.registered e = d.registered e)
    (hdestroyed : d'.destroyed e = d.destroyed e) (hlisteners : r'.listeners e = r.listeners e)
    (hpending : r'.pending e = r.pending e) (hsentries : r'.sentries e = r.sentries e)
    (hnext : ∀ id, id < r.nextId → id < r'.nextId) : Lists r' d' e := by
  constructor
  · rw [hlisteners, hbase, hdestroyed]
    exact h.current
  · rw [hregistered, hbase, hpending]
    exact h.waiting
  · rw [hpending, hdestroyed]
    exact h.fresh
  · rw [hsentries, hpending, hlisteners]
    exact h.idle
  · rw [hlisteners]
    exact h.nodup
  · rw [hlisteners]
    exact fun x hx => hnext x.id (h.below x hx)
  · rw [hlisteners, hbase]
    exact h.known

/-- A listener that is added while its type is being fired waits. -/
theorem Lists.wait {r r' : Router Ev C} {d' : Delivery Ev C V} (h : Lists r d e) {x : Listener C}
    (hactive : r'.sentries e = true) (hbase : d'.base e = d.base e)
    (hregistered : d'.registered e = d.registered e ++ [x.entry])
    (hdestroyed : d'.destroyed e = d.destroyed e) (hlisteners : r'.listeners e = r.listeners e)
    (hpending : r'.pending e = r.pending e ++ [x]) (hx : x.valid = true ∧ x.id ∉ d.destroyed e)
    (hnext : ∀ id, id < r.nextId → id < r'.nextId) : Lists r' d' e := by
  constructor
  · rw [hlisteners, hbase, hdestroyed]
    exact h.current
  · rw [hregistered, hbase, hpending, h.waiting, List.map_append, List.append_assoc]
    rfl
  · rw [hpending, hdestroyed]
    intro y hy
    rcases List.mem_append.1 hy with hy | hy
    · exact h.fresh y hy
    · obtain rfl := List.mem_singleton.1 hy
      exact hx
  · intro hidle
    rw [hactive] at hidle
    cases hidle
  · rw [hlisteners]
    exact h.nodup
  · rw [hlisteners]
    exact fun y hy => hnext y.id (h.below y hy)
  · rw [hlisteners, hbase]
    exact h.known

/-- A listener that is added while its type is not being fired is the last one. -/
theorem Lists.enter {r r' : Router Ev C} {d' : Delivery Ev C V} (h : Lists r d e) {x : Listener C}
    (hidle : r.sentries e = false) (hbase : d.base e = d.registered e)
    (hbase' : d'.base e = d'.registered e)
    (hregistered : d'.registered e = d.registered e ++ [x.entry])
    (hdestroyed : d'.destroyed e = d.destroyed e)
    (hlisteners : r'.listeners e = r.listeners e ++ [x])
    (hpending : r'.pending e = r.pending e) (hx : x.valid = true ∧ x.id ∉ d.destroyed e)
    (hid : x.id = r.nextId) (hnext : increment r.nextId = some r'.nextId) : Lists r' d' e := by
  obtain ⟨hnone, hvalid⟩ := h.idle hidle
  have hnew : valids [x] = [x.entry] := valids_eq_map fun y hy => by
    obtain rfl := List.mem_singleton.1 hy
    exact hx.1
  constructor
  · rw [hlisteners, valids_append, h.current, hbase', hregistered, hdestroyed, List.filter_append,
      hbase, hnew]
    congr 1
    exact (List.filter_eq_self.2 fun y hy => by
      obtain rfl := List.mem_singleton.1 hy
      exact decide_eq_true hx.2).symm
  · rw [hbase', hpending, hnone]
    exact (List.append_nil _).symm
  · rw [hpending, hnone]
    nofun
  · intro _
    rw [hpending, hlisteners]
    refine ⟨hnone, fun y hy => ?_⟩
    rcases List.mem_append.1 hy with hy | hy
    · exact hvalid y hy
    · obtain rfl := List.mem_singleton.1 hy
      exact hx.1
  · rw [hlisteners, List.map_append, List.nodup_append]
    refine ⟨h.nodup, by simp, ?_⟩
    rintro a ha b hb rfl
    obtain rfl : a = x.id := List.mem_singleton.1 hb
    obtain ⟨y, hy, hyx⟩ := List.mem_map.1 ha
    have hlt := h.below y hy
    rw [hyx, hid] at hlt
    exact Int64.lt_irrefl hlt
  · rw [hlisteners]
    intro y hy
    rcases List.mem_append.1 hy with hy | hy
    · exact lt_increment_of_le hnext (.inl (h.below y hy))
    · obtain rfl := List.mem_singleton.1 hy
      exact hid ▸ lt_increment hnext
  · rw [hlisteners, hbase', hregistered, List.map_append]
    intro y hy
    rcases List.mem_append.1 hy with hy | hy
    · exact List.mem_append_left _ (hbase ▸ h.known y hy)
    · obtain rfl := List.mem_singleton.1 hy
      exact List.mem_append_right _ (.head _)

/-- The specification after a registration. -/
def Delivery.register (d : Delivery Ev C V) (e : Ev) (callback : C) (nextId : Int64) :
    Delivery Ev C V :=
  { d with
    nextId
    registered := Function.update d.registered e (d.registered e ++ [(d.nextId, callback)])
    log := d.log ++ [.registered e d.nextId] }

section Register

variable {callback : C} {nextId : Int64}

theorem register_self : (d.register e callback nextId).registered e =
    d.registered e ++ [(d.nextId, callback)] := Function.update_self e _ d.registered

theorem register_other {e' : Ev} (he : e' ≠ e) :
    (d.register e callback nextId).registered e' = d.registered e' :=
  Function.update_of_ne he _ d.registered

theorem Matches.register_base (h : Matches s d) {e' : Ev}
    (he : e' ≠ e ∨ s.router.sentries e = true) :
    (d.register e callback nextId).base e' = d.base e' := by
  by_cases he' : e' = e
  · subst he'
    exact baseOf_active (h.active.1 (he.resolve_left fun hne => hne rfl))
  · exact baseOf_congr (register_other he')

/-- What a registration does apart from the lists. -/
theorem Matches.register (h : Matches s d) (hnext : increment s.router.nextId = some nextId)
    {r : Router Ev C} (hr : r.nextId = nextId) (hsentries : r.sentries = s.router.sentries)
    (hlisteners : ∀ call ∈ d.calls, r.listeners call.event = s.router.listeners call.event)
    (hlists : ∀ e', Lists r (d.register e callback nextId) e')
    (hpending : ∀ e', (r.pending e').map Listener.id = (s.router.pending e').map Listener.id ++
      if e = e' ∧ s.router.sentries e = true then [s.router.nextId] else []) :
    Matches { s with
      router := r
      tickets := s.tickets ++ [(e, s.router.nextId)]
      log := s.log ++ [.registered e s.router.nextId] } (d.register e callback nextId) := by
  have hgrow (e' : Ev) (id : Int64) (hid : id ∈ (d.registered e').map Prod.fst) :
      id ∈ ((d.register e callback nextId).registered e').map Prod.fst := by
    by_cases he : e' = e
    · subst he
      rw [register_self, List.map_append]
      exact List.mem_append_left _ hid
    · rwa [register_other he]
  refine ⟨?_, hr.symm, ?_, ?_, fun e' id hid => hgrow e' id (h.gone e' id hid), fun e' => ?_, ?_,
    ?_, ?_, h.guards, hlists, ?_⟩
  · exact congrArg₂ _ h.log (by rw [h.nextId])
  · intro e' id hid
    rcases List.mem_append.1 hid with hid | hid
    · exact (h.tickets e' id hid).imp_left (hgrow e' id)
    · obtain ⟨rfl, rfl⟩ := Prod.mk.inj (List.mem_singleton.1 hid)
      refine ⟨?_, fun hgone => h.fresh e' (h.gone e' _ hgone)⟩
      rw [register_self, h.nextId]
      simp
  · refine List.nodup_append.2 ⟨h.nodup, by simp, ?_⟩
    rintro a ha b hb rfl
    obtain rfl := List.mem_singleton.1 hb
    exact h.fresh e (h.tickets e _ ha).1
  · by_cases he : e' = e
    · subst he
      rw [register_self, List.map_append, List.pairwise_append]
      refine ⟨h.ids e', List.pairwise_singleton _ _, fun a ha b hb => ?_⟩
      obtain rfl : b = d.nextId := List.mem_singleton.1 hb
      obtain ⟨x, hx, rfl⟩ := List.mem_map.1 ha
      exact h.below e' x hx
    · rw [register_other he]
      exact h.ids e'
  · intro e' x hx
    have hlt : x.1 < d.nextId ∨ x.1 = d.nextId := by
      by_cases he : e' = e
      · subst he
        rw [register_self] at hx
        rcases List.mem_append.1 hx with hx | hx
        · exact .inl (h.below e' x hx)
        · exact .inr (by rw [List.mem_singleton.1 hx])
      · rw [register_other he] at hx
        exact .inl (h.below e' x hx)
    exact lt_increment_of_le (h.nextId ▸ hnext) hlt
  · refine forall₂_imp h.calls fun fire call hcall hcorr => ?_
    refine hcorr.congr (h.register_base ?_) (hlisteners call hcall) rfl
    by_cases he : call.event = e
    · exact .inr (h.active.2 ⟨call, hcall, he⟩)
    · exact .inl he
  · intro e'
    rw [hsentries]
    exact h.sentries e'
  · intro e'
    have hdepth : 0 < s.fires.countP (fun f => f.event = e') ↔ s.router.sentries e' = true := by
      rw [h.sentries, List.countP_pos_iff, List.any_eq_true]
    rw [activity_append, h.tracks, hpending]
    simp only [Activity.after]
    by_cases he : e = e'
    · subst he
      simp only [hdepth, true_and]
      split_ifs <;> simp
    · simp [he]

end Register

theorem Matches.add (h : Matches s d) {callback : C} (hstep : s.step (.add e callback) = some s') :
    ∃ d', d.step (.add e callback) = some d' ∧ Matches s' d' := by
  obtain ⟨⟨r, id⟩, hadd, rfl⟩ := Option.map_eq_some_iff.1 hstep
  obtain ⟨nextId, hnext, hr⟩ := Option.map_eq_some_iff.1 hadd
  have hd : increment d.nextId = some nextId := h.nextId ▸ hnext
  have hlt (a : Int64) (ha : a < s.router.nextId) : a < nextId := lt_increment_of_le hnext (.inl ha)
  have hnew : s.router.nextId ∉ d.destroyed e := fun hmem => h.fresh e (h.gone e _ hmem)
  let x : Listener C := { callback, id := s.router.nextId }
  have hself : (d.register e callback nextId).registered e = d.registered e ++ [x.entry] := by
    rw [register_self, h.nextId]
    rfl
  refine ⟨d.register e callback nextId, by rw [Delivery.step, hd]; rfl, ?_⟩
  cases hactive : s.router.sentries e with
  | true =>
    rw [hactive, if_pos rfl] at hr
    obtain ⟨rfl, rfl⟩ := Prod.mk.inj hr
    refine h.register hnext rfl rfl (fun _ _ => rfl) (fun e' => ?_) (fun e' => ?_)
    · by_cases he : e' = e
      · subst he
        exact (h.lists e').wait hactive (h.register_base (.inr hactive)) hself rfl rfl
          (Function.update_self e' _ s.router.pending) ⟨rfl, hnew⟩ hlt
      · exact (h.lists e').congr (h.register_base (.inl he)) (register_other he) rfl rfl
          (Function.update_of_ne he _ s.router.pending) rfl hlt
    · by_cases he : e' = e
      · subst he
        simp [hactive]
      · simp [he, Ne.symm he]
  | false =>
    rw [hactive, if_neg Bool.false_ne_true] at hr
    obtain ⟨rfl, rfl⟩ := Prod.mk.inj hr
    have hidle := h.idle hactive
    refine h.register hnext rfl rfl (fun call hcall => ?_) (fun e' => ?_) (fun e' => ?_)
    · exact Function.update_of_ne (hidle call hcall) _ s.router.listeners
    · by_cases he : e' = e
      · subst he
        exact (h.lists e').enter hactive (baseOf_idle hidle) (baseOf_idle hidle) hself rfl
          (Function.update_self e' _ s.router.listeners) rfl ⟨rfl, hnew⟩ rfl hnext
      · exact (h.lists e').congr (h.register_base (.inl he)) (register_other he) rfl
          (Function.update_of_ne he _ s.router.listeners) rfl rfl hlt
    · simp [hactive]

/-! ### Tickets that are destroyed -/

/-- The specification after a ticket is destroyed. -/
def Delivery.release (d : Delivery Ev C V) (e : Ev) (id : Int64) : Delivery Ev C V :=
  { d with
    destroyed := Function.update d.destroyed e (d.destroyed e ++ [id])
    log := d.log ++ [.destroyed e id] }

theorem release_self : (d.release e id).destroyed e = d.destroyed e ++ [id] :=
  Function.update_self e _ d.destroyed

theorem release_other {e' : Ev} (he : e' ≠ e) : (d.release e id).destroyed e' = d.destroyed e' :=
  Function.update_of_ne he _ d.destroyed

/-- The listeners that are not destroyed, when one more is. -/
theorem filter_release (l : List (Int64 × C)) :
    l.filter (·.1 ∉ (d.release e id).destroyed e) =
      (l.filter (·.1 ∉ d.destroyed e)).filter (·.1 ≠ id) := by
  rw [release_self, List.filter_filter]
  refine List.filter_congr fun a _ => ?_
  rw [← Bool.decide_and]
  exact decide_eq_decide.2 (by rw [List.mem_append, List.mem_singleton, not_or, and_comm])

/-- The lists of the type of a ticket that is destroyed. -/
theorem Lists.remove {r r' : Router Ev C} (h : Lists r d e) (hpending : r'.pending e = r.pending e)
    (hsentries : r'.sentries e = r.sentries e) (hnext : r'.nextId = r.nextId)
    (hvalids : valids (r'.listeners e) = (valids (r.listeners e)).filter (·.1 ≠ id))
    (hids : (r'.listeners e).map Listener.id |>.Sublist ((r.listeners e).map Listener.id))
    (hidle : r.sentries e = false → ∀ x ∈ r'.listeners e, x ∈ r.listeners e)
    (hid : id ∉ (r.pending e).map Listener.id) : Lists r' (d.release e id) e := by
  constructor
  · rw [hvalids, h.current, ← filter_release]
    rfl
  · rw [hpending]
    exact h.waiting
  · rw [hpending, release_self]
    intro x hx
    refine (h.fresh x hx).imp_right fun hnot hmem => ?_
    rcases List.mem_append.1 hmem with hmem | hmem
    · exact hnot hmem
    · exact hid (List.mem_map.2 ⟨x, hx, List.mem_singleton.1 hmem⟩)
  · intro he
    rw [hsentries] at he
    rw [hpending]
    exact (h.idle he).imp_right fun hvalid x hx => hvalid x (hidle he x hx)
  · exact h.nodup.sublist hids
  · intro x hx
    obtain ⟨y, hy, hyx⟩ := List.mem_map.1 (hids.subset (List.mem_map_of_mem hx))
    rw [hnext, ← hyx]
    exact h.below y hy
  · intro x hx
    obtain ⟨y, hy, hyx⟩ := List.mem_map.1 (hids.subset (List.mem_map_of_mem hx))
    rw [← hyx]
    exact h.known y hy

/-- A ticket that is destroyed in time has its listener in the list. -/
theorem Matches.mem_valids (h : Matches s d) (hid : (e, id) ∈ s.tickets)
    (htimely : id ∉ (activity e s.log).added) :
    id ∈ (valids (s.router.listeners e)).map Prod.fst := by
  obtain ⟨hknown, hkept⟩ := h.tickets e id hid
  rw [h.tracks] at htimely
  have hwaiting := (h.lists e).waiting
  rw [hwaiting, List.map_append, List.map_map] at hknown
  have hbase : id ∈ (d.base e).map Prod.fst := (List.mem_append.1 hknown).resolve_right htimely
  obtain ⟨x, hx, rfl⟩ := List.mem_map.1 hbase
  rw [(h.lists e).current]
  exact List.mem_map_of_mem (List.mem_filter.2 ⟨hx, decide_eq_true hkept⟩)

theorem Matches.destroy (h : Matches s d) (htimely : Timely s (.destroy e id))
    (hstep : s.step (.destroy e id) = some s') :
    ∃ d', d.step (.destroy e id) = some d' ∧ Matches s' d' := by
  obtain ⟨hid, hs'⟩ := Option.ite_none_right_eq_some.1 hstep
  have hlists := h.lists e
  have hnodup := hlists.nodup
  have hadded := htimely e id rfl
  obtain ⟨hknown, hkept⟩ := h.tickets e id hid
  obtain ⟨found, l₁, l₂, x, hfind, hl, rfl, rfl⟩ := exists_found (h.mem_valids hid hadded)
  rw [h.tracks] at hadded
  rw [hl] at hnodup
  let r : Router Ev C :=
    { s.router with
      listeners := Function.update s.router.listeners e
        (if s.router.sentries e then disable (s.router.listeners e) l₁.length
          else (s.router.listeners e).eraseIdx l₁.length) }
  have hr : s.router.removeListener e x.id = some r := by rw [Router.removeListener, hfind]; rfl
  rw [hr, Option.some.injEq] at hs'
  subst hs'
  have hother (e' : Ev) (he : e' ≠ e) : r.listeners e' = s.router.listeners e' :=
    Function.update_of_ne he _ s.router.listeners
  have hactive (he : s.router.sentries e = true) :
      r.listeners e = disable (l₁ ++ x :: l₂) l₁.length := by
    simp only [r, Function.update_self, he, hl, if_true]
  have hidle (he : s.router.sentries e = false) : r.listeners e = l₁ ++ l₂ := by
    simp only [r, Function.update_self, he, hl, Bool.false_eq_true, if_false, eraseIdx_append_cons]
  have hcurrent : Lists r (d.release e x.id) e := by
    refine hlists.remove rfl rfl rfl ?_ ?_ (fun he y hy => ?_) hadded
    · rw [hl]
      rcases Bool.eq_false_or_eq_true (s.router.sentries e) with he | he
      · rw [hactive he]
        exact valids_disable hnodup 0
      · rw [hidle he]
        exact valids_erase hnodup
    · rw [hl]
      rcases Bool.eq_false_or_eq_true (s.router.sentries e) with he | he
      · rw [hactive he, ids_disable]
      · rw [hidle he]
        exact ((List.sublist_cons_self x l₂).append_left l₁).map _
    · rw [hidle he] at hy
      rw [hl]
      rcases List.mem_append.1 hy with hy | hy
      · exact List.mem_append_left _ hy
      · exact List.mem_append_right _ (.tail _ hy)
  refine ⟨d.release e x.id, if_pos ⟨hknown, hkept⟩, ?_⟩
  refine ⟨congrArg (· ++ _) h.log, h.nextId, ?_, h.nodup.erase _, ?_, h.ids, h.below, ?_,
    h.sentries, h.guards, fun e' => ?_, fun e' => ?_⟩
  · intro e' id hid'
    obtain ⟨hne, hmem⟩ := h.nodup.mem_erase_iff.1 hid'
    refine (h.tickets e' id hmem).imp_right fun hnot => ?_
    by_cases he : e' = e
    · subst he
      rw [release_self, List.mem_append, List.mem_singleton, not_or]
      exact ⟨hnot, fun hx => hne (by rw [hx])⟩
    · rwa [release_other he]
  · intro e' id hid'
    by_cases he : e' = e
    · subst he
      rw [release_self] at hid'
      rcases List.mem_append.1 hid' with hid' | hid'
      · exact h.gone e' id hid'
      · exact List.mem_singleton.1 hid' ▸ hknown
    · rw [release_other he] at hid'
      exact h.gone e' id hid'
  · refine forall₂_imp h.calls fun fire call hcall hcorr => ?_
    by_cases he : call.event = e
    · have hon := h.active.2 ⟨call, hcall, he⟩
      have hstop := hcorr.stop
      have htodo := hcorr.todo
      rw [he, hl] at hstop htodo
      refine ⟨hcorr.event, hcorr.value, hcorr.base, ?_, ?_⟩
      · rw [he, hactive hon, disable, List.length_modify, hstop]
      · rw [he, hactive hon, valids_disable hnodup, htodo, ← filter_release]
    · exact hcorr.congr rfl (hother _ he) (release_other he)
  · by_cases he : e' = e
    · subst he
      exact hcurrent
    · exact (h.lists e').congr rfl rfl (release_other he) (hother e' he) rfl rfl fun _ => id
  · rw [activity_append]
    exact h.tracks e'

/-! ### Fires -/

section DropWhile

variable {α : Type*} {p : α → Prop} [DecidablePred p] {l : List α}

omit [DecidableEq Ev] in
theorem filter_of_dropWhile_nil (h : (l.dropWhile fun x => p x) = []) :
    l.filter (fun x => ¬p x) = [] := by
  refine List.filter_eq_nil_iff.2 fun x hx => ?_
  have hp := List.dropWhile_eq_nil_iff.1 h x hx
  simpa using hp

omit [DecidableEq Ev] in
/-- The elements without the property begin with what `dropWhile` leaves. -/
theorem filter_of_dropWhile_cons {x : α} {rest : List α}
    (h : (l.dropWhile fun x => p x) = x :: rest) :
    l.filter (fun x => ¬p x) = x :: rest.filter (fun x => ¬p x) := by
  induction l with
  | nil => cases h
  | cons y l ih =>
    by_cases hy : p y
    · rw [List.dropWhile_cons, if_pos (decide_eq_true hy)] at h
      rw [List.filter_cons_of_neg (by simpa using hy), ih h]
    · rw [List.dropWhile_cons, if_neg (by simpa using hy)] at h
      obtain ⟨rfl, rfl⟩ := List.cons.inj h
      rw [List.filter_cons_of_pos (by simpa using hy)]

end DropWhile

/-- The fires in progress of one type are for the same listeners. -/
theorem baseOf_eq {registered : Ev → List (Int64 × C)} {calls : List (Call Ev C V)}
    {base : List (Int64 × C)} (h : ∃ call ∈ calls, call.event = e)
    (hbase : ∀ call ∈ calls, call.event = e → call.base = base) :
    baseOf registered e calls = base := by
  induction calls with
  | nil =>
    obtain ⟨call, hcall, -⟩ := h
    cases hcall
  | cons call calls ih =>
    rw [baseOf]
    split_ifs with he
    · exact hbase call (.head _) he
    · obtain ⟨c, hc, hce⟩ := h
      rcases List.mem_cons.1 hc with rfl | hc
      · exact absurd hce he
      · exact ih ⟨c, hc, hce⟩ fun c hc => hbase c (.tail _ hc)

section GoOn

variable {fire : Fire Ev V} {fires : List (Fire Ev V)} {call : Call Ev C V}
  {calls : List (Call Ev C V)}

theorem Matches.top (h : Matches s d) (hs : s.fires = fire :: fires)
    (hd : d.calls = call :: calls) :
    Corresponds s.router d fire call ∧ List.Forall₂ (Corresponds s.router d) fires calls := by
  have hcalls := h.calls
  rw [hs, hd] at hcalls
  exact List.forall₂_cons.1 hcalls

/-- The loop calls the next listener that is valid, which is the next one that is not destroyed. -/
theorem Matches.invoke (h : Matches s d) (hs : s.fires = fire :: fires)
    (hd : d.calls = call :: calls) {i : ℕ} {x : Listener C} {todo : List (Int64 × C)}
    (htodo : valids ((s.router.listeners call.event).drop i) =
      todo.filter (·.1 ∉ d.destroyed call.event)) :
    Matches
      { s with
        fires := { fire with next := i } :: fires
        log := s.log ++ [.invoked fire.event x.id x.callback fire.value] }
      { d with
        calls := { call with todo } :: calls
        log := d.log ++ [.invoked call.event x.entry.1 x.entry.2 call.value] } := by
  obtain ⟨hcall, hrest⟩ := h.top hs hd
  set d' : Delivery Ev C V :=
    { d with
      calls := { call with todo } :: calls
      log := d.log ++ [.invoked call.event x.entry.1 x.entry.2 call.value] } with hd'
  have hbase (e : Ev) : d'.base e = d.base e := by
    rw [Delivery.base, Delivery.base, hd]
    rfl
  refine ⟨?_, h.nextId, h.tickets, h.nodup, h.gone, h.ids, h.below, ?_, ?_, ?_, fun e => ?_,
    fun e => ?_⟩
  · rw [hd', h.log, hcall.event, hcall.value]
    rfl
  · refine .cons ⟨hcall.event, hcall.value, hcall.base.trans (hbase _).symm, hcall.stop, htodo⟩ ?_
    exact forall₂_imp hrest fun f c _ hc => hc.congr (hbase _) rfl rfl
  · intro e
    have hsentries := h.sentries e
    rw [hs] at hsentries
    exact hsentries
  · have hguards := h.guards
    rw [hs] at hguards
    exact hguards
  · exact (h.lists e).congr (hbase e) rfl rfl rfl rfl rfl fun _ => id
  · have htracks := h.tracks e
    rw [hs] at htracks
    rw [activity_append]
    exact htracks

/-- The guard of the innermost fire. -/
theorem Matches.guard (h : Matches s d) (hs : s.fires = fire :: fires) :
    fire.previous = fires.any (fun f => f.event = fire.event) ∧ Guards fires := by
  have hguards := h.guards
  rwa [hs] at hguards

/-- The sentries when the innermost fire ends. -/
theorem Matches.sentries_end (h : Matches s d) (hs : s.fires = fire :: fires) (e : Ev) :
    Function.update s.router.sentries fire.event fire.previous e = fires.any fun f => f.event = e :=
  sentries_of_guards (hs ▸ h.guards) (fun e' => hs ▸ h.sentries e') e

/-- The activity when the innermost fire ends. -/
theorem Matches.tracks_end (h : Matches s d) (hs : s.fires = fire :: fires) (e : Ev)
    {pending : List Int64}
    (hpending : pending = if e = fire.event ∧ fire.previous = false then [] else
      (s.router.pending e).map Listener.id) :
    activity e (s.log ++ [.ended fire.event]) =
      { depth := fires.countP fun f => f.event = e, added := pending } := by
  rw [activity_append, h.tracks, hs, hpending]
  by_cases he : fire.event = e
  · subst he
    have hprevious := (h.guard hs).1
    have hcount : (fire :: fires).countP (fun f => f.event = fire.event) =
        fires.countP (fun f => f.event = fire.event) + 1 := List.countP_cons_of_pos (by simp)
    rw [hcount]
    simp only [Activity.after, if_true, true_and]
    cases hp : fire.previous with
    | true =>
      rw [hp] at hprevious
      have hpos : 0 < fires.countP fun f => f.event = fire.event := by
        rw [List.countP_pos_iff]
        exact List.any_eq_true.1 hprevious.symm
      rw [if_neg (by omega), if_neg (by simp)]
      simp
    | false =>
      rw [hp] at hprevious
      have hzero : (fires.countP fun f => f.event = fire.event) = 0 := by
        rw [List.countP_eq_zero]
        exact List.any_eq_false.1 hprevious.symm
      rw [if_pos (by omega), if_pos rfl, hzero]
  · rw [List.countP_cons_of_neg (by simpa using he)]
    simp [Activity.after, he, Ne.symm he]

/-- The end of a fire inside of another one of its type. -/
theorem Matches.endInner (h : Matches s d) (hs : s.fires = fire :: fires)
    (hd : d.calls = call :: calls) (hprevious : fire.previous = true) :
    Matches
      { s with
        router := s.router.endFire fire.event fire.previous
        fires
        log := s.log ++ [.ended fire.event] }
      { d with calls, log := d.log ++ [.ended call.event] } := by
  obtain ⟨hcall, hrest⟩ := h.top hs hd
  obtain ⟨hguard, hguards⟩ := h.guard hs
  rw [hprevious] at hguard
  have hactive : s.router.sentries fire.event = true := by
    rw [h.sentries, hs, List.any_cons, decide_eq_true rfl, Bool.true_or]
  -- the fires around this one are for the same listeners
  have hbase (e : Ev) : baseOf d.registered e calls = d.base e := by
    have hcons : d.base e = baseOf d.registered e (call :: calls) := by rw [Delivery.base, hd]
    rw [hcons, baseOf]
    split_ifs with he
    · refine baseOf_eq ?_ fun c hc hce => ?_
      · have hmem : fire.event ∈ fires.map Fire.event := by
          have hany : ∃ f ∈ fires, f.event = fire.event := by simpa using hguard.symm
          exact List.mem_map.2 hany
        rw [events_eq hrest, hcall.event, he] at hmem
        exact List.mem_map.1 hmem
      · rw [base_eq hrest c hc, hcall.base, hce, he]
    · rfl
  have hr : s.router.endFire fire.event fire.previous =
      { s.router with sentries := Function.update s.router.sentries fire.event fire.previous } := by
    rw [Router.endFire, if_pos hprevious]
  rw [hr]
  refine ⟨by rw [h.log, hcall.event], h.nextId, h.tickets, h.nodup, h.gone, h.ids, h.below, ?_,
    h.sentries_end hs, hguards, fun e => ?_, fun e => h.tracks_end hs e (by simp [hprevious])⟩
  · exact forall₂_imp hrest fun f c _ hc => hc.congr (hbase _) rfl rfl
  · refine (h.lists e).congr (hbase e) rfl rfl rfl rfl ?_ fun _ => id
    by_cases he : e = fire.event
    · rw [he, hprevious, hactive]
      exact Function.update_self _ _ _
    · exact Function.update_of_ne he _ _

/-- The lists of a type when its outermost fire ends. -/
theorem Lists.renew {r r' : Router Ev C} {d' : Delivery Ev C V} (h : Lists r d e)
    (hids : ((d.registered e).map Prod.fst).Pairwise (· < ·))
    (hbelow : ∀ x ∈ d.registered e, x.1 < r.nextId) (hbase : d'.base e = d.registered e)
    (hregistered : d'.registered e = d.registered e) (hdestroyed : d'.destroyed e = d.destroyed e)
    (hlisteners : r'.listeners e = (r.listeners e).filter (·.valid) ++ r.pending e)
    (hpending : r'.pending e = []) (hnext : r'.nextId = r.nextId) : Lists r' d' e := by
  have hvalid : ∀ x ∈ r'.listeners e, x.valid = true := by
    intro x hx
    rw [hlisteners] at hx
    rcases List.mem_append.1 hx with hx | hx
    · exact (List.mem_filter.1 hx).2
    · exact (h.fresh x hx).1
  have hcurrent : (r'.listeners e).map Listener.entry = (d.registered e).filter
    (·.1 ∉ d.destroyed e) := by
    have hkept : ((r.pending e).map Listener.entry).filter (·.1 ∉ d.destroyed e) =
        (r.pending e).map Listener.entry := by
      refine List.filter_eq_self.2 fun a ha => ?_
      obtain ⟨x, hx, rfl⟩ := List.mem_map.1 ha
      exact decide_eq_true (h.fresh x hx).2
    rw [hlisteners, List.map_append, h.waiting, List.filter_append, hkept, ← h.current]
    rfl
  have hid : (r'.listeners e).map Listener.id =
      ((r'.listeners e).map Listener.entry).map Prod.fst := by
    rw [List.map_map]
    rfl
  constructor
  · rw [valids_eq_map hvalid, hcurrent, hbase, hdestroyed]
  · rw [hregistered, hbase, hpending]
    exact (List.append_nil _).symm
  · rw [hpending]
    nofun
  · exact fun _ => ⟨hpending, hvalid⟩
  · rw [hid, hcurrent]
    have hnodup : ((d.registered e).map Prod.fst).Nodup := hids.nodup
    have hsub : List.Sublist ((d.registered e).filter (·.1 ∉ d.destroyed e)) (d.registered e) :=
      List.filter_sublist
    exact hnodup.sublist (hsub.map Prod.fst)
  · intro x hx
    have hmem : x.entry ∈ (r'.listeners e).map Listener.entry := List.mem_map_of_mem hx
    rw [hcurrent] at hmem
    rw [hnext]
    exact hbelow x.entry (List.mem_filter.1 hmem).1
  · intro x hx
    have hmem : x.entry ∈ (r'.listeners e).map Listener.entry := List.mem_map_of_mem hx
    rw [hcurrent] at hmem
    rw [hbase]
    exact List.mem_map_of_mem (List.mem_filter.1 hmem).1

/-- The end of the outermost fire of a type brings its list up to date. -/
theorem Matches.endOuter (h : Matches s d) (hs : s.fires = fire :: fires)
    (hd : d.calls = call :: calls) (hprevious : fire.previous = false) :
    Matches
      { s with
        router := s.router.endFire fire.event fire.previous
        fires
        log := s.log ++ [.ended fire.event] }
      { d with calls, log := d.log ++ [.ended call.event] } := by
  obtain ⟨hcall, hrest⟩ := h.top hs hd
  obtain ⟨hguard, hguards⟩ := h.guard hs
  rw [hprevious] at hguard
  have hnone : ∀ c ∈ calls, c.event ≠ fire.event := by
    intro c hc hevent
    have hmem : c.event ∈ fires.map Fire.event := by
      rw [events_eq hrest]
      exact List.mem_map_of_mem hc
    obtain ⟨f, hf, hfc⟩ := List.mem_map.1 hmem
    have hfalse := List.any_eq_false.1 hguard.symm f hf
    simp [hfc, hevent] at hfalse
  have hbase (e : Ev) (he : e ≠ fire.event) : baseOf d.registered e calls = d.base e := by
    have hcons : d.base e = baseOf d.registered e (call :: calls) := by rw [Delivery.base, hd]
    rw [hcons, baseOf, if_neg fun hevent => he (hevent.symm.trans hcall.event.symm)]
  have hr : s.router.endFire fire.event fire.previous =
      { s.router with
        sentries := Function.update s.router.sentries fire.event fire.previous
        listeners := Function.update s.router.listeners fire.event
          ((s.router.listeners fire.event).filter (·.valid) ++ s.router.pending fire.event)
        pending := Function.update s.router.pending fire.event [] } := by
    rw [Router.endFire, if_neg (Bool.eq_false_iff.1 hprevious)]
  rw [hr]
  refine ⟨by rw [h.log, hcall.event], h.nextId, h.tickets, h.nodup, h.gone, h.ids, h.below, ?_,
    h.sentries_end hs, hguards, fun e => ?_, fun e => h.tracks_end hs e ?_⟩
  · refine forall₂_imp hrest fun f c hmem hc => ?_
    exact hc.congr (hbase _ (hnone c hmem)) (Function.update_of_ne (hnone c hmem) _ _) rfl
  · by_cases he : e = fire.event
    · subst he
      exact (h.lists fire.event).renew (h.ids _) (h.nextId ▸ h.below _) (baseOf_idle hnone) rfl rfl
        (Function.update_self _ _ _) (Function.update_self _ _ _) rfl
    · exact (h.lists e).congr (hbase e he) rfl rfl (Function.update_of_ne he _ _)
        (Function.update_of_ne he _ _) (Function.update_of_ne he _ _) fun _ => id
  · by_cases he : e = fire.event
    · subst he
      rw [if_pos ⟨rfl, hprevious⟩]
      dsimp only
      rw [Function.update_self]
      rfl
    · rw [if_neg fun hcond => he hcond.1]
      dsimp only
      rw [Function.update_of_ne he]

theorem Matches.goOn (h : Matches s d) (hs : s.fires = fire :: fires)
    (hd : d.calls = call :: calls) :
    Matches (RouterState.goOn { s with fires } fire) (Delivery.goOn { d with calls } call) := by
  obtain ⟨hcall, -⟩ := h.top hs hd
  have htake : (s.router.listeners fire.event).take fire.stop = s.router.listeners fire.event := by
    rw [hcall.stop, ← hcall.event, List.take_length]
  have htodo := hcall.todo
  rw [← hcall.event] at htodo
  simp only [RouterState.goOn, Delivery.goOn, htake, ← hcall.event]
  cases hnext : nextValid ((s.router.listeners fire.event).drop fire.next) fire.next with
  | none =>
    rw [nextValid_eq_none.1 hnext] at htodo
    cases hdrop : call.todo.dropWhile fun x => x.1 ∈ d.destroyed fire.event with
    | cons y todo =>
      rw [filter_of_dropWhile_cons hdrop] at htodo
      cases htodo
    | nil =>
      cases hprevious : fire.previous with
      | true =>
        have hend := h.endInner hs hd hprevious
        rw [hprevious, ← hcall.event] at hend
        exact hend
      | false =>
        have hend := h.endOuter hs hd hprevious
        rw [hprevious, ← hcall.event] at hend
        exact hend
  | some found =>
    obtain ⟨i, x⟩ := found
    rw [nextValid_eq_some hnext] at htodo
    cases hdrop : call.todo.dropWhile fun x => x.1 ∈ d.destroyed fire.event with
    | nil =>
      rw [filter_of_dropWhile_nil hdrop] at htodo
      cases htodo
    | cons y todo =>
      rw [filter_of_dropWhile_cons hdrop] at htodo
      obtain ⟨rfl, hrest⟩ := List.cons.inj htodo
      rw [hcall.event] at hrest
      have hinvoke := h.invoke hs hd (x := x) hrest
      rw [← hcall.event] at hinvoke
      exact hinvoke

end GoOn

/-- A fire that begins is for the listeners of the fire of its type that is in progress, or for
all. -/
theorem Matches.begin (h : Matches s d) (e : Ev) (value : V) :
    Matches
      { s with
        router := { s.router with sentries := Function.update s.router.sentries e true }
        fires := { event := e, value, previous := s.router.sentries e, next := 0,
                   stop := (s.router.listeners e).length } :: s.fires
        log := s.log ++ [.fired e value] }
      { d with
        calls := { event := e, value, base := d.base e, todo := d.base e } :: d.calls
        log := d.log ++ [.fired e value] } := by
  set d' : Delivery Ev C V :=
    { d with
      calls := { event := e, value, base := d.base e, todo := d.base e } :: d.calls
      log := d.log ++ [.fired e value] } with hd'
  have hbase (e' : Ev) : d'.base e' = d.base e' := baseOf_cons rfl
  have hlists := h.lists e
  refine ⟨?_, h.nextId, h.tickets, h.nodup, h.gone, h.ids, h.below, ?_, fun e' => ?_,
    ⟨h.sentries e, h.guards⟩, fun e' => ?_, fun e' => ?_⟩
  · rw [hd', h.log]
  · refine .cons ⟨rfl, rfl, (hbase e).symm, rfl, hlists.current⟩ ?_
    exact forall₂_imp h.calls fun f c _ hc => hc.congr (hbase _) rfl rfl
  · by_cases he : e' = e
    · subst he
      simp
    · dsimp only
      rw [Function.update_of_ne he, h.sentries, List.any_cons, decide_eq_false (Ne.symm he),
        Bool.false_or]
  · by_cases he : e' = e
    · subst he
      refine ⟨?_, ?_, hlists.fresh, fun hidle => ?_, hlists.nodup, hlists.below, ?_⟩
      · rw [hbase]
        exact hlists.current
      · rw [hbase]
        exact hlists.waiting
      · dsimp only at hidle
        rw [Function.update_self] at hidle
        cases hidle
      · rw [hbase]
        exact hlists.known
    · exact (h.lists e').congr (hbase e') rfl rfl rfl rfl (Function.update_of_ne he _ _) fun _ => id
  · rw [activity_append, h.tracks]
    by_cases he : e = e'
    · simp [Activity.after, he]
    · simp [Activity.after, he]

/-- **A router does what the specification does**, one step after another. -/
theorem Matches.step (h : Matches s d) {a : Action Ev C V} (htimely : Timely s a)
    (hstep : s.step a = some s') : ∃ d', d.step a = some d' ∧ Matches s' d' := by
  cases a with
  | add e callback => exact h.add hstep
  | destroy e id => exact h.destroy htimely hstep
  | fire e value =>
    obtain rfl := Option.some.inj hstep
    exact ⟨_, rfl, (h.begin e value).goOn rfl rfl⟩
  | ret =>
    cases hs : s.fires with
    | nil =>
      rw [RouterState.step, hs] at hstep
      cases hstep
    | cons fire fires =>
      have hcalls := h.calls
      rw [hs] at hcalls
      cases hd : d.calls with
      | nil =>
        rw [hd] at hcalls
        cases hcalls
      | cons call calls =>
        rw [RouterState.step, hs] at hstep
        obtain rfl := Option.some.inj hstep
        exact ⟨Delivery.goOn { d with calls } call, by rw [Delivery.step, hd], h.goOn hs hd⟩

/-- A new router, whatever its first id is. -/
theorem matches_new (n : Int64) :
    Matches ({ router := { nextId := n } } : RouterState Ev C V) { nextId := n } where
  log := rfl
  nextId := rfl
  tickets := nofun
  nodup := List.nodup_nil
  gone := nofun
  ids _ := .nil
  below := nofun
  calls := .nil
  sentries _ := rfl
  guards := trivial
  lists _ := ⟨rfl, rfl, nofun, fun _ => ⟨rfl, nofun⟩, List.nodup_nil, nofun, nofun⟩
  tracks _ := rfl

/-- **The runs of a router without untimely destructions are runs of the specification.** -/
theorem simulates {n : Int64} (h : Reach RouterState.step Timely { router := { nextId := n } } s) :
    ∃ d, Reach Delivery.step anyStep { nextId := n } d ∧ Matches s d := by
  refine h.invariant
    (I := fun s => ∃ d, Reach Delivery.step anyStep { nextId := n } d ∧ Matches s d)
    ⟨{ nextId := n }, .refl, matches_new n⟩ ?_
  rintro a l b ⟨d, hd, hm⟩ htimely hstep
  obtain ⟨d', hd', hm'⟩ := hm.step htimely hstep
  exact ⟨d', hd.tail trivial hd', hm'⟩

end Arcana.Messaging
