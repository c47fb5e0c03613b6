import Arcana.Messaging.Delivery
import Arcana.Threading.Dispatcher

/-!
# `mediator`

A mediator is a router behind a dispatcher. `send` queues a work that fires the event, from any
thread, and the works are executed by the ticks of the thread that owns the dispatcher. The router
is private and has no affinity of its own, so that no event is fired but by such a work, and no fire
is inside another one.

The specification (`Mailbox`) is a queue of events in front of the listeners of each type. There are
no ticks, no sentries, no pending listeners and no flags. An event is delivered when the one before
it is, to the listeners there are at that time, as far as they are there when their turn comes.

* `MediatorState.step` is a step of a mediator: user code that adds a listener, destroys a ticket,
  sends or clears, from any thread, a tick, or a callback that returns.
* `Mailbox.step` is the specification. `MediatorState.post` says what the mailbox does in each step
  of a mediator: the step of the same name, and nothing when a tick begins or ends.
* `Posts` is what holds of a router that is only fired from outside, where the specification of a
  router and that of a mediator come to the same; `MediatorState.Follows` is what holds between two
  steps.
* `MediatorState.Follows.step` is the step lemma, and `MediatorState.delivers_mail` the result about
  runs.
-/

namespace Arcana.Messaging

open Foundations Threading

variable {T Ev C V : Type*}

/-! ## The mediator -/

/-- A mediator in use. The affinity is that of the dispatcher, and `ticker` is the thread that
called `tick` last. The events that were fired are a history, each with the thread that fired it. -/
structure MediatorState (T Ev C V : Type*) where
  affinity : Option T
  dispatcher : DispatcherState (Ev × V) := {}
  router : RouterState Ev C V
  ticker : Option T := none
  fired : List (Option T × Ev × V) := []

/-- What is done with a mediator. -/
inductive MediatorAction (T Ev C V : Type*)
  | send (e : Ev) (value : V)
  | addListener (thread : T) (e : Ev) (callback : C)
  | destroy (e : Ev) (id : Int64)
  | tick (thread : T) (block : Bool)
  /-- The loop of the tick goes on to the next work, or ends. -/
  | next
  /-- The callback of a listener returns. -/
  | ret
  | clear

namespace MediatorState

variable [DecidableEq T] [DecidableEq Ev]

/-- The event of the work that the loop of the tick executes next. -/
def nextEvent (s : MediatorState T Ev C V) : Option (Ev × V) :=
  s.dispatcher.remaining.head?.map Prod.snd

/-- One step of a mediator. A tick goes on when the callback that it called has returned. -/
def step (s : MediatorState T Ev C V) : MediatorAction T Ev C V → Option (MediatorState T Ev C V)
  | .send e value =>
    (s.dispatcher.step (.queue (e, value))).map fun dispatcher => { s with dispatcher }
  | .addListener thread e callback =>
    if checkAffinity s.affinity thread then
      (s.router.step (.add e callback)).map fun router => { s with router }
    else
      none
  | .destroy e id => (s.router.step (.destroy e id)).map fun router => { s with router }
  | .tick thread block =>
    if checkAffinity s.affinity thread then
      (s.dispatcher.step (.tick block)).map fun dispatcher =>
      { s with dispatcher, ticker := some thread }
    else
      none
  | .next =>
    match s.router.fires with
    | _ :: _ => none
    | [] =>
      (s.dispatcher.step .next).bind fun dispatcher =>
        match s.nextEvent with
        | none => some { s with dispatcher }
        | some (e, value) => (s.router.step (.fire e value)).map fun router =>
          { s with dispatcher, router, fired := s.fired ++ [(s.ticker, e, value)] }
  | .ret => (s.router.step .ret).map fun router => { s with router }
  | .clear => (s.dispatcher.step .clear).map fun dispatcher => { s with dispatcher }

/-- A new mediator, whose router has the given first id. -/
def new (affinity : Option T) (nextId : Int64) : MediatorState T Ev C V :=
  { affinity, router := { router := { nextId } } }

/-- No ticket is destroyed during the delivery of an event of its type in which its listener was
added. -/
def Timely (s : MediatorState T Ev C V) (a : MediatorAction T Ev C V) : Prop :=
  ∀ e id, a = .destroy e id → id ∉ (activity e s.router.log).added

instance (s : MediatorState T Ev C V) : (a : MediatorAction T Ev C V) → Decidable (s.Timely a)
  | .destroy e id => decidable_of_iff (id ∉ (activity e s.router.log).added)
      ⟨fun h _ _ heq => by cases heq; exact h, fun h => h e id rfl⟩
  | .send _ _ | .addListener _ _ _ | .tick _ _ | .next | .ret | .clear =>
    .isTrue fun _ _ heq => nomatch heq

/-- The events that wait: those of the tick in progress, and those that are queued. -/
def waiting (s : MediatorState T Ev C V) : List (Ev × V) :=
  (s.dispatcher.remaining ++ s.dispatcher.work).map Prod.snd

end MediatorState

/-! ## The specification -/

/-- An event that is being delivered, with the listeners whose turn has not come. -/
structure Parcel (Ev C V : Type*) where
  event : Ev
  value : V
  todo : List (Int64 × C)

/-- A queue of events and the listeners there are, in the order in which they were added. -/
structure Mailbox (Ev C V : Type*) where
  nextId : Int64
  listeners : Ev → List (Int64 × C) := fun _ => []
  waiting : List (Ev × V) := []
  parcel : Option (Parcel Ev C V) := none
  log : List (Event Ev C V) := []

inductive MailboxAction (Ev C V : Type*)
  | send (e : Ev) (value : V)
  | add (e : Ev) (callback : C)
  | remove (e : Ev) (id : Int64)
  | deliver
  | ret
  /-- All but the first ones are dropped. -/
  | clear (kept : ℕ)

namespace Mailbox

/-- The next listener is called, or the event is delivered. -/
def goOn (m : Mailbox Ev C V) (p : Parcel Ev C V) : Mailbox Ev C V :=
  match p.todo with
  | x :: todo =>
    { m with parcel := some { p with todo }, log := m.log ++ [.invoked p.event x.1 x.2 p.value] }
  | [] => { m with parcel := none, log := m.log ++ [.ended p.event] }

/-- The turn of a listener that is removed does not come. -/
def drop [DecidableEq Ev] (p : Parcel Ev C V) (e : Ev) (id : Int64) : Parcel Ev C V :=
  if p.event = e then { p with todo := p.todo.filter (·.1 ≠ id) } else p

/-- The listener is the last one of its type. -/
def register [DecidableEq Ev] (m : Mailbox Ev C V) (e : Ev) (callback : C) (nextId : Int64) :
    Mailbox Ev C V :=
  { m with
    nextId
    listeners := Function.update m.listeners e (m.listeners e ++ [(m.nextId, callback)])
    log := m.log ++ [.registered e m.nextId] }

/-- The listener is not there any more. -/
def remove [DecidableEq Ev] (m : Mailbox Ev C V) (e : Ev) (id : Int64) : Mailbox Ev C V :=
  { m with
    listeners := Function.update m.listeners e ((m.listeners e).filter (·.1 ≠ id))
    parcel := m.parcel.map fun p => drop p e id
    log := m.log ++ [.destroyed e id] }

def step [DecidableEq Ev] (m : Mailbox Ev C V) : MailboxAction Ev C V → Option (Mailbox Ev C V)
  | .send e value => some { m with waiting := m.waiting ++ [(e, value)] }
  | .add e callback => (increment m.nextId).map (m.register e callback)
  | .remove e id => if id ∈ (m.listeners e).map Prod.fst then some (m.remove e id) else none
  | .deliver =>
    match m.parcel, m.waiting with
    | none, (e, value) :: waiting => some
      (goOn { m with waiting, log := m.log ++ [.fired e value] }
        { event := e, value, todo := m.listeners e })
    | _, _ => none
  | .ret => m.parcel.map m.goOn
  | .clear kept => some { m with waiting := m.waiting.take kept }

end Mailbox

/-! ## A router that is fired from outside only -/

section Posts

variable {d d' : Delivery Ev C V} {m : Mailbox Ev C V} {call : Call Ev C V} {e : Ev} {id : Int64}

/-- What is still to be done in a fire. -/
def parcelOf (d : Delivery Ev C V) (call : Call Ev C V) : Parcel Ev C V where
  event := call.event
  value := call.value
  todo := call.todo.filter (·.1 ∉ d.destroyed call.event)

/-- The specification of a router and that of a mediator, when there is one fire at most. -/
structure Posts (d : Delivery Ev C V) (m : Mailbox Ev C V) : Prop where
  nextId : m.nextId = d.nextId
  log : m.log = d.log
  listeners : ∀ e, m.listeners e = (d.registered e).filter (·.1 ∉ d.destroyed e)
  parcel : d.calls.map (parcelOf d) = m.parcel.toList

/-- The fire goes on as the delivery does. -/
theorem Posts.goOn (h : Posts d m) (hcalls : d.calls = []) (call : Call Ev C V) :
    Posts (d.goOn call) (m.goOn (parcelOf d call)) := by
  rw [Delivery.goOn, Mailbox.goOn, parcelOf]
  cases hdrop : call.todo.dropWhile fun x => x.1 ∈ d.destroyed call.event with
  | nil =>
    rw [filter_of_dropWhile_nil hdrop]
    refine ⟨h.nextId, ?_, h.listeners, ?_⟩
    · rw [h.log]
    · rw [hcalls]
      rfl
  | cons x todo =>
    rw [filter_of_dropWhile_cons hdrop]
    refine ⟨h.nextId, ?_, h.listeners, ?_⟩
    · rw [h.log]
    · rw [hcalls]
      rfl

variable [DecidableEq Ev]

/-- A listener that is added has an id that was not destroyed. -/
theorem Posts.register (h : Posts d m) (hfresh : d.nextId ∉ d.destroyed e) (callback : C)
    (nextId : Int64) :
    Posts (d.register e callback nextId) (m.register e callback nextId) where
  nextId := rfl
  log := by rw [Mailbox.register, Delivery.register, h.log, h.nextId]
  listeners e' := by
    by_cases he : e' = e
    · subst he
      refine (Function.update_self e' _ m.listeners).trans ?_
      have hnew : [(d.nextId, callback)].filter
        (·.1 ∉ (d.register e' callback nextId).destroyed e') =
          [(d.nextId, callback)] := List.filter_eq_self.2 fun x hx => by
        obtain rfl := List.mem_singleton.1 hx
        exact decide_eq_true hfresh
      rw [register_self, List.filter_append, hnew, h.listeners, h.nextId]
      rfl
    · refine (Function.update_of_ne he _ m.listeners).trans ?_
      rw [register_other he]
      exact h.listeners e'
  parcel := h.parcel

/-- A listener that is removed is not called. -/
theorem Posts.release (h : Posts d m) (e : Ev) (id : Int64) :
    Posts (d.release e id) (m.remove e id) where
  nextId := h.nextId
  log := by rw [Mailbox.remove, Delivery.release, h.log]
  listeners e' := by
    by_cases he : e' = e
    · subst he
      refine (Function.update_self e' _ m.listeners).trans ?_
      rw [filter_release, h.listeners]
      rfl
    · refine (Function.update_of_ne he _ m.listeners).trans ?_
      rw [release_other he]
      exact h.listeners e'
  parcel := by
    have hdrop (call : Call Ev C V) :
        parcelOf (d.release e id) call = Mailbox.drop (parcelOf d call) e id := by
      by_cases he : call.event = e
      · subst he
        rw [Mailbox.drop, parcelOf, filter_release, parcelOf, if_pos rfl]
      · rw [Mailbox.drop, parcelOf, release_other he, parcelOf, if_neg he]
    refine Eq.trans ?_ Option.toList_map.symm
    rw [← h.parcel, List.map_map]
    exact List.map_congr_left fun call _ => hdrop call

/-- An event is fired for the listeners there are. -/
theorem Posts.deliver (h : Posts d m) (hparcel : m.parcel = none) {value : V}
    {waiting : List (Ev × V)}
    (hwaiting : m.waiting = (e, value) :: waiting) (hstep : d.step (.fire e value) = some d') :
    ∃ m', m.step .deliver = some m' ∧ m'.waiting = waiting ∧ Posts d' m' := by
  obtain rfl := Option.some.inj hstep
  have hcalls : d.calls = [] := List.map_eq_nil_iff.1 (h.parcel.trans (by rw [hparcel]; rfl))
  have hbase : d.base e = d.registered e := baseOf_idle (by simp [hcalls])
  refine ⟨_, by rw [Mailbox.step, hparcel, hwaiting], ?_, ?_⟩
  · rw [Mailbox.goOn]
    split
    · rfl
    · rfl
  · have hposts : Posts { d with log := d.log ++ [.fired e value] }
        { m with waiting, log := m.log ++ [.fired e value] } :=
      ⟨h.nextId, by rw [h.log], h.listeners, h.parcel⟩
    have hparcelOf : parcelOf d { event := e, value, base := d.base e, todo := d.base e } =
        { event := e, value, todo := m.listeners e } := by
      rw [parcelOf, hbase, h.listeners]
    rw [← hparcelOf]
    exact hposts.goOn hcalls _

theorem Posts.ret (h : Posts d m) (hstep : d.step .ret = some d') :
    ∃ m', m.step .ret = some m' ∧ m'.waiting = m.waiting ∧ Posts d' m' := by
  have hparcel := h.parcel
  cases hcalls : d.calls with
  | nil =>
    rw [Delivery.step, hcalls] at hstep
    cases hstep
  | cons call calls =>
    rw [Delivery.step, hcalls] at hstep
    obtain rfl := Option.some.inj hstep
    rw [hcalls, List.map_cons] at hparcel
    cases hm : m.parcel with
    | none =>
      rw [hm] at hparcel
      cases hparcel
    | some p =>
      rw [hm] at hparcel
      obtain ⟨rfl, hnone⟩ := List.cons.inj hparcel
      obtain rfl := List.map_eq_nil_iff.1 hnone
      refine ⟨_, by rw [Mailbox.step, hm]; rfl, ?_, ?_⟩
      · rw [Mailbox.goOn]
        split
        · rfl
        · rfl
      · have hposts : Posts { d with calls := [] } { m with parcel := none } :=
          ⟨h.nextId, h.log, h.listeners, rfl⟩
        exact hposts.goOn rfl call

end Posts

/-! ## The correspondence -/

namespace MediatorState

variable [DecidableEq T] [DecidableEq Ev] {s s' : MediatorState T Ev C V} {m : Mailbox Ev C V}
  {a : MediatorAction T Ev C V} {affinity : Option T}

/-- A mediator and the specification, between two steps. -/
structure Follows (affinity : Option T) (s : MediatorState T Ev C V) (m : Mailbox Ev C V) :
    Prop where
  same : s.affinity = affinity
  dispatcher : s.dispatcher.Consistent
  delivery : ∃ d, Matches s.router d ∧ Posts d m
  waiting : m.waiting = s.waiting
  idle : s.dispatcher.ticking = none → s.router.fires = []
  ticker : s.dispatcher.ticking ≠ none → ∃ t, s.ticker = some t ∧ checkAffinity affinity t = true
  fired : ∀ x ∈ s.fired, ∃ t, x.1 = some t ∧ checkAffinity affinity t = true
  executed : s.fired.map Prod.snd = s.dispatcher.executed.map Prod.snd

/-- What a mailbox does in a step of a mediator: nothing when a tick begins or ends, and else the
step of the same name. The events that are kept by `clear` are those that the tick in progress has
still to fire. -/
def post (s : MediatorState T Ev C V) : MediatorAction T Ev C V → List (MailboxAction Ev C V)
  | .send e value => [.send e value]
  | .addListener _ e callback => [.add e callback]
  | .destroy e id => [.remove e id]
  | .tick _ _ => []
  | .next => if s.dispatcher.remaining = [] then [] else [.deliver]
  | .ret => [.ret]
  | .clear => [.clear s.dispatcher.remaining.length]

/-- The mailbox does what the step stands for. -/
def Keeps (affinity : Option T) (s : MediatorState T Ev C V) (a : MediatorAction T Ev C V)
    (s' : MediatorState T Ev C V) (m : Mailbox Ev C V) : Prop :=
  ∃ m', run Mailbox.step m (s.post a) = some m' ∧ Follows affinity s' m'

theorem Keeps.still (hpost : s.post a = []) (h : Follows affinity s' m) : Keeps affinity s a s' m :=
  ⟨m, by rw [hpost]; rfl, h⟩

theorem Keeps.of_step {b : MailboxAction Ev C V} {m' : Mailbox Ev C V} (hpost : s.post a = [b])
    (hstep : m.step b = some m') (h : Follows affinity s' m') : Keeps affinity s a s' m := by
  refine ⟨m', ?_, h⟩
  rw [hpost, run, hstep]
  rfl

/-- A step of the router alone. -/
theorem Follows.routes (h : Follows affinity s m) {r : RouterState Ev C V} {m' : Mailbox Ev C V}
    (hdelivery : ∃ d, Matches r d ∧ Posts d m') (hwaiting : m'.waiting = m.waiting)
    (hidle : s.dispatcher.ticking = none → r.fires = []) :
    Follows affinity { s with router := r } m' where
  same := h.same
  dispatcher := h.dispatcher
  delivery := hdelivery
  waiting := hwaiting.trans h.waiting
  idle := hidle
  ticker := h.ticker
  fired := h.fired
  executed := h.executed

theorem Follows.send (h : Follows affinity s m) {e : Ev} {value : V}
    (hstep : s.step (.send e value) = some s') : Keeps affinity s (.send e value) s' m := by
  rw [step] at hstep
  obtain ⟨d, hd, rfl⟩ := Option.map_eq_some_iff.1 hstep
  have hconsistent := h.dispatcher.queue hd
  obtain rfl := DispatcherState.step_queue hd
  refine .of_step rfl rfl ⟨h.same, hconsistent, ?_, ?_, h.idle, h.ticker, h.fired, h.executed⟩
  · obtain ⟨d, hd, hp⟩ := h.delivery
    exact ⟨d, hd, hp.nextId, hp.log, hp.listeners, hp.parcel⟩
  · have hwaiting := h.waiting
    simp only [MediatorState.waiting, DispatcherState.remaining] at hwaiting ⊢
    rw [hwaiting]
    simp

theorem Follows.addListener (h : Follows affinity s m) {t : T} {e : Ev} {callback : C}
    (hstep : s.step (.addListener t e callback) = some s') :
    Keeps affinity s (.addListener t e callback) s' m := by
  obtain ⟨-, hs'⟩ := Option.ite_none_right_eq_some.1 hstep
  obtain ⟨r, hr, rfl⟩ := Option.map_eq_some_iff.1 hs'
  obtain ⟨d, hd, hp⟩ := h.delivery
  obtain ⟨d', hd', hm'⟩ := hd.step (a := .add e callback) (fun _ _ he => by cases he) hr
  obtain ⟨nextId, hnext, rfl⟩ := Option.map_eq_some_iff.1 hd'
  have hfresh : d.nextId ∉ d.destroyed e := fun hmem =>
    hd.fresh e (hd.nextId ▸ hd.gone e _ hmem)
  have hmail : m.step (.add e callback) = some (m.register e callback nextId) := by
    rw [Mailbox.step, hp.nextId, hnext]
    rfl
  refine .of_step rfl hmail (h.routes ⟨_, hm', hp.register hfresh callback nextId⟩ rfl
    fun hidle => ?_)
  obtain ⟨result, -, rfl⟩ := Option.map_eq_some_iff.1 hr
  exact h.idle hidle

theorem Follows.destroy (h : Follows affinity s m) {e : Ev} {id : Int64}
    (htimely : s.Timely (.destroy e id))
    (hstep : s.step (.destroy e id) = some s') : Keeps affinity s (.destroy e id) s' m := by
  obtain ⟨r, hr, rfl⟩ := Option.map_eq_some_iff.1 hstep
  obtain ⟨d, hd, hp⟩ := h.delivery
  have hin : Messaging.Timely s.router (.destroy e id) := fun e' id' he => by
    cases he
    exact htimely e id rfl
  obtain ⟨d', hd', hm'⟩ := hd.step hin hr
  obtain ⟨⟨hid, hlive⟩, hd'⟩ := Option.ite_none_right_eq_some.1 hd'
  obtain rfl := Option.some.inj hd'
  have hmem : id ∈ (m.listeners e).map Prod.fst := by
    obtain ⟨x, hx, rfl⟩ := List.mem_map.1 hid
    rw [hp.listeners]
    exact List.mem_map_of_mem (List.mem_filter.2 ⟨hx, decide_eq_true hlive⟩)
  have hmail : m.step (.remove e id) = some (m.remove e id) := if_pos hmem
  refine .of_step rfl hmail (h.routes ⟨_, hm', hp.release e id⟩ rfl fun hidle => ?_)
  obtain ⟨-, hr⟩ := Option.ite_none_right_eq_some.1 hr
  split at hr
  · obtain rfl := Option.some.inj hr
    exact h.idle hidle
  · obtain rfl := Option.some.inj hr
    exact h.idle hidle

theorem Follows.tick (h : Follows affinity s m) {t : T} {block : Bool}
    (hstep : s.step (.tick t block) = some s') : Keeps affinity s (.tick t block) s' m := by
  obtain ⟨hcheck, hs'⟩ := Option.ite_none_right_eq_some.1 hstep
  obtain ⟨d, hd, rfl⟩ := Option.map_eq_some_iff.1 hs'
  obtain ⟨hconsistent, hexecuted, -⟩ := h.dispatcher.tick hd
  obtain ⟨hticking, hd⟩ := DispatcherState.step_tick hd
  rw [h.same] at hcheck
  refine .still rfl ⟨h.same, hconsistent, h.delivery, ?_, fun _ => h.idle hticking,
    fun _ => ⟨t, rfl, hcheck⟩, h.fired, ?_⟩
  · rw [h.waiting]
    rcases hd with ⟨-, rfl⟩ | rfl
    · rfl
    · simp [MediatorState.waiting, DispatcherState.remaining, h.dispatcher.idle hticking]
  · rw [h.executed]
    exact congrArg _ hexecuted.symm

/-- Nothing is being delivered when no callback runs. -/
theorem Follows.parcel_eq_none (h : Follows affinity s m) (hfires : s.router.fires = []) :
    m.parcel = none := by
  obtain ⟨d, hd, hp⟩ := h.delivery
  have hcalls := hd.calls
  rw [hfires, List.forall₂_nil_left_iff] at hcalls
  have hparcel := hp.parcel
  rw [hcalls] at hparcel
  exact Option.toList_eq_nil_iff.1 hparcel.symm

theorem Follows.next (h : Follows affinity s m) (hstep : s.step .next = some s') :
    Keeps affinity s .next s' m := by
  cases hfires : s.router.fires with
  | cons fire fires =>
    rw [step, hfires] at hstep
    cases hstep
  | nil =>
    rw [step, hfires] at hstep
    obtain ⟨d, hd, hs'⟩ := Option.bind_eq_some_iff.1 hstep
    have hconsistent := h.dispatcher.next hd
    have hwaiting := h.waiting
    rcases DispatcherState.step_next hd with ⟨i, ⟨n, e, value⟩, hticking, hitem, rfl⟩ | ⟨hnone, rfl⟩
    · -- the work fires its event
      rw [nextEvent, hitem] at hs'
      obtain ⟨r, hr, rfl⟩ := Option.map_eq_some_iff.1 hs'
      obtain ⟨del, hdel, hp⟩ := h.delivery
      obtain ⟨del', hdel', hr'⟩ := hdel.step (a := .fire e value) (fun _ _ he => by cases he) hr
      rw [MediatorState.waiting, hitem] at hwaiting
      obtain ⟨m', hm', hrest, hp'⟩ := hp.deliver (h.parcel_eq_none hfires) hwaiting hdel'
      have hticker := h.ticker (by rw [hticking]; exact Option.some_ne_none i)
      refine .of_step (if_neg (by simp [hitem])) hm' ⟨h.same, hconsistent, ⟨del', hr', hp'⟩, hrest,
        nofun, fun _ => hticker, ?_, ?_⟩
      · exact List.forall_mem_append.2 ⟨h.fired, List.forall_mem_singleton.2 hticker⟩
      · rw [List.map_append, h.executed, List.map_append]
        rfl
    · -- the tick ends
      rw [nextEvent, hnone] at hs'
      obtain rfl := Option.some.inj hs'
      refine .still (if_pos hnone) ⟨h.same, hconsistent, h.delivery, ?_, fun _ => hfires,
        fun hne => absurd rfl hne, h.fired, h.executed⟩
      rw [hwaiting, MediatorState.waiting, hnone]
      rfl

theorem Follows.ret (h : Follows affinity s m) (hstep : s.step .ret = some s') :
    Keeps affinity s .ret s' m := by
  rw [step] at hstep
  obtain ⟨r, hr, rfl⟩ := Option.map_eq_some_iff.1 hstep
  obtain ⟨d, hd, hp⟩ := h.delivery
  obtain ⟨d', hd', hr'⟩ := hd.step (a := .ret) (fun _ _ he => by cases he) hr
  obtain ⟨m', hm', hwaiting, hp'⟩ := hp.ret hd'
  refine .of_step rfl hm' (h.routes ⟨d', hr', hp'⟩ hwaiting fun hidle => ?_)
  rw [RouterState.step, h.idle hidle] at hr
  cases hr

theorem Follows.clear (h : Follows affinity s m) (hstep : s.step .clear = some s') :
    Keeps affinity s .clear s' m := by
  rw [step] at hstep
  obtain ⟨d, hd, rfl⟩ := Option.map_eq_some_iff.1 hstep
  have hconsistent := h.dispatcher.clear hd
  obtain rfl := Option.some.inj hd
  refine .of_step rfl rfl ⟨h.same, hconsistent, ?_, ?_, h.idle, h.ticker, h.fired, h.executed⟩
  · obtain ⟨d, hd, hp⟩ := h.delivery
    exact ⟨d, hd, hp.nextId, hp.log, hp.listeners, hp.parcel⟩
  · rw [h.waiting, MediatorState.waiting, MediatorState.waiting, List.map_append, List.map_append]
    exact (List.take_left' (List.length_map _)).trans (List.append_nil _).symm

theorem Follows.step (h : Follows affinity s m) (htimely : s.Timely a)
    (hstep : s.step a = some s') :
    Keeps affinity s a s' m := by
  cases a with
  | send e value => exact h.send hstep
  | addListener t e callback => exact h.addListener hstep
  | destroy e id => exact h.destroy htimely hstep
  | tick t block => exact h.tick hstep
  | next => exact h.next hstep
  | ret => exact h.ret hstep
  | clear => exact h.clear hstep

theorem Follows.initial (affinity : Option T) (n : Int64) :
    Follows affinity (new affinity n : MediatorState T Ev C V) { nextId := n } where
  same := rfl
  dispatcher := .initial
  delivery := ⟨_, matches_new n, rfl, rfl, fun _ => rfl, rfl⟩
  waiting := rfl
  idle _ := rfl
  ticker h := absurd rfl h
  fired := nofun
  executed := rfl

theorem Follows.of_run {n : Int64} {ls : List (MediatorAction T Ev C V)}
    (h : runWhile (fun s a => decide (s.Timely a)) MediatorState.step (new affinity n) ls =
      some s) :
    ∃ m : Mailbox Ev C V,
      run Mailbox.step { nextId := n } (images post MediatorState.step (new affinity n) ls) =
        some m ∧
      Follows affinity s m :=
  simulates_images (fun _ _ _ _ hfollows ha hstep => hfollows.step (of_decide_eq_true ha) hstep)
    (.initial affinity n) h

/-- What a tick has executed and has still to execute together changes only when a tick begins. -/
theorem executed_remaining (ha : ∀ t block, a ≠ .tick t block) (hstep : s.step a = some s') :
    s'.dispatcher.executed ++ s'.dispatcher.remaining =
    s.dispatcher.executed ++ s.dispatcher.remaining := by
  cases a with
  | send | clear =>
    rw [step] at hstep
    obtain ⟨_, hd, rfl⟩ := Option.map_eq_some_iff.1 hstep
    exact DispatcherState.executed_remaining (fun _ h => by cases h) hd
  | addListener =>
    obtain ⟨-, hs'⟩ := Option.ite_none_right_eq_some.1 hstep
    obtain ⟨_, -, rfl⟩ := Option.map_eq_some_iff.1 hs'
    rfl
  | destroy | ret =>
    rw [step] at hstep
    obtain ⟨_, -, rfl⟩ := Option.map_eq_some_iff.1 hstep
    rfl
  | tick t block => exact absurd rfl (ha t block)
  | next =>
    rw [step] at hstep
    split at hstep
    · cases hstep
    · obtain ⟨d, hd, hs'⟩ := Option.bind_eq_some_iff.1 hstep
      have hkeep := DispatcherState.executed_remaining (fun _ h => by cases h) hd
      split at hs'
      · obtain rfl := Option.some.inj hs'
        exact hkeep
      · obtain ⟨_, -, rfl⟩ := Option.map_eq_some_iff.1 hs'
        exact hkeep

/-- **A mediator is a queue of events in front of its listeners.** Every run does what the
specification does when it takes the same steps (`post`): each event that was sent and not cleared
is delivered once, in the order in which they were sent, after the one before it was delivered, and
to the listeners there are, as far as they are there when their turn comes. With an affinity, events
are fired on its thread only. What is sent during a tick waits for a later one: until the next tick
begins, the events delivered are among those that were sent before this one began, and when it ends
they are all of those. -/
theorem delivers_mail {n : Int64} {ls : List (MediatorAction T Ev C V)}
    (h : runWhile (fun s a => decide (s.Timely a)) step (new affinity n) ls = some s) :
    (∃ m : Mailbox Ev C V,
      run Mailbox.step { nextId := n } (images post step (new affinity n) ls) = some m ∧
      m.log = s.router.log ∧ m.waiting = s.waiting) ∧
    (∀ x ∈ s.fired, ∃ t, x.1 = some t ∧ checkAffinity affinity t = true) ∧
    ∀ t block s₁ s', s.step (.tick t block) = some s₁ →
      Reach step (fun s a => s.Timely a ∧ ∀ t block, a ≠ .tick t block) s₁ s' →
      s'.fired.map Prod.snd <+: s.dispatcher.live.map Prod.snd ∧
      (s'.dispatcher.ticking = none → s'.fired.map Prod.snd = s.dispatcher.live.map Prod.snd) := by
  obtain ⟨m, hm, hs⟩ := Follows.of_run h
  obtain ⟨d, hd, hp⟩ := hs.delivery
  refine ⟨⟨m, hm, hp.log.trans hd.log, hs.waiting⟩, hs.fired, fun t block s₁ s' htick hrun => ?_⟩
  have hparts : s₁.dispatcher.executed ++ s₁.dispatcher.remaining = s.dispatcher.live := by
    obtain ⟨-, hs₁⟩ := Option.ite_none_right_eq_some.1 htick
    obtain ⟨d, hd, rfl⟩ := Option.map_eq_some_iff.1 hs₁
    exact (hs.dispatcher.tick hd).2.2
  have hparts' : s'.dispatcher.executed ++ s'.dispatcher.remaining = s.dispatcher.live :=
    hrun.invariant (I := fun s' => s'.dispatcher.executed ++ s'.dispatcher.remaining =
    s.dispatcher.live)
      hparts fun _ _ _ ha hl hstep => (executed_remaining hl.2 hstep).trans ha
  obtain ⟨m', hs'⟩ : ∃ m', Follows affinity s' m' := by
    refine hrun.invariant (I := fun s => ∃ m, Follows affinity s m) ?_ fun _ _ _ ha hl hstep => ?_
    · obtain ⟨m', -, hs₁⟩ := hs.step (fun _ _ he => by cases he) htick
      exact ⟨m', hs₁⟩
    · obtain ⟨m, hm⟩ := ha
      obtain ⟨m', -, hm'⟩ := hm.step hl.1 hstep
      exact ⟨m', hm'⟩
  rw [hs'.executed]
  refine ⟨List.IsPrefix.map _ ⟨_, hparts'⟩, fun hticking => ?_⟩
  rw [← hparts', DispatcherState.remaining, hs'.dispatcher.idle hticking, List.drop_nil,
    List.append_nil]

/-- A callback adds a listener, sends an event and destroys the ticket of the next listener. The
event is delivered by the second tick, and another one, which is sent during that tick, is
cleared. -/
theorem delivers_mail_reentrant : ∃ (s : MediatorState ℕ Bool ℕ ℕ) (m : Mailbox Bool ℕ ℕ),
    run Mailbox.step { nextId := 5 } [.add true 50, .add true 60, .send true 1, .deliver,
      .add true 70, .send true 2, .remove true 6, .ret, .deliver, .ret, .send false 3, .clear 0,
      .ret] = some m ∧
    m.log = s.router.log ∧ m.waiting = s.waiting ∧
    s.router.log = [.registered true 5, .registered true 6, .fired true 1, .invoked true 5 50 1,
      .registered true 7, .destroyed true 6, .ended true, .fired true 2, .invoked true 5 50 2,
      .invoked true 7 70 2, .ended true] ∧
    s.fired = [(some 1, true, 1), (some 1, true, 2)] ∧
    ∀ x ∈ s.fired, ∃ t, x.1 = some t ∧ checkAffinity (some 1) t = true := by
  have hrun : (runWhile (fun s a => decide (s.Timely a)) step
    (new (some 1) 5 : MediatorState ℕ Bool ℕ ℕ)
      [.addListener 1 true 50, .addListener 1 true 60, .send true 1, .tick 1 false, .next,
       .addListener 1 true 70, .send true 2, .destroy true 6, .ret, .next, .tick 1 true, .next,
       .ret, .send false 3, .clear, .ret, .next]).map (fun s => (s.router.log, s.fired)) =
      some ([.registered true 5, .registered true 6, .fired true 1, .invoked true 5 50 1,
        .registered true 7, .destroyed true 6, .ended true, .fired true 2, .invoked true 5 50 2,
        .invoked true 7 70 2, .ended true], [(some 1, true, 1), (some 1, true, 2)]) := by decide
  obtain ⟨s, hs, hseen⟩ := Option.map_eq_some_iff.1 hrun
  obtain ⟨hlog, hfired⟩ := Prod.mk.inj hseen
  obtain ⟨⟨m, hm, hmail, hwaiting⟩, hthreads, -⟩ := delivers_mail hs
  exact ⟨s, m, hm, hmail, hwaiting, hlog, hfired, hthreads⟩

end MediatorState

end Arcana.Messaging
