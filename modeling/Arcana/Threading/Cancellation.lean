import Mathlib.Logic.Function.Basic
import Arcana.Containers.TicketedCollection

/-!
# `cancellation_source`

Any number of threads add listeners, cancel, and destroy the tickets of the listeners. The steps are
the critical sections of `m_mutex`, the exchange of `m_cancellationRequested` and the starts and
returns of the listeners, which are user code: a thread that runs one may do what it may do outside.
A call that `cancel` or `add_listener` is in the middle of is a frame on the stack of its thread.

`Step` lists the steps, and `Sound` is what holds in all runs: the collection has the listeners
whose ticket was not destroyed, and the tickets that the calls still have to return are told from
the others.

* `Frame` are the calls in progress, `Event` is what is seen of a run, and `SourceState` is a source
  in use.
* `SourceState.step` is a step of one thread. `SourceState.Step` lists what it can do
  (`step_sound`), so that an invariant is proved by cases.
* `SourceState.registered`, `invoked`, `returned`, `destroyed` and `owed` read off from the log what
  the invariant speaks of.
* `SourceState.Sound` is the invariant, and `SourceState.Sound.step` says that every step keeps it.
-/

namespace Arcana.Threading

open Foundations Containers

/-- A call in progress, or a listener that runs. -/
inductive Frame (F : Type*)
  /-- `cancel`, before the critical section of `signal_cancelled`. -/
  | signalling
  /-- `signal_cancelled`, with the copies that are still to be called. -/
  | delivering (todo : List (Int64 × F))
  /-- `add_listener`, after its critical section. -/
  | adding (id : Int64) (copied : Option F)
  | listening (id : Int64) (listener : F)

/-- What is seen of a run. -/
inductive Event (ι : Type*)
  | registered (i : ι) (id : Int64)
  /-- The critical section of `signal_cancelled`. -/
  | signalled
  /-- A listener is called, by its own `add_listener` or by `signal_cancelled`. -/
  | invoked (i : ι) (id : Int64) (own : Bool)
  /-- `add_listener` returns the ticket. -/
  | returned (id : Int64)
  | destroyed (id : Int64)
  /-- `signal_cancelled` returns. -/
  | cancelled
  deriving DecidableEq

variable {ι F : Type*}

namespace Event

def registeredId : Event ι → Option Int64
  | .registered _ id => some id
  | _ => none

def invokedId : Event ι → Option Int64
  | .invoked _ id _ => some id
  | _ => none

def returnedId : Event ι → Option Int64
  | .returned id => some id
  | _ => none

def destroyedId : Event ι → Option Int64
  | .destroyed id => some id
  | _ => none

end Event

/-- The ticket that a frame has still to return. -/
def Frame.addingId : Frame F → Option Int64
  | .adding id _ => some id
  | _ => none

/-- Whether a frame is one of `cancel`. -/
def Frame.isSignal : Frame F → Bool
  | .signalling | .delivering _ => true
  | _ => false

/-- Whether a thread runs user code: a listener, or what it does outside of the calls. -/
def inUserCode : List (Frame F) → Bool
  | [] | .listening _ _ :: _ => true
  | _ => false

/-- A source. The collection is made when it is first needed, and an empty one stands for none. The
tickets are those that were returned and not destroyed; the log is a history. -/
structure SourceState (ι F : Type*) where
  requested : Bool := false
  signaled : Bool := false
  listeners : TicketedCollection F := {}
  stack : ι → List (Frame F) := fun _ => []
  tickets : List Int64 := []
  log : List (Event ι) := []

inductive SourceAction (ι F : Type*)
  | addListener (i : ι) (callback : F)
  | cancel (i : ι)
  | destroy (i : ι) (id : Int64)
  /-- The call or the listener of a thread goes on. -/
  | go (i : ι)

namespace SourceState

/-- The listeners that were added, by their ids, in order. -/
def registered (s : SourceState ι F) : List Int64 := s.log.filterMap Event.registeredId

def invoked (s : SourceState ι F) : List Int64 := s.log.filterMap Event.invokedId

def returned (s : SourceState ι F) : List Int64 := s.log.filterMap Event.returnedId

def destroyed (s : SourceState ι F) : List Int64 := s.log.filterMap Event.destroyedId

/-- The tickets that a thread has still to return. -/
def owed (s : SourceState ι F) (i : ι) : List Int64 := (s.stack i).filterMap Frame.addingId

variable [DecidableEq ι]

/-- One step of one thread. -/
def step (s : SourceState ι F) : SourceAction ι F → Option (SourceState ι F)
  | .addListener i callback =>
    if inUserCode (s.stack i) then
      (s.listeners.insert callback).map fun result =>
        { s with
          listeners := result.1
          stack := Function.update s.stack i
            (.adding result.2 (if s.signaled then some callback else none) :: s.stack i)
          log := s.log ++ [.registered i result.2] }
    else
      none
  | .cancel i =>
    if inUserCode (s.stack i) then
      if s.requested then
        some s
      else
        some { s with
          requested := true
          stack := Function.update s.stack i (.signalling :: s.stack i) }
    else
      none
  | .destroy i id =>
    if inUserCode (s.stack i) ∧ id ∈ s.tickets then
      (s.listeners.remove id).map fun listeners =>
        { s with listeners, tickets := s.tickets.erase id, log := s.log ++ [.destroyed id] }
    else
      none
  | .go i =>
    match s.stack i with
    | [] => none
    | .signalling :: rest => some
      { s with
        signaled := true
        stack := Function.update s.stack i (.delivering s.listeners.items.reverse :: rest)
        log := s.log ++ [.signalled] }
    | .delivering [] :: rest => some
      { s with stack := Function.update s.stack i rest, log := s.log ++ [.cancelled] }
    | .delivering ((id, listener) :: todo) :: rest => some
      { s with
        stack := Function.update s.stack i (.listening id listener :: .delivering todo :: rest)
        log := s.log ++ [.invoked i id false] }
    | .adding id (some copied) :: rest => some
      { s with
        stack := Function.update s.stack i (.listening id copied :: .adding id none :: rest)
        log := s.log ++ [.invoked i id true] }
    | .adding id none :: rest => some
      { s with
        stack := Function.update s.stack i rest
        tickets := s.tickets ++ [id]
        log := s.log ++ [.returned id] }
    | .listening _ _ :: rest => some { s with stack := Function.update s.stack i rest }

/-! ### The steps -/

/-- What a step does. -/
inductive Step (s : SourceState ι F) : SourceAction ι F → SourceState ι F → Prop
  | add {i : ι} {id : Int64} {callback : F} {listeners : TicketedCollection F} :
      s.listeners.insert callback = some (listeners, id) →
      Step s (.addListener i callback)
        { s with
          listeners
          stack := Function.update s.stack i
            (.adding id (if s.signaled then some callback else none) :: s.stack i)
          log := s.log ++ [.registered i id] }
  | cancelAgain {i : ι} : s.requested = true → Step s (.cancel i) s
  | cancel {i : ι} : s.requested = false →
      Step s (.cancel i)
        { s with requested := true, stack := Function.update s.stack i (.signalling :: s.stack i) }
  | destroy {i : ι} {id : Int64} {listeners : TicketedCollection F} : id ∈ s.tickets →
      s.listeners.remove id = some listeners →
      Step s (.destroy i id)
        { s with listeners, tickets := s.tickets.erase id, log := s.log ++ [.destroyed id] }
  | signal {i : ι} {rest : List (Frame F)} : s.stack i = .signalling :: rest →
      Step s (.go i)
        { s with
          signaled := true
          stack := Function.update s.stack i (.delivering s.listeners.items.reverse :: rest)
          log := s.log ++ [.signalled] }
  | finish {i : ι} {rest : List (Frame F)} : s.stack i = .delivering [] :: rest →
      Step s (.go i)
        { s with stack := Function.update s.stack i rest, log := s.log ++ [.cancelled] }
  | deliver {i : ι} {id : Int64} {listener : F} {todo : List (Int64 × F)} {rest : List (Frame F)} :
      s.stack i = .delivering ((id, listener) :: todo) :: rest →
      Step s (.go i)
        { s with
          stack := Function.update s.stack i (.listening id listener :: .delivering todo :: rest)
          log := s.log ++ [.invoked i id false] }
  | invoke {i : ι} {id : Int64} {copied : F} {rest : List (Frame F)} :
      s.stack i = .adding id (some copied) :: rest →
      Step s (.go i)
        { s with
          stack := Function.update s.stack i (.listening id copied :: .adding id none :: rest)
          log := s.log ++ [.invoked i id true] }
  | handOut {i : ι} {id : Int64} {rest : List (Frame F)} : s.stack i = .adding id none :: rest →
      Step s (.go i)
        { s with
          stack := Function.update s.stack i rest
          tickets := s.tickets ++ [id]
          log := s.log ++ [.returned id] }
  | listened {i : ι} {id : Int64} {listener : F} {rest : List (Frame F)} :
      s.stack i = .listening id listener :: rest →
      Step s (.go i) { s with stack := Function.update s.stack i rest }

variable {s s' : SourceState ι F} {i j : ι} {id : Int64}

theorem step_sound {a : SourceAction ι F} (h : s.step a = some s') : Step s a s' := by
  cases a with
  | addListener i callback =>
    obtain ⟨-, h⟩ := Option.ite_none_right_eq_some.1 h
    obtain ⟨⟨listeners, id⟩, hinsert, rfl⟩ := Option.map_eq_some_iff.1 h
    exact .add hinsert
  | cancel i =>
    obtain ⟨-, h⟩ := Option.ite_none_right_eq_some.1 h
    split_ifs at h with hrequested
    · exact Option.some.inj h ▸ .cancelAgain hrequested
    · exact Option.some.inj h ▸ .cancel (Bool.eq_false_iff.2 hrequested)
  | destroy i id =>
    obtain ⟨⟨-, hid⟩, h⟩ := Option.ite_none_right_eq_some.1 h
    obtain ⟨listeners, hremove, rfl⟩ := Option.map_eq_some_iff.1 h
    exact .destroy hid hremove
  | go i =>
    simp only [step] at h
    split at h
    · cases h
    · rename_i rest hi
      exact Option.some.inj h ▸ .signal hi
    · rename_i rest hi
      exact Option.some.inj h ▸ .finish hi
    · rename_i id listener todo rest hi
      exact Option.some.inj h ▸ .deliver hi
    · rename_i id copied rest hi
      exact Option.some.inj h ▸ .invoke hi
    · rename_i id rest hi
      exact Option.some.inj h ▸ .handOut hi
    · rename_i id listener rest hi
      exact Option.some.inj h ▸ .listened hi

/-! ### The tickets -/

/-- The ids are increasing and each is the ticket of one call; the collection has those that were
not destroyed; and the tickets in the hands of the callers are told from those still to be
returned. -/
structure Sound (s : SourceState ι F) : Prop where
  ids : s.listeners.items.map Prod.fst = s.registered.filter (· ∉ s.destroyed)
  below : ∀ id ∈ s.registered, id < s.listeners.seed
  ordered : s.registered.Pairwise (· < ·)
  owner : ∀ i j id, .registered i id ∈ s.log → .registered j id ∈ s.log → i = j
  nodup : ∀ i, (s.owed i).Nodup
  owing : ∀ i, ∀ id ∈ s.owed i, .registered i id ∈ s.log ∧ id ∉ s.tickets ∧ id ∉ s.destroyed
  tickets : s.tickets.Nodup
  held : ∀ id ∈ s.tickets, id ∈ s.registered ∧ id ∉ s.destroyed
  gone : ∀ id ∈ s.destroyed, id ∈ s.registered

section Log

omit [DecidableEq ι]

theorem mem_registered : id ∈ s.registered ↔ ∃ i, .registered i id ∈ s.log := by
  constructor
  · intro h
    obtain ⟨e, he, hid⟩ := List.mem_filterMap.1 h
    cases e <;> simp [Event.registeredId] at hid
    rename_i i id'
    exact ⟨i, hid ▸ he⟩
  · rintro ⟨i, h⟩
    exact List.mem_filterMap.2 ⟨_, h, rfl⟩

theorem mem_destroyed : id ∈ s.destroyed ↔ .destroyed id ∈ s.log := by
  constructor
  · intro h
    obtain ⟨e, he, hid⟩ := List.mem_filterMap.1 h
    cases e <;> simp [Event.destroyedId] at hid
    exact hid ▸ he
  · exact fun h => List.mem_filterMap.2 ⟨_, h, rfl⟩

variable {t : SourceState ι F} {e : Event ι}

theorem registered_append (h : t.log = s.log ++ [e]) :
    t.registered = s.registered ++ e.registeredId.toList := by
  rw [registered, h, List.filterMap_append, registered]
  cases he : e.registeredId <;> simp [he]

theorem invoked_append (h : t.log = s.log ++ [e]) :
    t.invoked = s.invoked ++ e.invokedId.toList := by
  rw [invoked, h, List.filterMap_append, invoked]
  cases he : e.invokedId <;> simp [he]

theorem returned_append (h : t.log = s.log ++ [e]) :
    t.returned = s.returned ++ e.returnedId.toList := by
  rw [returned, h, List.filterMap_append, returned]
  cases he : e.returnedId <;> simp [he]

theorem destroyed_append (h : t.log = s.log ++ [e]) :
    t.destroyed = s.destroyed ++ e.destroyedId.toList := by
  rw [destroyed, h, List.filterMap_append, destroyed]
  cases he : e.destroyedId <;> simp [he]

/-- The ids are all different. -/
theorem Sound.nodup_registered (h : s.Sound) : s.registered.Nodup := h.ordered.nodup

/-- A step that is not about the tickets. -/
theorem Sound.congr (h : s.Sound) (hlog : t.log = s.log ∨ ∃ e, t.log = s.log ++ [e] ∧
      e.registeredId = none ∧ e.destroyedId = none)
    (howed : ∀ i, t.owed i = s.owed i) (hlisteners : t.listeners = s.listeners := by rfl)
    (htickets : t.tickets = s.tickets := by rfl) : t.Sound := by
  have hregistered : t.registered = s.registered := by
    rcases hlog with hlog | ⟨e, hlog, he, -⟩
    · rw [registered, hlog, registered]
    · rw [registered_append hlog, he]
      exact List.append_nil _
  have hdestroyed : t.destroyed = s.destroyed := by
    rcases hlog with hlog | ⟨e, hlog, -, he⟩
    · rw [destroyed, hlog, destroyed]
    · rw [destroyed_append hlog, he]
      exact List.append_nil _
  have hmem (i : ι) (id : Int64) : .registered i id ∈ t.log ↔ .registered i id ∈ s.log := by
    rcases hlog with hlog | ⟨e, hlog, he, -⟩
    · rw [hlog]
    · rw [hlog, List.mem_append, List.mem_singleton, or_iff_left]
      rintro rfl
      cases he
  constructor
  · rw [hlisteners, hregistered, hdestroyed, h.ids]
  · rw [hlisteners, hregistered]
    exact h.below
  · rw [hregistered]
    exact h.ordered
  · intro i j id hi hj
    exact h.owner i j id ((hmem i id).1 hi) ((hmem j id).1 hj)
  · intro i
    rw [howed]
    exact h.nodup i
  · intro i id hid
    rw [howed] at hid
    rw [hmem, htickets, hdestroyed]
    exact h.owing i id hid
  · rw [htickets]
    exact h.tickets
  · rw [htickets, hregistered, hdestroyed]
    exact h.held
  · rw [hregistered, hdestroyed]
    exact h.gone

end Log

/-- What a thread has still to return, when its stack changes. -/
theorem owed_update {rest : List (Frame F)} (hstack : s'.stack = Function.update s.stack i rest)
    (h : rest.filterMap Frame.addingId = s.owed i) (j : ι) : s'.owed j = s.owed j := by
  rw [owed, hstack]
  by_cases hj : j = i
  · rw [hj, Function.update_self, h]
  · rw [Function.update_of_ne hj, owed]

omit [DecidableEq ι] in
/-- A new listener has an id that no other had. -/
theorem Sound.fresh (h : s.Sound) : s.listeners.seed ∉ s.registered := by
  intro hmem
  have hlt := h.below _ hmem
  exact Int64.lt_irrefl hlt

theorem Sound.add (h : s.Sound) {callback : F} {listeners : TicketedCollection F}
    {copied : Option F} (hinsert : s.listeners.insert callback = some (listeners, id)) :
    ({ s with
      listeners
      stack := Function.update s.stack i (.adding id copied :: s.stack i)
      log := s.log ++ [.registered i id] } : SourceState ι F).Sound := by
  obtain ⟨rfl, hitems, hseed⟩ := TicketedCollection.insert_eq hinsert
  set t : SourceState ι F :=
    { s with
      listeners
      stack := Function.update s.stack i (.adding s.listeners.seed copied :: s.stack i)
      log := s.log ++ [.registered i s.listeners.seed] } with ht
  have hregistered : t.registered = s.registered ++ [s.listeners.seed] :=
    registered_append (s := s) (e := .registered i _) rfl
  have hdestroyed : t.destroyed = s.destroyed :=
    (destroyed_append (s := s) (e := .registered i _) rfl).trans (List.append_nil _)
  have hmem (j : ι) (id : Int64) : .registered j id ∈ t.log ↔
      .registered j id ∈ s.log ∨ j = i ∧ id = s.listeners.seed := by
    rw [ht]
    simp
  have hself : t.owed i = s.listeners.seed :: s.owed i := by
    rw [owed, ht]
    simp only [Function.update_self]
    rfl
  have hother (j : ι) (hj : j ≠ i) : t.owed j = s.owed j := by
    rw [owed, ht]
    simp only [Function.update_of_ne hj]
    rfl
  have hnew : s.listeners.seed ∉ s.destroyed := fun hmem => h.fresh (h.gone _ hmem)
  constructor
  · show listeners.items.map Prod.fst = _
    rw [hitems, List.map_append, h.ids, hregistered, hdestroyed, List.filter_append]
    simp [hnew]
  · intro id hid
    rw [hregistered, List.mem_append, List.mem_singleton] at hid
    exact lt_increment_of_le hseed (hid.imp_left (h.below id))
  · rw [hregistered, List.pairwise_append]
    refine ⟨h.ordered, List.pairwise_singleton _ _, fun a ha b hb => ?_⟩
    obtain rfl := List.mem_singleton.1 hb
    exact h.below a ha
  · intro j k id hj hk
    rw [hmem] at hj hk
    rcases hj with hj | ⟨rfl, rfl⟩
    · rcases hk with hk | ⟨rfl, rfl⟩
      · exact h.owner j k id hj hk
      · exact absurd (mem_registered.2 ⟨j, hj⟩) h.fresh
    · rcases hk with hk | ⟨rfl, -⟩
      · exact absurd (mem_registered.2 ⟨k, hk⟩) h.fresh
      · rfl
  · intro j
    by_cases hj : j = i
    · subst hj
      rw [hself, List.nodup_cons]
      exact ⟨fun hmem => h.fresh (mem_registered.2 ⟨j, (h.owing j _ hmem).1⟩), h.nodup j⟩
    · rw [hother j hj]
      exact h.nodup j
  · intro j id hid
    rw [hmem, hdestroyed]
    by_cases hj : j = i
    · subst hj
      rw [hself, List.mem_cons] at hid
      rcases hid with rfl | hid
      · exact ⟨.inr ⟨rfl, rfl⟩, fun hheld => h.fresh (h.held _ hheld).1, hnew⟩
      · exact (h.owing j id hid).imp_left .inl
    · rw [hother j hj] at hid
      exact (h.owing j id hid).imp_left .inl
  · exact h.tickets
  · intro id hid
    rw [hregistered, hdestroyed]
    exact (h.held id hid).imp_left (List.mem_append_left _)
  · intro id hid
    rw [hdestroyed] at hid
    rw [hregistered]
    exact List.mem_append_left _ (h.gone id hid)

omit [DecidableEq ι] in
theorem Sound.destroy (h : s.Sound) {listeners : TicketedCollection F} (hid : id ∈ s.tickets)
    (hremove : s.listeners.remove id = some listeners) :
    ({ s with listeners, tickets := s.tickets.erase id, log := s.log ++ [.destroyed id] } :
      SourceState ι F).Sound := by
  set t : SourceState ι F :=
    { s with listeners, tickets := s.tickets.erase id, log := s.log ++ [.destroyed id] } with ht
  have hregistered : t.registered = s.registered :=
    (registered_append (s := s) (e := .destroyed id) rfl).trans (List.append_nil _)
  have hdestroyed : t.destroyed = s.destroyed ++ [id] :=
    destroyed_append (s := s) (e := .destroyed id) rfl
  have hmem (j : ι) (id' : Int64) : .registered j id' ∈ t.log ↔ .registered j id' ∈ s.log := by
    rw [ht]
    simp
  obtain ⟨hknown, hkept⟩ := h.held id hid
  have hitem : id ∈ s.listeners.items.map Prod.fst := by
    rw [h.ids]
    exact List.mem_filter.2 ⟨hknown, decide_eq_true hkept⟩
  obtain ⟨⟨id', x⟩, hx, rfl⟩ := List.mem_map.1 hitem
  obtain ⟨l₁, l₂, hl⟩ := List.append_of_mem hx
  obtain ⟨listeners', hremove', hitems, hseed⟩ := TicketedCollection.remove_eq hl
  obtain rfl := Option.some.inj (hremove.symm.trans hremove')
  have hids : listeners.items.map Prod.fst =
      (s.listeners.items.map Prod.fst).filter (· ≠ id') := by
    rw [hitems, ← TicketedCollection.filter_ne hl, List.filter_map]
    rfl
  constructor
  · show listeners.items.map Prod.fst = _
    rw [hids, h.ids, hregistered, hdestroyed, List.filter_filter]
    refine List.filter_congr fun a _ => ?_
    rw [← Bool.decide_and]
    exact decide_eq_decide.2 (by rw [List.mem_append, List.mem_singleton, not_or, and_comm])
  · intro a ha
    rw [hregistered] at ha
    show a < listeners.seed
    rw [hseed]
    exact h.below a ha
  · rw [hregistered]
    exact h.ordered
  · intro j k a hj hk
    exact h.owner j k a ((hmem j a).1 hj) ((hmem k a).1 hk)
  · exact h.nodup
  · intro j a ha
    obtain ⟨hlog, hnot, hkept⟩ := h.owing j a ha
    rw [hmem, hdestroyed, List.mem_append, List.mem_singleton]
    refine ⟨hlog, fun hheld => hnot (List.mem_of_mem_erase hheld), ?_⟩
    rintro (hgone | rfl)
    · exact hkept hgone
    · exact hnot hid
  · exact h.tickets.erase id'
  · intro a ha
    obtain ⟨hne, ha⟩ := h.tickets.mem_erase_iff.1 ha
    rw [hregistered, hdestroyed, List.mem_append, List.mem_singleton, not_or]
    exact ⟨(h.held a ha).1, (h.held a ha).2, hne⟩
  · intro a ha
    rw [hdestroyed, List.mem_append, List.mem_singleton] at ha
    rw [hregistered]
    rcases ha with ha | rfl
    · exact h.gone a ha
    · exact hknown

/-- A call returns its ticket, which no other has. -/
theorem Sound.handOut (h : s.Sound) {rest : List (Frame F)}
    (hi : s.stack i = .adding id none :: rest) :
    ({ s with
      stack := Function.update s.stack i rest
      tickets := s.tickets ++ [id]
      log := s.log ++ [.returned id] } : SourceState ι F).Sound := by
  set t : SourceState ι F :=
    { s with
      stack := Function.update s.stack i rest
      tickets := s.tickets ++ [id]
      log := s.log ++ [.returned id] } with ht
  have hregistered : t.registered = s.registered :=
    (registered_append (s := s) (e := .returned id) rfl).trans (List.append_nil _)
  have hdestroyed : t.destroyed = s.destroyed :=
    (destroyed_append (s := s) (e := .returned id) rfl).trans (List.append_nil _)
  have hmem (j : ι) (id' : Int64) : .registered j id' ∈ t.log ↔ .registered j id' ∈ s.log := by
    rw [ht]
    simp
  have hself : s.owed i = id :: t.owed i := by
    rw [owed, owed, hi, ht]
    simp only [Function.update_self]
    rfl
  have hother (j : ι) (hj : j ≠ i) : t.owed j = s.owed j := by
    rw [owed, ht]
    simp only [Function.update_of_ne hj]
    rfl
  have hnodup := h.nodup i
  rw [hself, List.nodup_cons] at hnodup
  obtain ⟨hlog, hnot, hkept⟩ := h.owing i id (hself ▸ .head _)
  constructor
  · rw [hregistered, hdestroyed]
    exact h.ids
  · rw [hregistered]
    exact h.below
  · rw [hregistered]
    exact h.ordered
  · intro j k a hj hk
    exact h.owner j k a ((hmem j a).1 hj) ((hmem k a).1 hk)
  · intro j
    by_cases hj : j = i
    · rw [hj]
      exact hnodup.2
    · rw [hother j hj]
      exact h.nodup j
  · intro j a ha
    have hsub : a ∈ s.owed j ∧ a ≠ id := by
      by_cases hj : j = i
      · subst hj
        refine ⟨hself ▸ .tail _ ha, ?_⟩
        rintro rfl
        exact hnodup.1 ha
      · rw [hother j hj] at ha
        refine ⟨ha, ?_⟩
        rintro rfl
        exact hj (h.owner j i a (h.owing j a ha).1 hlog)
    obtain ⟨hlog, hnot, hkept⟩ := h.owing j a hsub.1
    rw [hmem, hdestroyed]
    refine ⟨hlog, fun hheld => ?_, hkept⟩
    rcases List.mem_append.1 hheld with hheld | hheld
    · exact hnot hheld
    · exact hsub.2 (List.mem_singleton.1 hheld)
  · refine List.nodup_append.2 ⟨h.tickets, by simp, ?_⟩
    rintro a ha b hb rfl
    obtain rfl := List.mem_singleton.1 hb
    exact hnot ha
  · intro a ha
    rw [hregistered, hdestroyed]
    rcases List.mem_append.1 ha with ha | ha
    · exact h.held a ha
    · obtain rfl := List.mem_singleton.1 ha
      exact ⟨mem_registered.2 ⟨i, hlog⟩, hkept⟩
  · rw [hregistered, hdestroyed]
    exact h.gone

theorem Sound.step (h : s.Sound) {a : SourceAction ι F} (hstep : Step s a s') : s'.Sound := by
  cases hstep with
  | add hinsert => exact h.add hinsert
  | cancelAgain hrequested => exact h
  | cancel hrequested => exact h.congr (.inl rfl) (owed_update rfl rfl)
  | destroy hid hremove => exact h.destroy hid hremove
  | signal hi =>
    exact h.congr (.inr ⟨_, rfl, rfl, rfl⟩) (owed_update rfl (by rw [owed, hi]; rfl))
  | finish hi =>
    exact h.congr (.inr ⟨_, rfl, rfl, rfl⟩) (owed_update rfl (by rw [owed, hi]; rfl))
  | deliver hi =>
    exact h.congr (.inr ⟨_, rfl, rfl, rfl⟩) (owed_update rfl (by rw [owed, hi]; rfl))
  | invoke hi =>
    exact h.congr (.inr ⟨_, rfl, rfl, rfl⟩) (owed_update rfl (by rw [owed, hi]; rfl))
  | handOut hi => exact h.handOut hi
  | listened hi => exact h.congr (.inl rfl) (owed_update rfl (by rw [owed, hi]; rfl))

omit [DecidableEq ι] in
theorem Sound.initial : ({} : SourceState ι F).Sound where
  ids := rfl
  below := nofun
  ordered := .nil
  owner := nofun
  nodup _ := .nil
  owing := nofun
  tickets := .nil
  held := nofun
  gone := nofun

end SourceState

end Arcana.Threading
