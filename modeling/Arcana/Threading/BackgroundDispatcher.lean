import Arcana.Threading.Dispatcher

/-!
# `background_dispatcher`

A dispatcher with a thread of its own that ticks it until it is cancelled. Works are queued from any
thread, and from the works. The owner calls `cancel`, any number of times, and last of all in the
destructor. The first call sets the flag and notifies; each joins the thread, if that was not done
before, and clears the queue.

A blocking tick evaluates its condition and waits in two steps, with the mutex of the queue held in
between (`WorkerPhase.waiting`): works cannot be queued there, but the flag can be set and the
thread notified, which it does not hear. Asleep, it goes on when it is notified, by `cancel` or
after a push, or when the wait ends without a notification.

* `BackgroundState.step`: one step of the thread, of the owner or of a thread that queues.
* `BackgroundState.budget`: the steps that the thread has still to make when the flag is set.
* `BackgroundState.stops_cleanly`: what is executed and cleared, what the thread does when the flag
  is set, and when it hears the notification.
-/

namespace Arcana.Threading

open Foundations

/-- Where the thread of a background dispatcher is. -/
inductive WorkerPhase
  /-- Before `set_affinity`. -/
  | starting
  /-- At the condition of the loop. -/
  | testing
  /-- At the condition of the wait in `blocking_drain`. -/
  | draining
  /-- After the condition, before the wait, with the mutex. -/
  | waiting
  | asleep
  /-- In the loop of `internal_tick`. -/
  | working
  | exited
  deriving DecidableEq

/-- What a notification does to the thread. -/
def WorkerPhase.wake : WorkerPhase → WorkerPhase
  | .asleep => .draining
  | worker => worker

namespace WorkerPhase

theorem wake_of_ne {worker : WorkerPhase} (h : worker ≠ .asleep) : worker.wake = worker := by
  cases worker with
  | asleep => exact absurd rfl h
  | _ => rfl

theorem wake_ne_asleep (worker : WorkerPhase) : worker.wake ≠ .asleep := by
  cases worker with
  | _ => decide

theorem wake_ne_waiting {worker : WorkerPhase} (h : worker ≠ .waiting) :
    worker.wake ≠ .waiting := by
  cases worker with
  | waiting => exact absurd rfl h
  | _ => decide

end WorkerPhase

/-- Where the owner of a background dispatcher is in `cancel`. -/
inductive OwnerPhase
  | idle
  /-- The flag is set, and the listener of the source not called. -/
  | notifying
  | joining
  | clearing
  deriving DecidableEq

/-- A background dispatcher, whose thread has the given id. `pushers` counts the threads that have
queued a work and have still to notify. -/
structure BackgroundState (T W : Type*) where
  dispatcher : DispatcherState W := {}
  affinity : Option T := none
  thread : T
  joinable : Bool := true
  requested : Bool := false
  worker : WorkerPhase := .starting
  owner : OwnerPhase := .idle
  pushers : ℕ := 0

inductive BackgroundAction (W : Type*)
  | queue (work : W)
  /-- A thread that has queued a work calls `notify_one`. -/
  | notifyOne
  /-- The wait ends without a notification. -/
  | wake
  | cancel
  /-- The owner goes on. -/
  | own
  /-- The thread goes on. -/
  | work
  deriving DecidableEq

namespace BackgroundState

variable {T W : Type*}

/-- A new background dispatcher. -/
def new (thread : T) : BackgroundState T W := { thread }

/-- The steps that the thread has still to make when the flag is set. -/
def budget (s : BackgroundState T W) : ℕ :=
  match s.worker with
  | .exited => 0
  | .testing => 1
  | .starting | .draining | .asleep => 2
  | .waiting => 3
  | .working => s.dispatcher.remaining.length + 2

/-- What holds between the steps. -/
structure Consistent (s : BackgroundState T W) : Prop where
  dispatcher : s.dispatcher.Consistent
  working : s.worker = .working ↔ s.dispatcher.ticking ≠ none
  affinity : s.worker ≠ .starting → s.affinity = some s.thread
  exited : s.worker = .exited → s.requested = true
  owner : s.owner ≠ .idle → s.requested = true
  joined : s.joinable = false → s.worker = .exited
  clearing : s.owner = .clearing → s.joinable = false

variable {s s' : BackgroundState T W} {a : BackgroundAction W} {thread : T}

theorem Consistent.initial (thread : T) : (new thread : BackgroundState T W).Consistent where
  dispatcher := .initial
  working := ⟨nofun, fun hne => absurd rfl hne⟩
  affinity h := absurd rfl h
  exited := nofun
  owner h := absurd rfl h
  joined := nofun
  clearing := nofun

/-- Outside of the loop of a tick. -/
theorem Consistent.ticking (h : s.Consistent) (hworker : s.worker ≠ .working) :
    s.dispatcher.ticking = none := by
  by_contra hticking
  exact hworker (h.working.2 hticking)

theorem Consistent.workload (h : s.Consistent) (hworker : s.worker ≠ .working) :
    s.dispatcher.workload = [] := h.dispatcher.idle (h.ticking hworker)

theorem Consistent.remaining (h : s.Consistent) (hworker : s.worker ≠ .working) :
    s.dispatcher.remaining = [] := by
  rw [DispatcherState.remaining, h.workload hworker, List.drop_nil]

/-- A step of the thread, which is not joined before it has exited. -/
theorem Consistent.goes (h : s.Consistent) (hworker : s.worker ≠ .exited) {d : DispatcherState W}
    {affinity : Option T} {worker : WorkerPhase} (hd : d.Consistent)
    (hworking : worker = .working ↔ d.ticking ≠ none) (haffinity : affinity = some s.thread)
    (hexited : worker = .exited → s.requested = true) :
    { s with dispatcher := d, affinity, worker }.Consistent where
  dispatcher := hd
  working := hworking
  affinity _ := haffinity
  exited := hexited
  owner := h.owner
  joined hjoined := absurd (h.joined hjoined) hworker
  clearing := h.clearing

/-- A blocking tick begins with something to execute. -/
theorem ticking_of_tick {d d' : DispatcherState W} (h : d.step (.tick true) = some d') :
    d'.ticking = some 0 := by
  rw [DispatcherState.step] at h
  split at h
  · cases h
  · split at h
    · cases h
    · obtain rfl := Option.some.inj h
      rfl

/-- The thread is notified. -/
theorem Consistent.woken (h : s.Consistent) : { s with worker := s.worker.wake }.Consistent := by
  by_cases hworker : s.worker = .asleep
  · have hticking := h.ticking (by rw [hworker]; decide)
    have haffinity := h.affinity (by rw [hworker]; decide)
    rw [hworker]
    exact h.goes (by rw [hworker]; decide) h.dispatcher ⟨nofun, fun hne => absurd hticking hne⟩
      haffinity nofun
  · rw [WorkerPhase.wake_of_ne hworker]
    exact h

/-! ### The steps -/

variable [DecidableEq T]

/-- One step of a background dispatcher. `join` waits for the thread to exit. A work is not queued
when the thread has the mutex of the queue, and the pusher notifies when the queue was empty. -/
def step (s : BackgroundState T W) : BackgroundAction W → Option (BackgroundState T W)
  | .queue work =>
    if s.worker = .waiting then
      none
    else
      (s.dispatcher.step (.queue work)).map fun dispatcher =>
        { s with
          dispatcher
          pushers := if s.dispatcher.work.isEmpty then s.pushers + 1 else s.pushers }
  | .notifyOne =>
    match s.pushers with
    | 0 => none
    | pushers + 1 => some { s with pushers, worker := s.worker.wake }
  | .wake => if s.worker = .asleep then some { s with worker := .draining } else none
  | .cancel =>
    match s.owner with
    | .idle => some
      { s with
        requested := true
        owner :=
          if s.requested then if s.joinable then .joining else .clearing else .notifying }
    | _ => none
  | .own =>
    match s.owner with
    | .idle => none
    | .notifying => some
      { s with
        worker := s.worker.wake
        owner := if s.joinable then .joining else .clearing }
    | .joining =>
      if s.worker = .exited then some { s with joinable := false, owner := .clearing } else none
    | .clearing =>
      (s.dispatcher.step .clear).map fun dispatcher => { s with dispatcher, owner := .idle }
  | .work =>
    match s.worker with
    | .starting => some { s with affinity := some s.thread, worker := .testing }
    | .testing =>
      if s.requested then
        some { s with worker := .exited }
      else if checkAffinity s.affinity s.thread then
        some { s with worker := .draining }
      else
        none
    | .draining =>
      if s.requested then
        some { s with worker := .testing }
      else
        match s.dispatcher.step (.tick true) with
        | none => some { s with worker := .waiting }
        | some dispatcher => some { s with dispatcher, worker := .working }
    | .waiting => some { s with worker := .asleep }
    | .asleep => none
    | .working =>
      (s.dispatcher.step .next).map fun dispatcher =>
        { s with dispatcher, worker := if dispatcher.ticking = none then .testing else .working }
    | .exited => none

/-- What the thread does in one step. -/
inductive Works (s : BackgroundState T W) : BackgroundState T W → Prop
  | start : s.worker = .starting → Works s { s with affinity := some s.thread, worker := .testing }
  | exit : s.worker = .testing → s.requested = true → Works s { s with worker := .exited }
  | tick : s.worker = .testing → s.requested = false → checkAffinity s.affinity s.thread = true →
    Works s { s with worker := .draining }
  | leave : s.worker = .draining → s.requested = true → Works s { s with worker := .testing }
  | wait : s.worker = .draining → s.requested = false → s.dispatcher.step (.tick true) = none →
    Works s { s with worker := .waiting }
  | drain {d : DispatcherState W} : s.worker = .draining → s.requested = false →
    s.dispatcher.step (.tick true) = some d → Works s { s with dispatcher := d, worker := .working }
  | sleep : s.worker = .waiting → Works s { s with worker := .asleep }
  | next {d : DispatcherState W} : s.worker = .working → s.dispatcher.step .next = some d →
    Works s { s with dispatcher := d, worker := if d.ticking = none then .testing else .working }

theorem works_of_step (h : s.step .work = some s') : s.Works s' := by
  rw [step] at h
  cases hworker : s.worker with
  | starting =>
    rw [hworker] at h
    obtain rfl := Option.some.inj h
    exact .start hworker
  | testing =>
    rw [hworker] at h
    cases hrequested : s.requested with
    | true =>
      rw [hrequested] at h
      obtain rfl := Option.some.inj h
      rw [← hrequested]
      exact .exit hworker hrequested
    | false =>
      rw [hrequested] at h
      obtain ⟨hcheck, h⟩ := Option.ite_none_right_eq_some.1 h
      obtain rfl := Option.some.inj h
      rw [← hrequested]
      exact .tick hworker hrequested hcheck
  | draining =>
    rw [hworker] at h
    cases hrequested : s.requested with
    | true =>
      rw [hrequested] at h
      obtain rfl := Option.some.inj h
      rw [← hrequested]
      exact .leave hworker hrequested
    | false =>
      cases htick : s.dispatcher.step (.tick true) with
      | none =>
        rw [hrequested, htick] at h
        obtain rfl := Option.some.inj h
        rw [← hrequested]
        exact .wait hworker hrequested htick
      | some d =>
        rw [hrequested, htick] at h
        obtain rfl := Option.some.inj h
        rw [← hrequested]
        exact .drain hworker hrequested htick
  | waiting =>
    rw [hworker] at h
    obtain rfl := Option.some.inj h
    exact .sleep hworker
  | working =>
    rw [hworker] at h
    obtain ⟨d, hd, rfl⟩ := Option.map_eq_some_iff.1 h
    exact .next hworker hd
  | asleep | exited =>
    rw [hworker] at h
    cases h

/-- What the owner does in one step of `cancel`. -/
theorem step_own (h : s.step .own = some s') :
    s.owner = .notifying ∧
      s' = { s with worker := s.worker.wake, owner := if s.joinable then .joining else .clearing } ∨
    s.owner = .joining ∧ s.worker = .exited ∧ s' =
    { s with joinable := false, owner := .clearing } ∨
    s.owner = .clearing ∧ ∃ d, s.dispatcher.step .clear = some d ∧
      s' = { s with dispatcher := d, owner := .idle } := by
  rw [step] at h
  cases howner : s.owner with
  | idle =>
    rw [howner] at h
    cases h
  | notifying =>
    rw [howner] at h
    exact .inl ⟨rfl, (Option.some.inj h).symm⟩
  | joining =>
    rw [howner] at h
    obtain ⟨hexited, h⟩ := Option.ite_none_right_eq_some.1 h
    exact .inr (.inl ⟨rfl, hexited, (Option.some.inj h).symm⟩)
  | clearing =>
    rw [howner] at h
    obtain ⟨d, hd, rfl⟩ := Option.map_eq_some_iff.1 h
    exact .inr (.inr ⟨rfl, d, hd, rfl⟩)

theorem step_cancel (h : s.step .cancel = some s') :
    s.owner = .idle ∧
      s' = { s with
        requested := true
        owner :=
          if s.requested then if s.joinable then .joining else .clearing else .notifying } := by
  rw [step] at h
  cases howner : s.owner with
  | idle =>
    rw [howner] at h
    exact ⟨rfl, (Option.some.inj h).symm⟩
  | notifying | joining | clearing =>
    rw [howner] at h
    cases h

theorem step_queue {work : W} (h : s.step (.queue work) = some s') :
    s.worker ≠ .waiting ∧ ∃ d pushers, s.dispatcher.step (.queue work) = some d ∧
      s' = { s with dispatcher := d, pushers } := by
  obtain ⟨hworker, h⟩ := Option.ite_none_left_eq_some.1 h
  obtain ⟨d, hd, rfl⟩ := Option.map_eq_some_iff.1 h
  exact ⟨hworker, d, _, hd, rfl⟩

theorem step_notifyOne (h : s.step .notifyOne = some s') :
    ∃ pushers, s' = { s with pushers, worker := s.worker.wake } := by
  rw [step] at h
  split at h
  · cases h
  · exact ⟨_, (Option.some.inj h).symm⟩

theorem step_wake (h : s.step .wake = some s') : s' = { s with worker := s.worker.wake } := by
  obtain ⟨hasleep, h⟩ := Option.ite_none_right_eq_some.1 h
  obtain rfl := Option.some.inj h
  rw [hasleep, WorkerPhase.wake]

theorem Consistent.queue (h : s.Consistent) {work : W} (hstep : s.step (.queue work) = some s') :
    s'.Consistent := by
  obtain ⟨-, d, pushers, hd, rfl⟩ := step_queue hstep
  have hdispatcher := h.dispatcher.queue hd
  obtain rfl := DispatcherState.step_queue hd
  exact ⟨hdispatcher, h.working, h.affinity, h.exited, h.owner, h.joined, h.clearing⟩

theorem Consistent.cancel (h : s.Consistent) (hstep : s.step .cancel = some s') :
    s'.Consistent := by
  obtain ⟨-, rfl⟩ := step_cancel hstep
  refine ⟨h.dispatcher, h.working, h.affinity, fun _ => rfl, fun _ => rfl, h.joined, ?_⟩
  cases s.requested with
  | false => exact nofun
  | true =>
    cases hjoinable : s.joinable with
    | true => exact nofun
    | false => exact fun _ => rfl

theorem Consistent.own (h : s.Consistent) (hstep : s.step .own = some s') : s'.Consistent := by
  rcases step_own hstep with ⟨howner, rfl⟩ | ⟨-, hexited, rfl⟩ | ⟨-, d, hd, rfl⟩
  · have hw := h.woken
    refine ⟨hw.dispatcher, hw.working, hw.affinity, hw.exited,
      fun _ => h.owner (by rw [howner]; decide), hw.joined, ?_⟩
    cases hjoinable : s.joinable with
    | true => exact nofun
    | false => exact fun _ => rfl
  · exact ⟨h.dispatcher, h.working, h.affinity, h.exited, fun _ => h.exited hexited,
      fun _ => hexited, fun _ => rfl⟩
  · have hdispatcher := h.dispatcher.clear hd
    obtain rfl := Option.some.inj hd
    exact ⟨hdispatcher, h.working, h.affinity, h.exited, fun hne => absurd rfl hne, h.joined, nofun⟩

theorem Consistent.work (h : s.Consistent) (hstep : s.step .work = some s') : s'.Consistent := by
  have hgoes {worker : WorkerPhase} (hexited : s.worker ≠ .exited) (hworking : s.worker ≠ .working)
      (hstarting : s.worker ≠ .starting) (hworking' : worker ≠ .working)
      (hexited' : worker = .exited → s.requested = true) : { s with worker }.Consistent :=
    h.goes hexited h.dispatcher
      ⟨fun he => absurd he hworking', fun hne => absurd (h.ticking hworking) hne⟩
      (h.affinity hstarting) hexited'
  cases works_of_step hstep with
  | start hworker =>
    have hticking := h.ticking (by rw [hworker]; decide)
    exact h.goes (by rw [hworker]; decide) h.dispatcher ⟨nofun, fun hne => absurd hticking hne⟩
      rfl nofun
  | exit hworker hrequested =>
    exact hgoes (by rw [hworker]; decide) (by rw [hworker]; decide) (by rw [hworker]; decide) nofun
      fun _ => hrequested
  | tick hworker | leave hworker | wait hworker | sleep hworker =>
    exact hgoes (by rw [hworker]; decide) (by rw [hworker]; decide) (by rw [hworker]; decide) nofun
      nofun
  | drain hworker _ hd =>
    have hticking := ticking_of_tick hd
    have haffinity := h.affinity (by rw [hworker]; decide)
    refine h.goes (by rw [hworker]; decide) (h.dispatcher.tick hd).1 ⟨fun _ => ?_, fun _ => rfl⟩
      haffinity nofun
    rw [hticking]
    exact Option.some_ne_none 0
  | @next d hworker hd =>
    have haffinity := h.affinity (by rw [hworker]; decide)
    refine h.goes (by rw [hworker]; decide) (h.dispatcher.next hd) ?_ haffinity ?_
    · cases hticking : d.ticking with
      | none => exact ⟨nofun, fun hne => absurd rfl hne⟩
      | some i => exact ⟨fun _ => Option.some_ne_none i, fun _ => rfl⟩
    · split
      · exact nofun
      · exact nofun

theorem Consistent.step (h : s.Consistent) (hstep : s.step a = some s') : s'.Consistent := by
  cases a with
  | queue work => exact h.queue hstep
  | notifyOne =>
    obtain ⟨pushers, rfl⟩ := step_notifyOne hstep
    have hw := h.woken
    exact ⟨hw.dispatcher, hw.working, hw.affinity, hw.exited, hw.owner, hw.joined, hw.clearing⟩
  | wake =>
    obtain rfl := step_wake hstep
    exact h.woken
  | cancel => exact h.cancel hstep
  | own => exact h.own hstep
  | work => exact h.work hstep

theorem Consistent.of_reach
    (h : Reach BackgroundState.step anyStep (new thread : BackgroundState T W) s) : s.Consistent :=
  h.invariant (.initial thread) fun _ _ _ ha _ hstep => ha.step hstep

/-! ### Once the flag is set -/

def isWork : BackgroundAction W → Bool
  | .work => true
  | _ => false

/-- No tick begins when the flag is set. -/
theorem executed_remaining (hrequested : s.requested = true) (hstep : s.step a = some s') :
    s'.requested = true ∧ s'.dispatcher.executed ++ s'.dispatcher.remaining =
      s.dispatcher.executed ++ s.dispatcher.remaining := by
  cases a with
  | queue work =>
    obtain ⟨-, d, pushers, hd, rfl⟩ := step_queue hstep
    exact ⟨hrequested, DispatcherState.executed_remaining (fun _ h => by cases h) hd⟩
  | notifyOne =>
    obtain ⟨pushers, rfl⟩ := step_notifyOne hstep
    exact ⟨hrequested, rfl⟩
  | wake =>
    obtain rfl := step_wake hstep
    exact ⟨hrequested, rfl⟩
  | cancel =>
    obtain ⟨-, rfl⟩ := step_cancel hstep
    exact ⟨rfl, rfl⟩
  | own =>
    rcases step_own hstep with ⟨-, rfl⟩ | ⟨-, -, rfl⟩ | ⟨-, d, hd, rfl⟩
    · exact ⟨hrequested, rfl⟩
    · exact ⟨hrequested, rfl⟩
    · exact ⟨hrequested, DispatcherState.executed_remaining (fun _ h => by cases h) hd⟩
  | work =>
    cases works_of_step hstep with
    | start | exit | leave | sleep => exact ⟨hrequested, rfl⟩
    | tick _ hnot | wait _ hnot | drain _ hnot => cases hnot.symm.trans hrequested
    | next _ hd =>
      exact ⟨hrequested, DispatcherState.executed_remaining (fun _ h => by cases h) hd⟩

/-- A step of the thread is one that it had still to make. -/
theorem budget_work (hrequested : s.requested = true) (hstep : s.step .work = some s') :
    s'.budget + 1 = s.budget := by
  cases works_of_step hstep with
  | start hworker | exit hworker | leave hworker | sleep hworker => rw [budget, budget, hworker]
  | tick _ hnot | wait _ hnot | drain _ hnot => cases hnot.symm.trans hrequested
  | next hworker hd =>
    rcases DispatcherState.step_next hd with ⟨i, item, -, hremaining, rfl⟩ | ⟨hremaining, rfl⟩
    · rw [budget, budget, hworker, hremaining]
      rfl
    · rw [budget, budget, hworker, hremaining]
      rfl

/-- The others leave the thread where it is, or wake it. -/
theorem worker_of_ne_work (ha : isWork a = false) (hstep : s.step a = some s') :
    (s'.worker = s.worker ∨ s'.worker = s.worker.wake) ∧
      s'.dispatcher.remaining = s.dispatcher.remaining := by
  cases a with
  | queue work =>
    obtain ⟨-, d, pushers, hd, rfl⟩ := step_queue hstep
    obtain rfl := DispatcherState.step_queue hd
    exact ⟨.inl rfl, rfl⟩
  | notifyOne =>
    obtain ⟨pushers, rfl⟩ := step_notifyOne hstep
    exact ⟨.inr rfl, rfl⟩
  | wake =>
    obtain rfl := step_wake hstep
    exact ⟨.inr rfl, rfl⟩
  | cancel =>
    obtain ⟨-, rfl⟩ := step_cancel hstep
    exact ⟨.inl rfl, rfl⟩
  | own =>
    rcases step_own hstep with ⟨-, rfl⟩ | ⟨-, -, rfl⟩ | ⟨-, d, hd, rfl⟩
    · exact ⟨.inr rfl, rfl⟩
    · exact ⟨.inl rfl, rfl⟩
    · obtain rfl := Option.some.inj hd
      exact ⟨.inl rfl, rfl⟩
  | work => cases ha

/-- The thread does not come back. -/
theorem worker_exited (hworker : s.worker = .exited) (hstep : s.step a = some s') :
    s'.worker = .exited := by
  cases ha : isWork a with
  | false => simpa [hworker, WorkerPhase.wake] using (worker_of_ne_work ha hstep).1
  | true =>
    cases a with
    | work =>
      rw [step, hworker] at hstep
      cases hstep
    | _ => cases ha

/-- The steps of the others do not change what the thread has still to do. -/
theorem budget_of_ne_work (ha : isWork a = false) (hstep : s.step a = some s') :
    s'.budget = s.budget := by
  obtain ⟨hworker | hworker, hremaining⟩ := worker_of_ne_work ha hstep
  · rw [budget, budget, hworker, hremaining]
  · rw [budget, budget, hworker, hremaining]
    cases s.worker with
    | _ => rfl

theorem budget_run (hrequested : s.requested = true) {actions : List (BackgroundAction W)}
    (hrun : run BackgroundState.step s actions = some s') :
    s'.budget + actions.countP isWork = s.budget := by
  induction actions generalizing s with
  | nil =>
    obtain rfl := Option.some.inj hrun
    rfl
  | cons a actions ih =>
    obtain ⟨s₁, hstep, hrest⟩ := Option.bind_eq_some_iff.1 hrun
    have hkeep := ih (executed_remaining hrequested hstep).1 hrest
    rw [List.countP_cons]
    cases ha : isWork a with
    | true =>
      obtain rfl : a = .work := by
        cases a with
        | work => rfl
        | _ => cases ha
      have hless := budget_work hrequested hstep
      rw [if_pos rfl]
      omega
    | false =>
      have hsame := budget_of_ne_work ha hstep
      rw [if_neg Bool.false_ne_true]
      omega

/-- The thread does not wait when the flag is set, but when it is asleep. -/
theorem Consistent.enabled (h : s.Consistent) (hrequested : s.requested = true)
    (hbudget : s.budget ≠ 0) (hasleep : s.worker ≠ .asleep) : (s.step .work).isSome := by
  rw [BackgroundState.step]
  cases hworker : s.worker with
  | starting | waiting => rfl
  | testing | draining =>
    rw [hrequested]
    rfl
  | asleep => exact absurd hworker hasleep
  | working =>
    obtain ⟨i, hticking⟩ := Option.ne_none_iff_exists'.1 (h.working.1 hworker)
    rw [Option.isSome_map, DispatcherState.step, hticking]
    dsimp only
    split
    · rfl
    · rfl
  | exited =>
    rw [budget, hworker] at hbudget
    exact absurd rfl hbudget

/-! ### The notification -/

/-- The thread has heard that the flag is set. -/
structure Heard (s : BackgroundState T W) : Prop where
  requested : s.requested = true
  waiting : s.worker ≠ .waiting
  asleep : s.worker ≠ .asleep

/-- It does not wait any more. -/
theorem Heard.step (h : s.Heard) (hstep : s.step a = some s') : s'.Heard := by
  have hrequested := (executed_remaining h.requested hstep).1
  cases ha : isWork a with
  | false =>
    rcases (worker_of_ne_work ha hstep).1 with hworker | hworker
    · exact ⟨hrequested, hworker ▸ h.waiting, hworker ▸ h.asleep⟩
    · exact ⟨hrequested, hworker ▸ s.worker.wake_ne_waiting h.waiting,
        hworker ▸ s.worker.wake_ne_asleep⟩
  | true =>
    obtain rfl : a = .work := by
      cases a with
      | work => rfl
      | _ => cases ha
    cases works_of_step hstep with
    | start | exit | leave => exact ⟨hrequested, nofun, nofun⟩
    | tick _ hnot | wait _ hnot | drain _ hnot => cases hnot.symm.trans h.requested
    | sleep hworker => exact absurd hworker h.waiting
    | @next d =>
      refine ⟨hrequested, ?_, ?_⟩
      · cases d.ticking with
        | _ => exact nofun
      · cases d.ticking with
        | _ => exact nofun

/-- The steps that may wake a thread that is asleep, when `cancel` has notified. -/
def wakes : BackgroundAction W → Bool
  | .notifyOne | .wake => true
  | _ => false

/-- The thread waits, and the owner for the thread. -/
def Stuck (s : BackgroundState T W) : Prop :=
  s.owner = .joining ∧ (s.worker = .waiting ∨ s.worker = .asleep)

/-- Nothing else wakes the thread. -/
theorem Stuck.step (h : s.Stuck) (ha : wakes a = false) (hstep : s.step a = some s') :
    s'.Stuck := by
  obtain ⟨howner, hworker⟩ := h
  cases a with
  | queue work =>
    obtain ⟨-, d, pushers, -, rfl⟩ := step_queue hstep
    exact ⟨howner, hworker⟩
  | notifyOne | wake => cases ha
  | cancel =>
    obtain ⟨hidle, -⟩ := step_cancel hstep
    cases howner.symm.trans hidle
  | own =>
    rcases step_own hstep with ⟨hnot, -⟩ | ⟨-, hexited, -⟩ | ⟨hnot, -⟩
    · cases howner.symm.trans hnot
    · rw [hexited] at hworker
      cases hworker with
      | inl hworker | inr hworker => cases hworker
    · cases howner.symm.trans hnot
  | work =>
    rcases hworker with hworker | hworker
    · rw [BackgroundState.step, hworker] at hstep
      obtain rfl := Option.some.inj hstep
      exact ⟨howner, .inr rfl⟩
    · rw [BackgroundState.step, hworker] at hstep
      cases hstep

/-- The notification of `cancel`. -/
theorem Consistent.notify (h : s.Consistent) (howner : s.owner = .notifying)
    (hstep : s.step .own = some s') :
    (s.worker ≠ .waiting → s'.Heard) ∧ (s.worker = .waiting → s'.Stuck) := by
  have hrequested := h.owner (by rw [howner]; decide)
  rcases step_own hstep with ⟨-, rfl⟩ | ⟨hnot, -⟩ | ⟨hnot, -⟩
  · refine ⟨fun hworker => ?_, fun hworker => ⟨?_, .inl ?_⟩⟩
    · exact ⟨hrequested, WorkerPhase.wake_ne_waiting hworker, WorkerPhase.wake_ne_asleep _⟩
    · refine if_pos ?_
      by_contra hjoinable
      cases hworker.symm.trans (h.joined (Bool.eq_false_iff.2 hjoinable))
    · rw [hworker]
      rfl
  · cases howner.symm.trans hnot
  · cases howner.symm.trans hnot

/-- **When a background dispatcher stops.** In every run the works executed are the first ones of
those that were pushed and not cleared, in order and each once, and the thread passes the affinity
check of its ticks. Once the flag is set it executes what remains of its workload and nothing else,
in exactly `budget` steps, and waits for nothing but to be woken, when it is asleep. When `cancel`
notifies and the thread is not between the condition and the wait, the thread does not wait any
more; when it is there, it sleeps and `cancel` does not return, unless a thread that has queued a
work notifies or the wait ends by itself. When the thread was joined nothing is executed any more,
and when `cancel` returns every work that was pushed is executed or cleared. -/
theorem stops_cleanly
    (h : Reach BackgroundState.step anyStep (new thread : BackgroundState T W) s) :
    s.dispatcher.executed <+: s.dispatcher.live ∧ (s.dispatcher.executed.map Prod.fst).Nodup ∧
    (s.worker ≠ .starting → checkAffinity s.affinity s.thread = true) ∧
    (s.requested = true → ∀ actions s', run BackgroundState.step s actions = some s' →
      s'.dispatcher.executed ++ s'.dispatcher.remaining =
        s.dispatcher.executed ++ s.dispatcher.remaining ∧
      s'.budget + actions.countP isWork = s.budget ∧
      (s'.budget ≠ 0 → s'.worker ≠ .asleep → (s'.step .work).isSome)) ∧
    (∀ s₁, s.owner = .notifying → s.step .own = some s₁ →
      (s.worker ≠ .waiting → ∀ s', Reach BackgroundState.step anyStep s₁ s' → s'.worker ≠ .asleep) ∧
      (s.worker = .waiting → ∀ s', Reach BackgroundState.step (fun _ a => wakes a = false) s₁ s' →
        s'.owner = .joining ∧ s'.worker ≠ .exited)) ∧
    (s.joinable = false → ∀ s', Reach BackgroundState.step anyStep s s' →
      s'.dispatcher.executed = s.dispatcher.executed) ∧
    ∀ s', s.owner = .clearing → s.step .own = some s' →
      s'.dispatcher.live = s'.dispatcher.executed ∧ s'.dispatcher.workload = [] := by
  have hs := Consistent.of_reach h
  have hpre : s.dispatcher.executed <+: s.dispatcher.live :=
    ⟨s.dispatcher.remaining ++ s.dispatcher.work, by rw [← List.append_assoc, hs.dispatcher.live]⟩
  have hkeep {s' : BackgroundState T W} (hrequested : s.requested = true)
      (hs' : Reach BackgroundState.step anyStep s s') :=
    hs'.invariant (I := fun s' => s'.requested = true ∧
      s'.dispatcher.executed ++ s'.dispatcher.remaining =
        s.dispatcher.executed ++ s.dispatcher.remaining) ⟨hrequested, rfl⟩ fun a l b ha _ hstep =>
        have hb := executed_remaining ha.1 hstep
        ⟨hb.1, hb.2.trans ha.2⟩
  refine ⟨hpre, hs.dispatcher.nodup.sublist (hpre.sublist.map _), fun hworker => ?_,
    fun hrequested actions s' hrun => ?_, fun s₁ howner hstep => ⟨fun hworker s' hs' => ?_,
    fun hworker s' hs' => ?_⟩, fun hjoined s' hs' => ?_, fun s' howner hstep => ?_⟩
  · rw [hs.affinity hworker]
    exact decide_eq_true rfl
  · have hs' := Consistent.of_reach (h.trans (reach_of_run hrun))
    obtain ⟨hrequested', hparts⟩ := hkeep hrequested (reach_of_run hrun)
    exact ⟨hparts, budget_run hrequested hrun, hs'.enabled hrequested'⟩
  · exact (hs'.invariant ((hs.notify howner hstep).1 hworker)
      fun _ _ _ ha _ hstep => ha.step hstep).asleep
  · obtain ⟨hjoining, hstuck⟩ :=
      hs'.invariant ((hs.notify howner hstep).2 hworker) fun _ _ _ ha hl hstep => ha.step hl hstep
    refine ⟨hjoining, ?_⟩
    rcases hstuck with hstuck | hstuck
    · rw [hstuck]
      decide
    · rw [hstuck]
      decide
  · have hworker := hs.joined hjoined
    have hworker' : s'.worker = .exited :=
      hs'.invariant (I := fun s' => s'.worker = .exited) hworker
      fun _ _ _ ha _ hstep => worker_exited ha hstep
    have hparts := (hkeep (hs.exited hworker) hs').2
    rwa [hs.remaining (by rw [hworker]; decide), List.append_nil,
      (Consistent.of_reach (h.trans hs')).remaining (by rw [hworker']; decide),
      List.append_nil] at hparts
  · have hs' := hs.step hstep
    rcases step_own hstep with ⟨hnot, -⟩ | ⟨hnot, -⟩ | ⟨-, d, hd, rfl⟩
    · cases howner.symm.trans hnot
    · cases howner.symm.trans hnot
    · have hworker : s.worker ≠ .working := by
        rw [hs.joined (hs.clearing howner)]
        decide
      have hremaining := hs'.remaining hworker
      have hlive := hs'.dispatcher.live
      have hwork : d.work = [] := by
        obtain rfl := Option.some.inj hd
        rfl
      rw [hremaining, hwork, List.append_nil, List.append_nil] at hlive
      exact ⟨hlive.symm, hs'.workload hworker⟩

/-- The flag is set while a work is executed and another one waits. -/
theorem stops_cleanly_waiting :
    ∃ s, Reach BackgroundState.step anyStep (new 1 : BackgroundState ℕ ℕ) s ∧
    s.dispatcher.executed = [(0, 10), (1, 20)] ∧ s.dispatcher.cleared = [2] ∧ s.worker = .exited ∧
    s.dispatcher.executed <+: s.dispatcher.live := by
  have hrun : (run BackgroundState.step (new 1 : BackgroundState ℕ ℕ) [.work, .work, .work, .work,
      .queue 10, .queue 20, .notifyOne, .work, .work, .queue 30, .cancel, .own, .work, .work, .work,
      .own, .own]).map (fun s => (s.dispatcher.executed, s.dispatcher.cleared, s.worker)) =
      some ([(0, 10), (1, 20)], [2], .exited) := by decide
  obtain ⟨s, hreach, hseen⟩ := exists_reach_of_run hrun
  obtain ⟨hexecuted, hseen⟩ := Prod.mk.inj hseen
  obtain ⟨hcleared, hworker⟩ := Prod.mk.inj hseen
  exact ⟨s, hreach, hexecuted, hcleared, hworker, (stops_cleanly hreach).1⟩

/-- The notification that is not heard: the thread sleeps with the flag set, and the owner waits for
it. -/
example :
    (run BackgroundState.step (new 1 : BackgroundState ℕ ℕ)
      [.work, .work, .work, .cancel, .own, .work]).map (fun s =>
      (s.worker, s.owner, (s.step .work).isSome, (s.step .own).isSome)) =
    some (.asleep, .joining, false, false) := by decide

end BackgroundState

end Arcana.Threading
