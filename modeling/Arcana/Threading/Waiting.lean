import Mathlib.Data.Fintype.Basic
import Mathlib.Logic.Function.Basic
import Arcana.Foundations.Transition
import Arcana.Threading.BlockingConcurrentQueue

/-!
# Threads that wait on a `blocking_concurrent_queue`

Any number of threads push, pop, drain, clear and cancel. `push` and `clear` are one critical
section each and notify after it. A blocking call evaluates its condition and waits in steps of
their own, with the mutex held in between: other threads cannot get at the queue there, but they can
set a flag of cancellation or issue a notification. `wait` releases the mutex and falls asleep in
one step, and `notify_one` wakes one thread that sleeps, if there is one.

`Advance` lists what a thread can do. On it rest two results: `not_overlooked` says when no consumer
is left asleep beside available work, and `not_stranded` when a cancellation reaches every consumer.

* `Phase` is where a thread is, and `QueueState.advance` its next step.
* `QueueState.Coherent` is the invariant of the mutex, in every run.
* `QueueState.Relayed` and `QueueState.Heard` are the conditions on a step for the two results.
* `QueueState.Attended` and `QueueState.Told` are the invariants of the runs that meet them, each
  with its step lemma.
* `QueueState.overlooked` and `QueueState.stranded` are runs in which a consumer is left asleep.
-/

namespace Arcana.Threading

open Foundations

/-- A call of `internal_pop` or `internal_drain`, with the token it was given. -/
structure Call (κ : Type*) where
  token : κ
  drain : Bool
  block : Bool
  deriving DecidableEq

/-- Where a thread is. -/
inductive Phase (T κ : Type*)
  | idle
  /-- Before the critical section of `push`. -/
  | pushing (data : T)
  /-- Before the critical section of `clear`. -/
  | clearing
  | notifyingOne
  /-- About to call `notify_all`, for the token that it cancelled if there is one. -/
  | notifyingAll (token : Option κ)
  /-- Before the mutex is taken. -/
  | entering (call : Call κ)
  /-- At the condition of the loop. -/
  | checking (call : Call κ)
  /-- After the condition, before `wait`. -/
  | waiting (call : Call κ)
  | asleep (call : Call κ)
  /-- Before the mutex is taken again. -/
  | woken (call : Call κ)
  /-- After the loop. -/
  | leaving (call : Call κ)
  deriving DecidableEq

namespace Phase

variable {T κ : Type*}

def isAsleep : Phase T κ → Bool
  | .asleep _ => true
  | _ => false

/-- The phases with the mutex. -/
def holds : Phase T κ → Bool
  | .checking _ | .waiting _ | .leaving _ => true
  | _ => false

/-- The phases of a thread that will notify, or look at the queue again. -/
def attends : Phase T κ → Bool
  | .notifyingOne | .notifyingAll _ | .entering _ | .woken _ | .checking _ | .leaving _ => true
  | _ => false

/-- The phases of a thread that will notify. -/
def notifies : Phase T κ → Bool
  | .notifyingOne | .notifyingAll _ => true
  | _ => false

/-- The phases that a call begins with. -/
def begins : Phase T κ → Bool
  | .idle | .pushing _ | .clearing | .notifyingAll none | .entering _ => true
  | _ => false

/-- What `notify_all` does to a thread. -/
def wake : Phase T κ → Phase T κ
  | .asleep call => .woken call
  | phase => phase

variable {p : Phase T κ} {call : Call κ} {token : Option κ}

theorem holds_wake (p : Phase T κ) : p.wake.holds = p.holds := by
  cases p with
  | _ => rfl

theorem isAsleep_wake (p : Phase T κ) : p.wake.isAsleep = false := by
  cases p with
  | _ => rfl

theorem notifies_wake (p : Phase T κ) : p.wake.notifies = p.notifies := by
  cases p with
  | _ => rfl

/-- A thread that is not woken is in the phase in which it was. -/
theorem of_wake_eq_waiting (h : p.wake = .waiting call) : p = .waiting call := by
  cases p with
  | asleep => cases h
  | _ => exact h

theorem of_wake_eq_notifyingAll (h : p.wake = .notifyingAll token) : p = .notifyingAll token := by
  cases p with
  | asleep => cases h
  | _ => exact h

end Phase

/-- A queue and its threads. The tokens whose notification was issued and what the calls returned
are histories. -/
structure QueueState (ι T κ : Type*) where
  data : List T := []
  holder : Option ι := none
  flag : κ → Bool := fun _ => false
  phase : ι → Phase T κ := fun _ => .idle
  notified : κ → Bool := fun _ => false
  received : List (ι × List T) := []

inductive QueueAction (ι T κ : Type*)
  | push (i : ι) (data : T)
  | clear (i : ι)
  | cancelled (i : ι)
  /-- `cancellation_source::cancel`, whose listener calls `cancelled`. -/
  | cancel (i : ι) (token : κ)
  | call (i : ι) (call : Call κ)
  /-- A thread goes on. A `notify_one` wakes the given thread. -/
  | go (i : ι) (woken : Option ι)

namespace QueueState

variable {ι T κ : Type*} [Fintype ι] [DecidableEq ι] [DecidableEq κ]

/-- A thread enters a phase. -/
def enter (s : QueueState ι T κ) (i : ι) (phase : Phase T κ) : QueueState ι T κ :=
  { s with phase := Function.update s.phase i phase }

/-- A thread that is idle begins with something. -/
def start (s : QueueState ι T κ) (i : ι) (phase : Phase T κ) : Option (QueueState ι T κ) :=
  match s.phase i with
  | .idle => some (s.enter i phase)
  | _ => none

/-- The next step of a thread. -/
def advance (maxSize : Option ℕ) (s : QueueState ι T κ) (i : ι) (woken : Option ι) :
    Option (QueueState ι T κ) :=
  match s.phase i with
  | .idle => none
  | .pushing x =>
    match s.holder with
    | some _ => none
    | none =>
      let (data, notify) := BlockingConcurrentQueue.push maxSize s.data x
      some ({ s with data }.enter i (if notify then .notifyingOne else .idle))
  | .clearing =>
    match s.holder with
    | some _ => none
    | none => some ({ s with data := [] }.enter i (.notifyingAll none))
  | .notifyingOne =>
    match woken with
    | none => if ∀ j, (s.phase j).isAsleep = false then some (s.enter i .idle) else none
    | some j =>
      match s.phase j with
      | .asleep call => some ((s.enter j (.woken call)).enter i .idle)
      | _ => none
  | .notifyingAll token => some
    ({ s with
      phase := fun j => (s.phase j).wake
      notified := fun k => s.notified k || token = some k }.enter i .idle)
  | .entering call =>
    match s.holder with
    | some _ => none
    | none => some
      ({ s with holder := some i }.enter i (if call.block then .checking call else .leaving call))
  | .checking call =>
    if !s.flag call.token && s.data.isEmpty then
      some (s.enter i (.waiting call))
    else
      some (s.enter i (.leaving call))
  | .waiting call => some ({ s with holder := none }.enter i (.asleep call))
  | .asleep _ => none
  | .woken call =>
    match s.holder with
    | some _ => none
    | none => some ({ s with holder := some i }.enter i (.checking call))
  | .leaving call =>
    match BlockingConcurrentQueue.take call.drain (s.flag call.token) s.data with
    | none => some ({ s with holder := none }.enter i .idle)
    | some (taken, rest) => some
      ({ s with
        data := rest
        holder := none
        received := s.received ++ [(i, taken)] }.enter i .idle)

/-- One step of one thread. -/
def step (maxSize : Option ℕ) (s : QueueState ι T κ) : QueueAction ι T κ → Option (QueueState ι T κ)
  | .push i data => s.start i (.pushing data)
  | .clear i => s.start i .clearing
  | .cancelled i => s.start i (.notifyingAll none)
  | .cancel i token =>
    if s.flag token then
      s.start i .idle
    else
      { s with flag := Function.update s.flag token true }.start i (.notifyingAll (some token))
  | .call i call => s.start i (.entering call)
  | .go i woken => s.advance maxSize i woken

variable {maxSize : Option ℕ} {s s' : QueueState ι T κ} {i : ι}

/-! ### The steps -/

section Enter

omit [Fintype ι] [DecidableEq κ]

@[simp] theorem enter_data (p : Phase T κ) : (s.enter i p).data = s.data := rfl
@[simp] theorem enter_holder (p : Phase T κ) : (s.enter i p).holder = s.holder := rfl
@[simp] theorem enter_flag (p : Phase T κ) : (s.enter i p).flag = s.flag := rfl
@[simp] theorem enter_notified (p : Phase T κ) : (s.enter i p).notified = s.notified := rfl

@[simp] theorem enter_phase_self (p : Phase T κ) : (s.enter i p).phase i = p := by
  simp [enter]

theorem enter_phase_ne {j : ι} (h : j ≠ i) (p : Phase T κ) : (s.enter i p).phase j = s.phase j := by
  simp [enter, h]

theorem start_eq {p : Phase T κ} (h : s.start i p = some s') :
    s.phase i = .idle ∧ s' = s.enter i p := by
  rw [start] at h
  split at h
  · rename_i hidle
    exact ⟨hidle, (Option.some.inj h).symm⟩
  · cases h

end Enter

/-- What a thread does when it goes on. -/
inductive Advance (maxSize : Option ℕ) (s : QueueState ι T κ) (i : ι) : QueueState ι T κ → Prop
  | push {x : T} : s.phase i = .pushing x → s.holder = none →
      Advance maxSize s i
        ({ s with data := (BlockingConcurrentQueue.push maxSize s.data x).1 }.enter i
          (if s.data.isEmpty then .notifyingOne else .idle))
  | clear : s.phase i = .clearing → s.holder = none →
      Advance maxSize s i ({ s with data := [] }.enter i (.notifyingAll none))
  | notifyNobody : s.phase i = .notifyingOne → (∀ j, (s.phase j).isAsleep = false) →
      Advance maxSize s i (s.enter i .idle)
  | notifyOne {j : ι} {call : Call κ} : s.phase i = .notifyingOne → s.phase j = .asleep call →
      Advance maxSize s i ((s.enter j (.woken call)).enter i .idle)
  | notifyAll {token : Option κ} : s.phase i = .notifyingAll token →
      Advance maxSize s i
        ({ s with
          phase := fun j => (s.phase j).wake
          notified := fun k => s.notified k || token = some k }.enter i .idle)
  | lock {call : Call κ} {p : Phase T κ} : s.phase i = .entering call ∨ s.phase i = .woken call →
      s.holder = none → p = .checking call ∨ p = .leaving call →
      Advance maxSize s i ({ s with holder := some i }.enter i p)
  | wait {call : Call κ} : s.phase i = .checking call → s.flag call.token = false → s.data = [] →
      Advance maxSize s i (s.enter i (.waiting call))
  | leave {call : Call κ} : s.phase i = .checking call →
      Advance maxSize s i (s.enter i (.leaving call))
  | sleep {call : Call κ} : s.phase i = .waiting call →
      Advance maxSize s i ({ s with holder := none }.enter i (.asleep call))
  | fail {call : Call κ} : s.phase i = .leaving call → s.data = [] ∨ s.flag call.token = true →
      Advance maxSize s i ({ s with holder := none }.enter i .idle)
  | take {call : Call κ} {taken rest : List T} : s.phase i = .leaving call →
      s.data = taken ++ rest → taken ≠ [] → (call.drain = true → rest = []) →
      Advance maxSize s i
        ({ s with
          data := rest
          holder := none
          received := s.received ++ [(i, taken)] }.enter i .idle)

theorem advance_sound {woken : Option ι} (h : s.advance maxSize i woken = some s') :
    Advance maxSize s i s' := by
  cases hp : s.phase i with
  | idle => simp [advance, hp] at h
  | asleep call => simp [advance, hp] at h
  | pushing x =>
    simp only [advance, hp] at h
    split at h
    · cases h
    · rename_i hholder
      exact Option.some.inj h ▸ .push hp hholder
  | clearing =>
    simp only [advance, hp] at h
    split at h
    · cases h
    · rename_i hholder
      exact Option.some.inj h ▸ .clear hp hholder
  | notifyingOne =>
    cases woken with
    | none =>
      simp only [advance, hp] at h
      obtain ⟨hnobody, h⟩ := Option.ite_none_right_eq_some.1 h
      exact Option.some.inj h ▸ .notifyNobody hp hnobody
    | some j =>
      simp only [advance, hp] at h
      split at h
      · rename_i call hj
        exact Option.some.inj h ▸ .notifyOne hp hj
      · cases h
  | notifyingAll token =>
    simp only [advance, hp, Option.some.injEq] at h
    exact h ▸ .notifyAll hp
  | entering call =>
    simp only [advance, hp] at h
    split at h
    · cases h
    · rename_i hholder
      refine Option.some.inj h ▸ .lock (.inl hp) hholder ?_
      split_ifs
      · exact .inl rfl
      · exact .inr rfl
  | woken call =>
    simp only [advance, hp] at h
    split at h
    · cases h
    · rename_i hholder
      exact Option.some.inj h ▸ .lock (.inr hp) hholder (.inl rfl)
  | checking call =>
    simp only [advance, hp] at h
    split_ifs at h with hcheck
    · simp only [Bool.and_eq_true, Bool.not_eq_true', List.isEmpty_iff] at hcheck
      exact Option.some.inj h ▸ .wait hp hcheck.1 hcheck.2
    · exact Option.some.inj h ▸ .leave hp
  | waiting call =>
    simp only [advance, hp, Option.some.injEq] at h
    exact h ▸ .sleep hp
  | leaving call =>
    simp only [advance, hp] at h
    split at h
    · rename_i hnone
      exact Option.some.inj h ▸ .fail hp (BlockingConcurrentQueue.take_eq_none.1 hnone)
    · rename_i taken rest htake
      obtain ⟨hdata, hne, hdrain⟩ := BlockingConcurrentQueue.take_eq htake
      exact Option.some.inj h ▸ .take hp hdata hne hdrain

/-- A step begins a call, sets a flag, or is one of a thread that goes on. -/
theorem step_cases {a : QueueAction ι T κ} (h : s.step maxSize a = some s') :
    (∃ i p, s.phase i = .idle ∧ p.begins = true ∧ s' = s.enter i p) ∨
    (∃ i token, s.phase i = .idle ∧ s.flag token = false ∧
      s' = { s with flag := Function.update s.flag token true }.enter i
        (.notifyingAll (some token))) ∨
    ∃ i woken, a = .go i woken ∧ Advance maxSize s i s' := by
  cases a with
  | push i x =>
    obtain ⟨hi, hs'⟩ := start_eq h
    exact .inl ⟨i, _, hi, rfl, hs'⟩
  | clear i =>
    obtain ⟨hi, hs'⟩ := start_eq h
    exact .inl ⟨i, _, hi, rfl, hs'⟩
  | cancelled i =>
    obtain ⟨hi, hs'⟩ := start_eq h
    exact .inl ⟨i, _, hi, rfl, hs'⟩
  | call i call =>
    obtain ⟨hi, hs'⟩ := start_eq h
    exact .inl ⟨i, _, hi, rfl, hs'⟩
  | cancel i token =>
    simp only [step] at h
    split_ifs at h with hflag
    · obtain ⟨hi, hs'⟩ := start_eq h
      exact .inl ⟨i, _, hi, rfl, hs'⟩
    · obtain ⟨hi, hs'⟩ := start_eq h
      exact .inr (.inl ⟨i, token, hi, Bool.eq_false_iff.2 hflag, hs'⟩)
  | go i woken => exact .inr (.inr ⟨i, woken, rfl, advance_sound h⟩)

/-! ### The mutex -/

/-- The holder of the mutex is the one thread in a phase with the mutex, and a thread that is about
to wait has seen the queue as it is. -/
structure Coherent (s : QueueState ι T κ) : Prop where
  exclusive : ∀ i, (s.phase i).holds = true ↔ s.holder = some i
  empty : ∀ i call, s.phase i = .waiting call → s.data = []

omit [Fintype ι] [DecidableEq κ] in
/-- One thread goes on, with what that changes of the mutex and of the queue. -/
theorem Coherent.enter (h : s.Coherent) {t : QueueState ι T κ} {p : Phase T κ}
    (hother : ∀ j, j ≠ i → (s.holder = some j ↔ t.holder = some j))
    (hself : p.holds = true ↔ t.holder = some i) (hwait : ∀ call, p = .waiting call → t.data = [])
    (hdata : t.data = s.data ∨ ∀ j, j ≠ i → s.holder ≠ some j)
    (hphase : t.phase = s.phase := by rfl) : (t.enter i p).Coherent := by
  constructor
  · intro j
    by_cases hj : j = i
    · rw [hj, enter_phase_self]
      exact hself
    · rw [enter_phase_ne hj, hphase, h.exclusive j]
      exact hother j hj
  · intro j call hcall
    by_cases hj : j = i
    · rw [hj, enter_phase_self] at hcall
      exact hwait call hcall
    · rw [enter_phase_ne hj, hphase] at hcall
      rcases hdata with hdata | hdata
      · exact hdata.trans (h.empty j call hcall)
      · exact absurd ((h.exclusive j).1 (by rw [hcall]; rfl)) (hdata j hj)

omit [Fintype ι] [DecidableEq κ] in
/-- A thread goes on without the mutex. -/
theorem Coherent.enter_free (h : s.Coherent) {p q : Phase T κ} (hi : s.phase i = p)
    (hp : p.holds = false) (hq : q.holds = false) : (s.enter i q).Coherent := by
  have hholder : s.holder ≠ some i := by
    rw [Ne, ← h.exclusive, hi, hp]
    exact Bool.false_ne_true
  refine h.enter (fun _ _ => Iff.rfl) ?_ ?_ (.inl rfl)
  · rw [hq]
    exact iff_of_false Bool.false_ne_true hholder
  · rintro call rfl
    cases hq

omit [Fintype ι] [DecidableEq ι] [DecidableEq κ] in
theorem Coherent.wakeAll (h : s.Coherent) (notified : κ → Bool) :
    ({ s with phase := fun j => (s.phase j).wake, notified } : QueueState ι T κ).Coherent := by
  constructor
  · intro i
    rw [← h.exclusive i, Phase.holds_wake]
  · exact fun i call hcall => h.empty i call (Phase.of_wake_eq_waiting hcall)

omit [Fintype ι] in
theorem Coherent.advance (h : s.Coherent) (ha : Advance maxSize s i s') :
    s'.Coherent := by
  have alone {p : Phase T κ} (hi : s.phase i = p) (hp : p.holds = true) :
      ∀ j, j ≠ i → (s.holder = some j ↔ none = some j) := by
    intro j hj
    rw [(h.exclusive i).1 (hi ▸ hp)]
    simp [Ne.symm hj]
  cases ha with
  | push hi hholder =>
    refine h.enter (fun _ _ => Iff.rfl) ?_ ?_ (.inr ?_)
    · rw [hholder]
      split_ifs <;> simp [Phase.holds]
    · intro call hcall
      split_ifs at hcall
    · simp [hholder]
  | clear hi hholder =>
    refine h.enter (fun _ _ => Iff.rfl) ?_ nofun (.inr ?_)
    · simp [hholder, Phase.holds]
    · simp [hholder]
  | notifyNobody hi hnobody => exact h.enter_free hi rfl rfl
  | notifyOne hi hj =>
    refine (h.enter_free hj rfl rfl).enter_free (p := .notifyingOne) ?_ rfl rfl
    rw [enter_phase_ne (ne_of_apply_ne s.phase (by simp [hi, hj])), hi]
  | @notifyAll token hi =>
    refine (h.wakeAll _).enter_free (p := .notifyingAll token) ?_ rfl rfl
    simp only [hi]
    rfl
  | lock hi hholder hp =>
    refine h.enter ?_ ?_ ?_ (.inl rfl)
    · intro j hj
      simp [hholder, Ne.symm hj]
    · rcases hp with rfl | rfl <;> simp [Phase.holds]
    · rcases hp with rfl | rfl <;> nofun
  | wait hi hflag hdata =>
    refine h.enter (fun _ _ => Iff.rfl) ?_ (fun _ _ => hdata) (.inl rfl)
    exact iff_of_true rfl ((h.exclusive i).1 (hi ▸ rfl))
  | leave hi =>
    refine h.enter (fun _ _ => Iff.rfl) ?_ nofun (.inl rfl)
    exact iff_of_true rfl ((h.exclusive i).1 (hi ▸ rfl))
  | sleep hi => exact h.enter (alone hi rfl) (by simp [Phase.holds]) nofun (.inl rfl)
  | fail hi hfail => exact h.enter (alone hi rfl) (by simp [Phase.holds]) nofun (.inl rfl)
  | take hi hdata hne hdrain =>
    refine h.enter (alone hi rfl) (by simp [Phase.holds]) nofun (.inr ?_)
    intro j hj
    rw [(h.exclusive i).1 (hi ▸ rfl)]
    simpa using Ne.symm hj

theorem Coherent.step (h : s.Coherent) {a : QueueAction ι T κ}
    (hstep : s.step maxSize a = some s') :
    s'.Coherent := by
  rcases step_cases hstep with ⟨i, p, hi, hp, rfl⟩ | ⟨i, token, hi, -, rfl⟩ | ⟨i, woken, -, ha⟩
  · refine h.enter_free hi rfl ?_
    cases p <;> simp_all [Phase.begins, Phase.holds]
  · have ht : ({ s with flag := Function.update s.flag token true } : QueueState ι T κ).Coherent :=
      ⟨h.exclusive, h.empty⟩
    exact ht.enter_free hi rfl rfl
  · exact h.advance ha

/-! ### Available work -/

/-- Nothing is cancelled. -/
def Uncancelled (s : QueueState ι T κ) : Prop := ∀ token, s.flag token = false

/-- A consumer sleeps beside available work, and no other thread is inside the queue. -/
def Overlooked (s : QueueState ι T κ) : Prop :=
  s.data ≠ [] ∧ s.Uncancelled ∧ (∃ i, (s.phase i).isAsleep = true) ∧
    ∀ i, s.phase i = .idle ∨ (s.phase i).isAsleep = true

/-- When a pop takes one of several elements while nothing is cancelled and a consumer sleeps,
another thread will notify or look at the queue again. -/
def Relayed (s : QueueState ι T κ) (a : QueueAction ι T κ) : Prop :=
  ∀ i woken call, a = .go i woken → s.phase i = .leaving call → call.drain = false →
    2 ≤ s.data.length → s.Uncancelled → (∃ j, (s.phase j).isAsleep = true) →
    ∃ j, j ≠ i ∧ (s.phase j).attends = true

/-- A consumer that sleeps beside available work has somebody who attends to the queue. -/
def Attended (s : QueueState ι T κ) : Prop :=
  s.data ≠ [] → s.Uncancelled → (∃ i, (s.phase i).isAsleep = true) → ∃ j, (s.phase j).attends = true

omit [Fintype ι] [DecidableEq κ] in
/-- Whoever attends goes on to. -/
theorem Attended.enter (h : s.Attended) {p : Phase T κ} (hasleep : p.isAsleep = false)
    (hi : (s.phase i).attends = false ∨ p.attends = true) : (s.enter i p).Attended := by
  intro hne hun ⟨j, hj⟩
  rcases hi with hi | hp
  · have hji : j ≠ i := by
      rintro rfl
      rw [enter_phase_self, hasleep] at hj
      cases hj
    rw [enter_phase_ne hji] at hj
    obtain ⟨k, hk⟩ := h hne hun ⟨j, hj⟩
    have hki : k ≠ i := ne_of_apply_ne (fun k => (s.phase k).attends) (by simp [hi, hk])
    exact ⟨k, by rwa [enter_phase_ne hki]⟩
  · exact ⟨i, by rwa [enter_phase_self]⟩

omit [Fintype ι] in
theorem Attended.advance (hs : s.Coherent) (h : s.Attended) {woken : Option ι}
    (hrelayed : s.Relayed (.go i woken)) (ha : Advance maxSize s i s') : s'.Attended := by
  cases ha with
  | @push x hi hholder =>
    cases hdata : s.data with
    | nil => exact fun _ _ _ => ⟨i, by simp [Phase.attends]⟩
    | cons y data =>
      -- the queue was not empty, so that somebody else attends
      have hbefore : ({ s with data := (BlockingConcurrentQueue.push maxSize s.data x).1 } :
          QueueState ι T κ).Attended := fun _ => h (by simp [hdata])
      rw [hdata] at hbefore
      exact hbefore.enter rfl (.inl (by simp [hi, Phase.attends]))
  | clear hi hholder => exact fun hne => absurd rfl hne
  | notifyNobody hi hnobody =>
    intro hne hun ⟨j, hj⟩
    by_cases hji : j = i
    · rw [hji, enter_phase_self] at hj
      cases hj
    · rw [enter_phase_ne hji, hnobody j] at hj
      cases hj
  | @notifyOne j call hi hj =>
    refine fun _ _ _ => ⟨j, ?_⟩
    have hji : j ≠ i := ne_of_apply_ne s.phase (by simp [hi, hj])
    rw [enter_phase_ne hji, enter_phase_self]
    rfl
  | notifyAll hi =>
    intro hne hun ⟨j, hj⟩
    by_cases hji : j = i
    · rw [hji, enter_phase_self] at hj
      cases hj
    · rw [enter_phase_ne hji] at hj
      cases (Phase.isAsleep_wake (s.phase j)).symm.trans hj
  | lock hi hholder hp =>
    refine fun _ _ _ => ⟨i, ?_⟩
    rcases hp with rfl | rfl <;> simp [Phase.attends]
  | wait hi hflag hdata => exact fun hne => absurd hdata hne
  | leave hi => exact fun _ _ _ => ⟨i, by simp [Phase.attends]⟩
  | sleep hi => exact fun hne => absurd (hs.empty i _ hi) hne
  | @fail call hi hfail =>
    rcases hfail with hdata | hflag
    · exact fun hne => absurd hdata hne
    · intro _ hun
      have hunset : s.flag call.token = false := hun call.token
      rw [hunset] at hflag
      cases hflag
  | @take call taken rest hi hdata hne hdrain =>
    intro hrest hun ⟨j, hj⟩
    have hpop : call.drain = false := Bool.eq_false_iff.2 fun hd => hrest (hdrain hd)
    have hlength : 2 ≤ s.data.length := by
      have htaken := List.length_pos_iff.2 hne
      have hrest := List.length_pos_iff.2 hrest
      rw [hdata, List.length_append]
      exact Nat.add_le_add htaken hrest
    have hji : j ≠ i := by
      rintro rfl
      rw [enter_phase_self] at hj
      cases hj
    rw [enter_phase_ne hji] at hj
    obtain ⟨k, hki, hk⟩ := hrelayed i woken call rfl hi hpop hlength hun ⟨j, hj⟩
    exact ⟨k, by rwa [enter_phase_ne hki]⟩

theorem Attended.step (hs : s.Coherent) (h : s.Attended) {a : QueueAction ι T κ}
    (hrelayed : s.Relayed a) (hstep : s.step maxSize a = some s') : s'.Attended := by
  rcases step_cases hstep with ⟨i, p, hi, hp, rfl⟩ | ⟨i, token, -, -, rfl⟩ | ⟨i, woken, rfl, ha⟩
  · refine h.enter ?_ (.inl (by simp [hi, Phase.attends]))
    cases p <;> simp_all [Phase.begins, Phase.isAsleep]
  · intro _ hun
    have hset : Function.update s.flag token true token = false := hun token
    rw [Function.update_self] at hset
    cases hset
  · exact h.advance hs hrelayed ha

/-- A pop that is not relayed leaves a consumer overlooked, unless another thread is about to push
or to clear. -/
theorem overlooked_of_not_relayed (hs : s.Coherent) {a : QueueAction ι T κ}
    (hstep : s.step maxSize a = some s') (h : ¬s.Relayed a)
    (hquiet : ∀ j, (∀ x, s.phase j ≠ .pushing x) ∧ s.phase j ≠ .clearing) : s'.Overlooked := by
  simp only [Relayed, not_forall, not_exists, not_and, Bool.not_eq_true] at h
  obtain ⟨i, woken, call, rfl, hi, hpop, hlength, hun, ⟨j, hj⟩, hnobody⟩ := h
  obtain ⟨x, rest, hdata⟩ := List.exists_cons_of_length_pos (Nat.zero_lt_of_lt hlength)
  have hs' : s' = ({ s with
      data := rest
      holder := none
      received := s.received ++ [(i, [x])] }.enter i .idle) := by
    simp only [step, advance, hi, BlockingConcurrentQueue.take, hdata, hun call.token,
      hpop] at hstep
    exact (Option.some.inj hstep).symm
  have hheld : ∀ k, k ≠ i → (s.phase k).holds = false := by
    intro k hk
    rw [← Bool.not_eq_true, hs.exclusive k, (hs.exclusive i).1 (hi ▸ rfl)]
    simpa using Ne.symm hk
  subst hs'
  refine ⟨?_, hun, ⟨j, ?_⟩, fun k => ?_⟩
  · rintro rfl
    simp [hdata] at hlength
  · have hji : j ≠ i := by
      rintro rfl
      rw [hi] at hj
      cases hj
    rwa [enter_phase_ne hji]
  · by_cases hk : k = i
    · exact .inl (by rw [hk, enter_phase_self])
    · rw [enter_phase_ne hk]
      have hattends := hnobody k hk
      have hholds := hheld k hk
      obtain ⟨hpush, hclear⟩ := hquiet k
      cases hp : s.phase k <;> simp_all [Phase.attends, Phase.holds, Phase.isAsleep]

/-- **No consumer is left asleep beside available work**, in every run in which the pops are
relayed. -/
theorem not_overlooked (h : Reach (step maxSize) Relayed ({} : QueueState ι T κ) s) :
    ¬s.Overlooked := by
  have hs : s.Coherent ∧ s.Attended :=
    h.invariant (I := fun s => s.Coherent ∧ s.Attended)
      ⟨⟨by simp [Phase.holds], nofun⟩, fun hne => absurd rfl hne⟩
      fun a l b ha hl hstep => ⟨ha.1.step hstep, ha.2.step ha.1 hl hstep⟩
  rintro ⟨hne, hun, hasleep, hall⟩
  obtain ⟨j, hj⟩ := hs.2 hne hun hasleep
  rcases hall j with hidle | hsleeps
  · rw [hidle] at hj
    cases hj
  · cases hp : s.phase j <;> simp [hp, Phase.isAsleep, Phase.attends] at hsleeps hj

/-- A thread that takes the only element passes the check of `Relayed`. -/
def relays (s : QueueState ι T κ) : QueueAction ι T κ → Bool
  | .go i _ =>
    match s.phase i with
    | .leaving call => call.drain || s.data.length < 2
    | _ => true
  | _ => true

omit [Fintype ι] [DecidableEq ι] [DecidableEq κ] in
theorem relayed_of_relays {a : QueueAction ι T κ} (h : s.relays a = true) : s.Relayed a := by
  rintro i woken call rfl hi hpop hlength - -
  simp only [relays, hi, hpop, Bool.false_or, decide_eq_true_eq] at h
  exact absurd h (Nat.not_lt.2 hlength)

/-- Two consumers sleep. The first element wakes one of them, which takes it after the second
element was pushed, and the second one wakes the other. -/
theorem not_overlooked_both : ∃ s, Reach (step none) Relayed ({} : QueueState (Fin 3) ℕ Unit) s ∧
    s.received = [(1, [10]), (2, [20])] ∧ ¬s.Overlooked := by
  let pop : Call Unit := ⟨(), false, true⟩
  have hrun : (runWhile relays (step none) ({} : QueueState (Fin 3) ℕ Unit)
      [.call 1 pop, .go 1 none, .go 1 none, .go 1 none, .call 2 pop, .go 2 none, .go 2 none,
       .go 2 none, .push 0 10, .go 0 none, .go 0 (some 1), .go 1 none, .go 1 none, .go 1 none,
       .push 0 20, .go 0 none, .go 0 (some 2), .go 2 none, .go 2 none, .go 2 none]).map
        (fun s => s.received) =
      some [(1, [10]), (2, [20])] := by decide
  obtain ⟨s, hreach, hreceived⟩ := exists_reach_of_runWhile (fun _ _ => relayed_of_relays) hrun
  exact ⟨s, hreach, hreceived, not_overlooked hreach⟩

/-- Two consumers sleep. The second element is pushed before the woken one takes the first, and is
left beside the other. -/
theorem overlooked : ∃ s, Reach (step none) anyStep ({} : QueueState (Fin 3) ℕ Unit) s ∧
    s.Overlooked := by
  let pop : Call Unit := ⟨(), false, true⟩
  have hrun : (run (step none) ({} : QueueState (Fin 3) ℕ Unit)
      [.call 1 pop, .go 1 none, .go 1 none, .go 1 none, .call 2 pop, .go 2 none, .go 2 none,
       .go 2 none, .push 0 10, .go 0 none, .go 0 (some 1), .push 0 20, .go 0 none, .go 1 none,
       .go 1 none, .go 1 none]).map
        (fun s => decide (s.data ≠ [] ∧ (∀ token, s.flag token = false) ∧
          (∃ i, (s.phase i).isAsleep = true) ∧
          ∀ i, s.phase i = .idle ∨ (s.phase i).isAsleep = true)) =
      some true := by decide
  obtain ⟨s, hreach, hover⟩ := exists_reach_of_run hrun
  obtain ⟨hne, hun, hasleep, hall⟩ := of_decide_eq_true hover
  exact ⟨s, hreach, hne, hun, hasleep, hall⟩

/-! ### Cancellation -/

/-- A consumer sleeps although its token is cancelled and the notification of that was issued, and
no other notification is to come. -/
def Stranded (s : QueueState ι T κ) (i : ι) : Prop :=
  ∃ call, s.phase i = .asleep call ∧ s.flag call.token = true ∧ s.notified call.token = true ∧
    ∀ j, (s.phase j).notifies = false

/-- The notification of a cancellation is not issued while a consumer with the token is between its
condition and its wait. -/
def Heard (s : QueueState ι T κ) (a : QueueAction ι T κ) : Prop :=
  ∀ i woken token, a = .go i woken → s.phase i = .notifyingAll (some token) →
    ∀ j call, s.phase j = .waiting call → call.token ≠ token

/-- No consumer waits with a token whose cancellation was notified. -/
structure Told (s : QueueState ι T κ) : Prop where
  flagged : ∀ i token, s.phase i = .notifyingAll (some token) → s.flag token = true
  told : ∀ token, s.notified token = true → s.flag token = true ∧
    ∀ i call, s.phase i = .waiting call ∨ s.phase i = .asleep call → call.token ≠ token

omit [Fintype ι] [DecidableEq κ] in
/-- A thread goes on to a phase that makes no difference, or to one that its flag allows. -/
theorem Told.enter (h : s.Told) {t : QueueState ι T κ} {p : Phase T κ}
    (hnotify : ∀ token, p = .notifyingAll (some token) → t.flag token = true)
    (hwait : ∀ call, p = .waiting call ∨ p = .asleep call → s.notified call.token = false)
    (hflag : ∀ token, s.flag token = true → t.flag token = true)
    (hphase : t.phase = s.phase := by rfl) (hnotified : t.notified = s.notified := by rfl) :
    (t.enter i p).Told := by
  constructor
  · intro j token hj
    by_cases hji : j = i
    · rw [hji, enter_phase_self] at hj
      exact hnotify token hj
    · rw [enter_phase_ne hji, hphase] at hj
      exact hflag token (h.flagged j token hj)
  · intro token htoken
    rw [enter_notified, hnotified] at htoken
    obtain ⟨hset, hother⟩ := h.told token htoken
    refine ⟨hflag token hset, fun j call hj => ?_⟩
    by_cases hji : j = i
    · rw [hji, enter_phase_self] at hj
      rintro rfl
      rw [hwait call hj] at htoken
      cases htoken
    · rw [enter_phase_ne hji, hphase] at hj
      exact hother j call hj

omit [Fintype ι] in
theorem Told.advance (h : s.Told) {woken : Option ι} (hheard : s.Heard (.go i woken))
    (ha : Advance maxSize s i s') : s'.Told := by
  have quiet {p : Phase T κ} (hp : p.isAsleep = false) (hw : ∀ call, p ≠ .waiting call) :
      ∀ call, p = .waiting call ∨ p = .asleep call → s.notified call.token = false := by
    rintro call (rfl | rfl)
    · exact absurd rfl (hw call)
    · cases hp
  cases ha with
  | push hi hholder =>
    split_ifs
    · exact h.enter nofun (quiet rfl nofun) fun _ => id
    · exact h.enter nofun (quiet rfl nofun) fun _ => id
  | clear hi hholder => exact h.enter nofun (quiet rfl nofun) fun _ => id
  | notifyNobody hi hnobody => exact h.enter nofun (quiet rfl nofun) fun _ => id
  | @notifyOne j call hi hj =>
    have hj' : (s.enter j (.woken call)).Told := h.enter nofun (quiet rfl nofun) fun _ => id
    exact hj'.enter nofun nofun fun _ => id
  | @notifyAll token hi =>
    have hwoken : ({ s with
        phase := fun j => (s.phase j).wake
        notified := fun k => s.notified k || token = some k } : QueueState ι T κ).Told := by
      constructor
      · exact fun j k hj => h.flagged j k (Phase.of_wake_eq_notifyingAll hj)
      · intro k hk
        have hwaits : ∀ j call, (s.phase j).wake = .waiting call ∨ (s.phase j).wake = .asleep call →
            s.phase j = .waiting call := by
          rintro j call (hj | hj)
          · exact Phase.of_wake_eq_waiting hj
          · have hawake := Phase.isAsleep_wake (s.phase j)
            rw [hj] at hawake
            cases hawake
        rcases Bool.or_eq_true_iff.1 hk with hk | hk
        · obtain ⟨hset, hother⟩ := h.told k hk
          exact ⟨hset, fun j call hj => hother j call (.inl (hwaits j call hj))⟩
        · obtain rfl : token = some k := of_decide_eq_true hk
          refine ⟨h.flagged i k hi, fun j call hj => ?_⟩
          exact hheard i woken k rfl hi j call (hwaits j call hj)
    exact hwoken.enter nofun nofun fun _ => id
  | lock hi hholder hp =>
    rcases hp with rfl | rfl
    · exact h.enter nofun (quiet rfl nofun) fun _ => id
    · exact h.enter nofun (quiet rfl nofun) fun _ => id
  | @wait call hi hflag hdata =>
    refine h.enter nofun ?_ fun _ => id
    rintro c (hc | hc)
    · cases hc
      rw [← Bool.not_eq_true]
      intro hnotified
      rw [(h.told _ hnotified).1] at hflag
      cases hflag
    · cases hc
  | leave hi => exact h.enter nofun (quiet rfl nofun) fun _ => id
  | @sleep call hi =>
    refine h.enter nofun ?_ fun _ => id
    rintro c (hc | hc)
    · cases hc
    · cases hc
      rw [← Bool.not_eq_true]
      exact fun hnotified => (h.told _ hnotified).2 i call (.inl hi) rfl
  | fail hi hfail => exact h.enter nofun (quiet rfl nofun) fun _ => id
  | take hi hdata hne hdrain => exact h.enter nofun (quiet rfl nofun) fun _ => id

theorem Told.step (h : s.Told) {a : QueueAction ι T κ} (hheard : s.Heard a)
    (hstep : s.step maxSize a = some s') : s'.Told := by
  rcases step_cases hstep with ⟨i, p, -, hp, rfl⟩ | ⟨i, token, -, -, rfl⟩ | ⟨i, woken, rfl, ha⟩
  · refine h.enter ?_ ?_ fun _ => id
    · rintro token rfl
      cases hp
    · rintro call (rfl | rfl) <;> cases hp
  · refine h.enter ?_ nofun ?_
    · intro k hk
      cases hk
      exact Function.update_self token true s.flag
    · intro k hk
      by_cases hkt : k = token
      · exact hkt ▸ Function.update_self k true s.flag
      · exact (Function.update_of_ne hkt true s.flag).trans hk
  · exact h.advance hheard ha

/-- A notification that is not heard lets the consumer fall asleep after it, with no other to come
if nobody else is about to notify. -/
theorem stranded_of_not_heard {a : QueueAction ι T κ} (hs : s.Told)
    (hstep : s.step maxSize a = some s') (h : ¬s.Heard a)
    (hquiet : ∀ i woken j, a = .go i woken → j ≠ i → (s.phase j).notifies = false) :
    ∃ j s'', s'.step maxSize (.go j none) = some s'' ∧ s''.Stranded j := by
  simp only [Heard, not_forall, not_not] at h
  obtain ⟨i, woken, token, rfl, hi, j, call, hj, rfl⟩ := h
  have hji : j ≠ i := ne_of_apply_ne s.phase (by simp [hi, hj])
  have hs' : s' = ({ s with
      phase := fun j => (s.phase j).wake
      notified := fun k => s.notified k || some call.token = some k }.enter i .idle) := by
    simp only [step, advance, hi] at hstep
    exact (Option.some.inj hstep).symm
  have hj' : s'.phase j = .waiting call := by
    rw [hs', enter_phase_ne hji]
    simp only [hj]
    rfl
  refine ⟨j, { s' with holder := none }.enter j (.asleep call), ?_, call, enter_phase_self _, ?_,
    ?_, ?_⟩
  · simp only [step, advance, hj']
  · rw [enter_flag, hs']
    exact hs.flagged i call.token hi
  · rw [enter_notified, hs']
    simp
  · intro k
    by_cases hkj : k = j
    · rw [hkj, enter_phase_self]
      rfl
    · rw [enter_phase_ne hkj, hs']
      by_cases hki : k = i
      · dsimp only
        rw [hki, enter_phase_self]
        rfl
      · have hk := hquiet i woken k rfl hki
        dsimp only
        rw [enter_phase_ne hki]
        exact (Phase.notifies_wake _).trans hk

/-- **A cancellation reaches every consumer**, in every run in which the notifications are heard. -/
theorem not_stranded (h : Reach (step maxSize) Heard ({} : QueueState ι T κ) s) :
    ¬s.Stranded i := by
  have hs : s.Told := h.invariant ⟨nofun, nofun⟩ fun _ _ _ ha hl hstep => ha.step hl hstep
  rintro ⟨call, hi, -, hnotified, -⟩
  exact (hs.told call.token hnotified).2 i call (.inr hi) rfl

/-- A notification while nobody is about to wait passes the check of `Heard`. -/
def hears (s : QueueState ι T κ) : QueueAction ι T κ → Bool
  | .go i _ =>
    match s.phase i with
    | .notifyingAll (some _) => decide (∀ j, (s.phase j).holds = false)
    | _ => true
  | _ => true

omit [DecidableEq ι] [DecidableEq κ] in
theorem heard_of_hears {a : QueueAction ι T κ} (h : s.hears a = true) : s.Heard a := by
  rintro i woken token rfl hi j call hj
  simp only [hears, hi, decide_eq_true_eq] at h
  have hheld := h j
  rw [hj] at hheld
  cases hheld

/-- A consumer that sleeps is woken by the cancellation and returns. -/
theorem not_stranded_woken : ∃ s, Reach (step none) Heard ({} : QueueState (Fin 2) ℕ Unit) s ∧
    s.phase 0 = .idle ∧ s.notified () = true ∧ ¬s.Stranded 0 := by
  have hrun : (runWhile hears (step none) ({} : QueueState (Fin 2) ℕ Unit)
      [.call 0 ⟨(), true, true⟩, .go 0 none, .go 0 none, .go 0 none, .cancel 1 (), .go 1 none,
       .go 0 none, .go 0 none, .go 0 none]).map
        (fun s => decide (s.phase 0 = .idle ∧ s.notified () = true)) =
      some true := by
    decide
  obtain ⟨s, hreach, hdone⟩ := exists_reach_of_runWhile (fun _ _ => heard_of_hears) hrun
  obtain ⟨hidle, hnotified⟩ := of_decide_eq_true hdone
  exact ⟨s, hreach, hidle, hnotified, not_stranded hreach⟩

/-- The flag is set and the notification issued between the condition of the consumer and its
wait. -/
theorem stranded : ∃ s, Reach (step none) anyStep ({} : QueueState (Fin 2) ℕ Unit) s ∧
    s.Stranded 0 := by
  let drain : Call Unit := ⟨(), true, true⟩
  have hrun : (run (step none) ({} : QueueState (Fin 2) ℕ Unit)
      [.call 0 drain, .go 0 none, .go 0 none, .cancel 1 (), .go 1 none, .go 0 none]).map
        (fun s => decide (s.phase 0 = .asleep drain ∧ s.flag () = true ∧ s.notified () = true ∧
          ∀ j, (s.phase j).notifies = false)) =
      some true := by decide
  obtain ⟨s, hreach, hstranded⟩ := exists_reach_of_run hrun
  obtain ⟨hasleep, hflag, hnotified, hnobody⟩ := of_decide_eq_true hstranded
  exact ⟨s, hreach, drain, hasleep, hflag, hnotified, hnobody⟩

end QueueState

end Arcana.Threading
