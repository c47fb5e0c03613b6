import Arcana.Scheduling.Effects

/-!
# Visits

What an entry of `m_states` is for, when nothing is cancelled: a visit of a state, with at most one
call of `move_to` and at most one of `on`, each of which only goes forward. `Visit` is that record,
in which a visit that is completed without its work, or a work outside its visit, cannot be written
down. `Shows` says that a completions object and the calls that fetched it are what a visit says,
and the lemmas here say which steps of the calls are steps of the visit.

* `Moving` and `Working` are how far the two calls are, and `Visit` has both of them.
* `Visit.completions` is the completions object of a visit, and `Visit.move` and `Visit.work` are
  its steps.
* `Shows` relates the driver to a visit; `Shows.move`, `Shows.work` and `Shows.frame` say what the
  steps do.
-/

namespace Arcana.Scheduling

open Function

variable {S C D : Type*}

/-- How far the call of `move_to` of a visit is. -/
inductive Moving
  | fetched
  | entered
  | awaiting
  | done
deriving DecidableEq

/-- How far the call of `on` of a visit is. -/
inductive Working (D : Type*)
  | fetched
  | awaiting
  | queued
  | working
  | exiting (data : D)
  | leaving (data : D)
  | done (data : D)

namespace Moving

/-- The position of the call. -/
def position : Moving → MoveTo D
  | .fetched => .fetched
  | .entered => .entered
  | .awaiting => .awaiting
  | .done => .done

end Moving

namespace Working

/-- The position of the call. -/
def position (k : ℕ) : Working D → On D
  | .fetched => .fetched
  | .awaiting => .awaiting
  | .queued => .queued
  | .working => .working
  | .exiting data => .exiting data
  | .leaving data => .leaving (.exited k (.ok data))
  | .done _ => .done

/-- The data that the work wrote. -/
def data : Working D → Option D
  | .exiting data | .leaving data | .done data => some data
  | _ => none

/-- The call holds the entry of its state. -/
def holds : Working D → Bool
  | .leaving _ | .done _ => false
  | _ => true

/-- The call is about to wait for `StateEntered`, or waits. -/
def waits : Working D → Bool
  | .fetched | .awaiting => true
  | _ => false

end Working

/-- A visit of `state`: its call of `move_to` and its call of `on`, and how far they are. The call
of `on` goes on only after `move_to` has entered the state, and the task of `move_to` completes only
after the call of `on` has exited. -/
structure Visit (S D : Type*) where
  state : S
  mover : Option (ℕ × Moving)
  worker : Option (ℕ × Working D)
  entered : ∀ o p, worker = some (o, p) → p.waits = false →
    ∃ a q, mover = some (a, q) ∧ q ≠ .fetched
  exited : ∀ a, mover = some (a, .done) → ∃ o data, worker = some (o, .done data)

namespace Visit

/-- The visit is the entry of its state. -/
def isOpen (v : Visit S D) : Bool := v.worker.all fun x => x.2.holds

/-- `StateEntered` of the visit. -/
def stateEntered (v : Visit S D) : Source (Except ErrorCode Unit) :=
  match v.mover with
  | none | some (_, .fetched) => {}
  | some _ => { completions := 1, result := some (.ok ()) }

/-- `StateExited` of the visit. -/
def stateExited (v : Visit S D) : Source (Except ErrorCode D) :=
  match v.worker with
  | some (_, .done data) => { completions := 1, result := some (.ok data) }
  | _ => {}

/-- The completions object of the visit. -/
def completions (v : Visit S D) : Completions D where
  StateEntered := v.stateEntered
  StateExited := v.stateExited
  WorkPending := v.worker.isSome

/-- The visit of an entry that was just made. -/
def fresh (state : S) : Visit S D where
  state := state
  mover := none
  worker := none
  entered := nofun
  exited := nofun

/-- The task of `move_to` of an open visit is not completed. -/
theorem not_done (v : Visit S D) (hopen : v.isOpen = true) (a : ℕ) : v.mover ≠ some (a, .done) := by
  intro ha
  obtain ⟨o, data, ho⟩ := v.exited a ha
  simp [isOpen, ho, Working.holds] at hopen

/-- The task of `move_to` is not completed before its work is done. -/
theorem not_done_of_worker (v : Visit S D) {o : ℕ} {p : Working D} (hv : v.worker = some (o, p))
    (hp : ∀ data, p ≠ .done data) (a : ℕ) : v.mover ≠ some (a, .done) := by
  intro ha
  obtain ⟨o', data, ho⟩ := v.exited a ha
  cases hv.symm.trans ho
  exact hp data rfl

/-- The call `a` of `move_to` is at `q`. -/
@[simps] def move (v : Visit S D) (a : ℕ) (q : Moving)
    (entered : ∀ o p, v.worker = some (o, p) → p.waits = false → q ≠ .fetched)
    (exited : q = .done → ∃ o data, v.worker = some (o, .done data)) : Visit S D where
  state := v.state
  mover := some (a, q)
  worker := v.worker
  entered o p hp hw := ⟨a, q, rfl, entered o p hp hw⟩
  exited b hb := exited (by cases hb; rfl)

/-- The call `o` of `on` is at `q`. -/
@[simps] def work (v : Visit S D) (o : ℕ) (q : Working D)
    (entered : q.waits = false → ∃ a p, v.mover = some (a, p) ∧ p ≠ .fetched)
    (exited : ∀ a, v.mover ≠ some (a, .done)) : Visit S D where
  state := v.state
  mover := v.mover
  worker := some (o, q)
  entered o' p hp hw := by cases hp; exact entered hw
  exited a ha := absurd ha (exited a)

/-- Nothing is completed by a call of `move_to` that has entered. -/
theorem completions_move {v : Visit S D} {a : ℕ} {p q : Moving} (hv : v.mover = some (a, p))
    (hp : p ≠ .fetched) (hq : q ≠ .fetched) (entered) (exited) :
    (v.move a q entered exited).completions = v.completions := by
  cases p <;> cases q <;> simp_all [completions, stateEntered, stateExited]

/-- Nothing is completed by a call of `on` before it is done. -/
theorem completions_work {v : Visit S D} {o : ℕ} {p q : Working D} (hv : v.worker = some (o, p))
    (hp : ∀ data, p ≠ .done data) (hq : ∀ data, q ≠ .done data) (entered) (exited) :
    (v.work o q entered exited).completions = v.completions := by
  have hexited : v.stateExited = {} := by
    cases p <;> simp_all [stateExited]
  have hexited' : (v.work o q entered exited).stateExited = {} := by
    cases q <;> simp_all [stateExited]
  rw [completions, completions, hexited, hexited', hv]
  rfl

end Visit

/-- The completions object `k`, and the calls that fetched it, are what the visit says. -/
structure Shows (s : State S C D) (k : ℕ) (v : Visit S D) : Prop where
  object : s.driver.object k = v.completions
  entry : s.driver.m_states v.state = some k ↔ v.isOpen = true
  moves : ∀ a state token p, s.call a = some (.moveTo state token k p) ↔
    ∃ q, v.mover = some (a, q) ∧ state = v.state ∧ token = none ∧ p = q.position
  ons : ∀ a state token p, s.call a = some (.on state token k p) ↔
    ∃ q, v.worker = some (a, q) ∧ state = v.state ∧ token = none ∧ p = q.position k
  worked : ∀ o q, v.worker = some (o, q) → ∀ data, (o, data) ∈ s.worked ↔ q.data = some data
  returned : ∀ a q, v.mover = some (a, q) → (a ∈ s.returned ↔ q = .done)

namespace Shows

variable {s s' : State S C D} {k : ℕ} {v : Visit S D}

theorem call_of_mover (h : Shows s k v) {a : ℕ} {q : Moving} (hv : v.mover = some (a, q)) :
    s.call a = some (.moveTo v.state none k q.position) :=
  (h.moves a v.state none q.position).2 ⟨q, hv, rfl, rfl, rfl⟩

theorem call_of_worker (h : Shows s k v) {o : ℕ} {q : Working D} (hv : v.worker = some (o, q)) :
    s.call o = some (.on v.state none k (q.position k)) :=
  (h.ons o v.state none (q.position k)).2 ⟨q, hv, rfl, rfl, rfl⟩

/-- `StateEntered` of the visit is completed when its `move_to` has entered, and then it is
valid. -/
theorem entered_completed (h : Shows s k v) :
    ((s.driver.object k).StateEntered.completed = true ↔
    ∃ a q, v.mover = some (a, q) ∧ q ≠ .fetched) ∧
      ((s.driver.object k).StateEntered.completed = true →
        (s.driver.object k).StateEntered.result = some (.ok ())) := by
  rw [h.object, Visit.completions, Visit.stateEntered]
  rcases v.mover with _ | ⟨a, q⟩
  · simp [Source.completed]
  · cases q <;> simp [Source.completed]

/-- `StateExited` of the visit is completed when its work is done, with the data of the work. -/
theorem exited_completed (h : Shows s k v) :
    ((s.driver.object k).StateExited.completed = true ↔ ∃ o data, v.worker = some (o, .done data)) ∧
      (s.driver.object k).StateExited.completions ≤ 1 ∧
      ∀ o data, v.worker = some (o, .done data) →
        (s.driver.object k).StateExited.result = some (.ok data) := by
  rw [h.object, Visit.completions, Visit.stateExited]
  rcases v.worker with _ | ⟨o, q⟩
  · simp [Source.completed]
  · cases q <;> simp [Source.completed]

/-- `move_to` completes the `StateEntered` of its visit. -/
theorem complete_entered {a : ℕ} (h : Shows s k v) (hv : v.mover = some (a, .fetched)) (entered)
    (exited) :
    (s.driver.complete (.entered k (.ok ()))).2 = false ∧
      (s.driver.complete (.entered k (.ok ()))).1.object k =
        (v.move a .entered entered exited).completions := by
  simp [Driver.complete, h.object, Visit.completions, Visit.stateEntered, Visit.stateExited, hv,
    Source.completed, Source.complete]

/-- `exit` completes the `StateExited` of its visit. -/
theorem complete_exited {o : ℕ} {data : D} (h : Shows s k v)
    (hv : v.worker = some (o, .leaving data)) (entered) (exited) :
    (s.driver.complete (.exited k (.ok data))).2 = false ∧
      (s.driver.complete (.exited k (.ok data))).1.object k =
        (v.work o (.done data) entered exited).completions := by
  simp [Driver.complete, h.object, Visit.completions, Visit.stateEntered, Visit.stateExited, hv,
    Source.completed, Source.complete]

/-- A step of the call `a` of `move_to` is a step of the visit. -/
theorem move {a : ℕ} {q : Moving} {entered exited} (h : Shows s k v)
    (hcall : s'.call = update s.call a (some (.moveTo v.state none k q.position)))
    (hmover : ∀ b p, v.mover = some (b, p) → b = a)
    (hworker : ∀ p, v.worker ≠ some (a, p))
    (hobject : s'.driver.object k = (v.move a q entered exited).completions)
    (hentry : s'.driver.m_states v.state = s.driver.m_states v.state)
    (hworked : s'.worked = s.worked) (hreturned : a ∈ s'.returned ↔ q = .done) :
    Shows s' k (v.move a q entered exited) where
  object := hobject
  entry := by
    rw [Visit.move_state, hentry]
    exact h.entry
  moves b state token p := by
    rw [hcall]
    by_cases hb : b = a
    · simp [hb, eq_comm]
    · rw [update_of_ne hb, h.moves]
      constructor
      · rintro ⟨p', hv, -⟩
        exact absurd (hmover b p' hv) hb
      · rintro ⟨p', hv, -⟩
        cases hv
        exact absurd rfl hb
  ons b state token p := by
    rw [hcall]
    by_cases hb : b = a
    · simp [hb, hworker]
    · rw [update_of_ne hb, h.ons]
      rfl
  worked o p hp data := by
    rw [hworked]
    exact h.worked o p hp data
  returned b p hb := by
    cases hb
    exact hreturned

/-- A step of the call `o` of `on` is a step of the visit. -/
theorem work {o : ℕ} {q : Working D} {entered exited} (h : Shows s k v)
    (hcall : s'.call = update s.call o (some (.on v.state none k (q.position k))))
    (hworker : ∀ b p, v.worker = some (b, p) → b = o)
    (hmover : ∀ p, v.mover ≠ some (o, p))
    (hobject : s'.driver.object k = (v.work o q entered exited).completions)
    (hentry : s'.driver.m_states v.state = some k ↔ q.holds = true)
    (hworked : ∀ data, (o, data) ∈ s'.worked ↔ q.data = some data)
    (hreturned : s'.returned = s.returned) : Shows s' k (v.work o q entered exited) where
  object := hobject
  entry := by simpa [Visit.isOpen] using hentry
  moves b state token p := by
    rw [hcall]
    by_cases hb : b = o
    · simp [hb, hmover]
    · rw [update_of_ne hb, h.moves]
      rfl
  ons b state token p := by
    rw [hcall]
    by_cases hb : b = o
    · simp [hb, eq_comm]
    · rw [update_of_ne hb, h.ons]
      constructor
      · rintro ⟨p', hv, -⟩
        exact absurd (hworker b p' hv) hb
      · rintro ⟨p', hv, -⟩
        cases hv
        exact absurd rfl hb
  worked b p hp data := by
    cases hp
    exact hworked data
  returned a p hp := by
    rw [hreturned]
    exact h.returned a p hp

/-- A step of a call of another visit. -/
theorem frame {k' a : ℕ} {y : Call S C D} (h : Shows s k v) (hne : k ≠ k')
    (hcall : s'.call = update s.call a (some y))
    (hold : ∀ x, s.args a = some x → x.object = k') (hnew : ∀ x, y.args = some x → x.object = k')
    (hobject : s'.driver.object k = s.driver.object k)
    (hentry : s'.driver.m_states v.state = some k ↔ s.driver.m_states v.state = some k)
    (hworked : ∀ b data, b ≠ a → ((b, data) ∈ s'.worked ↔ (b, data) ∈ s.worked))
    (hreturned : ∀ b, b ≠ a → (b ∈ s'.returned ↔ b ∈ s.returned)) : Shows s' k v where
  object := hobject.trans h.object
  entry := hentry.trans h.entry
  moves b state token p := by
    rw [← h.moves, hcall]
    by_cases hb : b = a
    · subst hb
      refine ⟨fun hx => ?_, fun hx => absurd (hold _ (State.args_of_call hx)) hne⟩
      rw [update_self] at hx
      cases hx
      exact absurd (hnew _ rfl) hne
    · rw [update_of_ne hb]
  ons b state token p := by
    rw [← h.ons, hcall]
    by_cases hb : b = a
    · subst hb
      refine ⟨fun hx => ?_, fun hx => absurd (hold _ (State.args_of_call hx)) hne⟩
      rw [update_self] at hx
      cases hx
      exact absurd (hnew _ rfl) hne
    · rw [update_of_ne hb]
  worked o q hq data := by
    rw [hworked o data, h.worked o q hq data]
    rintro rfl
    exact hne (hold _ (State.args_of_call (h.call_of_worker hq)))
  returned b q hq := by
    rw [hreturned b, h.returned b q hq]
    rintro rfl
    exact hne (hold _ (State.args_of_call (h.call_of_mover hq)))

end Shows

end Arcana.Scheduling
