import Mathlib.Data.List.Nodup
import Mathlib.Logic.Function.Basic
import Arcana.Foundations.Counter
import Arcana.Foundations.Partition
import Arcana.Foundations.Transition

/-!
# `router`

A router has a list of listeners for each event type. `fire` calls the listeners of a type one after
another, and each of them may add listeners, destroy tickets and fire again, to any depth. While a
type is being fired, which its `sentry` says, its list keeps its shape: a listener that is added
waits in `m_pending`, and one whose ticket is destroyed is only disabled. The `fire` that started it
all brings the list up to date when it ends.

Between two steps of the model user code runs, the program or the callback of a listener, so that
the steps are what user code can do: add a listener, destroy a ticket, fire an event, and return
from the callback, upon which the `fire` that called it goes on to the next one. All programs are
covered, since the steps are taken in any order.

A ticket is a `gsl::final_action`, which is not part of the repository. What is assumed of it is
what is documented: it runs its action when it is destroyed, unless it was moved from, and what it
was moved to runs the action then. So a ticket here is the id of its listener for as long as one
object holds it, the action is run once, and a move is no step.

* `Router` and `Listener` are the data; `Router.addListener`, `Router.removeListener` and
  `Router.endFire` are the functions of the source.
* `RouterState` is a router in use, with the stack of the fires in progress, and `RouterState.step`
  a step of user code. An assertion that fails, or an id that overflows, has no next state.
* `valids` are the listeners that are not disabled, which is what most of the lemmas speak of:
  `valids_disable`, `valids_append` and `valids_erase` say what the operations do to them.
* `RouterState.step_ids` says that a list keeps its shape while its type is being fired.
-/

namespace Arcana.Messaging

open Foundations

/-- `router::listener`. -/
structure Listener (C : Type*) where
  callback : C
  id : Int64
  valid : Bool := true

/-- `router`, without its affinity: there is one thread. -/
structure Router (Ev C : Type*) where
  listeners : Ev → List (Listener C) := fun _ => []
  sentries : Ev → Bool := fun _ => false
  pending : Ev → List (Listener C) := fun _ => []
  nextId : Int64

/-- A `fire` that is waiting for the callback of a listener: the value of the guard of the sentry,
and the position and the end of the loop over the listeners. -/
structure Fire (Ev V : Type*) where
  event : Ev
  value : V
  previous : Bool
  next : ℕ
  stop : ℕ

/-- What is seen of a run. -/
inductive Event (Ev C V : Type*)
  | registered (e : Ev) (id : Int64)
  | destroyed (e : Ev) (id : Int64)
  /-- The assertion "removing item that isn't there" fails. -/
  | missing (e : Ev) (id : Int64)
  | fired (e : Ev) (value : V)
  | invoked (e : Ev) (id : Int64) (callback : C) (value : V)
  | ended (e : Ev)
  deriving DecidableEq

/-- A router in use. The fires in progress are a stack, the tickets are those that are alive, and
the log is a history. -/
structure RouterState (Ev C V : Type*) where
  router : Router Ev C
  fires : List (Fire Ev V) := []
  tickets : List (Ev × Int64) := []
  log : List (Event Ev C V) := []

/-- What user code does. -/
inductive Action (Ev C V : Type*)
  | add (e : Ev) (callback : C)
  | destroy (e : Ev) (id : Int64)
  | fire (e : Ev) (value : V)
  /-- The callback of a listener returns. -/
  | ret

section Listeners

variable {C : Type*}

/-- What tells a listener from the others, with what it does. -/
def Listener.entry (listener : Listener C) : Int64 × C := (listener.id, listener.callback)

/-- The listeners that are not disabled. -/
def valids (listeners : List (Listener C)) : List (Int64 × C) :=
  (listeners.filter (·.valid)).map Listener.entry

/-- The listener at a position is disabled. -/
def disable (listeners : List (Listener C)) (found : ℕ) : List (Listener C) :=
  listeners.modify found fun listener => { listener with valid := false }

/-- The next listener that is valid, with its position. -/
def nextValid : List (Listener C) → ℕ → Option (ℕ × Listener C)
  | [], _ => none
  | listener :: rest, i => if listener.valid then some (i, listener) else nextValid rest (i + 1)

variable {listeners : List (Listener C)} {id : Int64} {i : ℕ}

@[simp] theorem valids_nil : valids ([] : List (Listener C)) = [] := rfl

theorem valids_append (l₁ l₂ : List (Listener C)) : valids (l₁ ++ l₂) = valids l₁ ++ valids l₂ := by
  rw [valids, List.filter_append, List.map_append, valids, valids]

theorem valids_eq_map (h : ∀ x ∈ listeners, x.valid = true) :
    valids listeners = listeners.map Listener.entry := by
  rw [valids, List.filter_eq_self.2 h]

theorem nextValid_eq_none : nextValid listeners i = none ↔ valids listeners = [] := by
  induction listeners generalizing i with
  | nil => simp [nextValid]
  | cons x rest ih =>
    rw [nextValid]
    cases hx : x.valid with
    | true => simp [valids, hx]
    | false => simpa [valids, hx] using ih

/-- The valid listeners from a position on begin with the one that is found. -/
theorem nextValid_eq_some {j : ℕ} {x : Listener C}
    (h : nextValid (listeners.drop i) i = some (j, x)) :
    valids (listeners.drop i) = x.entry :: valids (listeners.drop (j + 1)) := by
  generalize hrest : listeners.drop i = rest at h
  induction rest generalizing i with
  | nil => cases h
  | cons y rest ih =>
    have hdrop : listeners.drop (i + 1) = rest := by
      rw [← List.drop_drop, hrest]
      rfl
    rw [nextValid] at h
    cases hy : y.valid with
    | true =>
      rw [hy, if_pos rfl, Option.some.injEq, Prod.mk.injEq] at h
      obtain ⟨rfl, rfl⟩ := h
      rw [hdrop]
      simp [valids, hy]
    | false =>
      rw [hy, if_neg Bool.false_ne_true] at h
      rw [← ih hdrop h]
      simp [valids, hy]

/-- The listener that is found has the id. -/
theorem exists_of_findIdx? {found : ℕ}
    (h : (listeners.findIdx? fun x => x.id == id) = some found) :
    ∃ l₁ l₂ x, listeners = l₁ ++ x :: l₂ ∧ l₁.length = found ∧ x.id = id := by
  obtain ⟨hlt, hfound, -⟩ := List.findIdx?_eq_some_iff_getElem.1 h
  obtain ⟨l₁, l₂, hl, hlength⟩ := exists_append_of_getElem? (List.getElem?_eq_getElem hlt)
  exact ⟨l₁, l₂, _, hl, hlength, beq_iff_eq.1 hfound⟩

/-- The listener with an id is found. -/
theorem exists_found (h : id ∈ (valids listeners).map Prod.fst) :
    ∃ found l₁ l₂ x, (listeners.findIdx? fun x => x.id == id) = some found ∧
      listeners = l₁ ++ x :: l₂ ∧ l₁.length = found ∧ x.id = id := by
  obtain ⟨⟨a, c⟩, hentry, rfl⟩ := List.mem_map.1 h
  obtain ⟨x, hx, hxa⟩ := List.mem_map.1 hentry
  obtain ⟨rfl, -⟩ := Prod.mk.inj hxa
  cases hfind : listeners.findIdx? fun y => y.id == x.id with
  | none =>
    have hnone := List.findIdx?_eq_none_iff.1 hfind x (List.mem_filter.1 hx).1
    simp at hnone
  | some found =>
    obtain ⟨l₁, l₂, y, hl, hlength, hy⟩ := exists_of_findIdx? hfind
    exact ⟨found, l₁, l₂, y, rfl, hl, hlength, hy⟩

/-- Only one listener has an id. -/
theorem ne_of_nodup {l₁ l₂ : List (Listener C)} {x : Listener C}
    (h : ((l₁ ++ x :: l₂).map Listener.id).Nodup) : ∀ y ∈ l₁ ++ l₂, y.id ≠ x.id := by
  rw [List.map_append, List.map_cons, List.nodup_middle, List.nodup_cons, ← List.map_append] at h
  intro y hy e
  exact h.1 (e ▸ List.mem_map_of_mem hy)

/-- Disabling a listener takes it from those that are valid, also from a position on. -/
theorem valids_disable {l₁ l₂ : List (Listener C)} {x : Listener C}
    (h : ((l₁ ++ x :: l₂).map Listener.id).Nodup) (n : ℕ) :
    valids ((disable (l₁ ++ x :: l₂) l₁.length).drop n) =
      (valids ((l₁ ++ x :: l₂).drop n)).filter (·.1 ≠ x.id) := by
  have hother := ne_of_nodup h
  let off (y : Listener C) : Listener C := if y.id = x.id then { y with valid := false } else y
  have hoff : disable (l₁ ++ x :: l₂) l₁.length = (l₁ ++ x :: l₂).map off := by
    have hkeep (l : List (Listener C)) (hl : ∀ y ∈ l, y ∈ l₁ ++ l₂) : l.map off = l :=
      (List.map_congr_left fun y hy => if_neg (hother y (hl y hy))).trans (List.map_id _)
    rw [List.map_append, List.map_cons, hkeep l₁ fun y hy => List.mem_append_left _ hy,
      hkeep l₂ fun y hy => List.mem_append_right _ hy, disable, modify_append_cons]
    simp only [off, if_true]
  rw [hoff, ← List.map_drop]
  induction (l₁ ++ x :: l₂).drop n with
  | nil => rfl
  | cons y l ih =>
    by_cases hy : y.id = x.id
    · cases hv : y.valid <;> simp_all [valids, off, Listener.entry]
    · cases hv : y.valid <;> simp_all [valids, off, Listener.entry]

/-- Erasing a listener takes it from those that are valid. -/
theorem valids_erase {l₁ l₂ : List (Listener C)} {x : Listener C}
    (h : ((l₁ ++ x :: l₂).map Listener.id).Nodup) :
    valids (l₁ ++ l₂) = (valids (l₁ ++ x :: l₂)).filter (·.1 ≠ x.id) := by
  have hother := ne_of_nodup h
  have hkeep (l : List (Listener C)) (hl : ∀ y ∈ l, y ∈ l₁ ++ l₂) :
      (valids l).filter (·.1 ≠ x.id) = valids l := by
    refine List.filter_eq_self.2 fun a ha => ?_
    obtain ⟨y, hy, rfl⟩ := List.mem_map.1 ha
    exact decide_eq_true (hother y (hl y (List.mem_filter.1 hy).1))
  have hx : (valids [x]).filter (·.1 ≠ x.id) = [] := by
    refine List.filter_eq_nil_iff.2 fun a ha => ?_
    obtain ⟨y, hy, rfl⟩ := List.mem_map.1 ha
    obtain rfl := List.mem_singleton.1 (List.mem_filter.1 hy).1
    simp [Listener.entry]
  rw [List.append_cons, valids_append, valids_append, valids_append, List.filter_append,
    List.filter_append, hx, List.append_nil, hkeep l₁ fun y hy => List.mem_append_left _ hy,
    hkeep l₂ fun y hy => List.mem_append_right _ hy]

/-- A listener that is disabled stays where it is. -/
theorem ids_disable (listeners : List (Listener C)) (found : ℕ) :
    (disable listeners found).map Listener.id = listeners.map Listener.id := by
  rw [disable]
  induction listeners generalizing found with
  | nil => simp
  | cons x rest ih =>
    cases found with
    | zero => rfl
    | succ found => rw [List.modify_succ_cons, List.map_cons, ih, List.map_cons]

end Listeners

variable {Ev C V : Type*} [DecidableEq Ev]

namespace Router

/-- `internal_add_listener`, with the id. There is no result when the ids overflow. -/
def addListener (r : Router Ev C) (e : Ev) (callback : C) : Option (Router Ev C × Int64) :=
  (increment r.nextId).map fun nextId =>
    let listener : Listener C := { callback, id := r.nextId }
    if r.sentries e then
      ({ r with nextId, pending := Function.update r.pending e (r.pending e ++ [listener]) },
        r.nextId)
    else
      ({ r with nextId, listeners := Function.update r.listeners e (r.listeners e ++ [listener]) },
        r.nextId)

/-- `internal_remove_listener`. There is no result when the assertion fails. -/
def removeListener (r : Router Ev C) (e : Ev) (id : Int64) : Option (Router Ev C) :=
  ((r.listeners e).findIdx? fun listener => listener.id == id).map fun found =>
    { r with
      listeners := Function.update r.listeners e
        (if r.sentries e then disable (r.listeners e) found else (r.listeners e).eraseIdx found) }

/-- The end of `fire`: the guard is destroyed, and if the type is not being fired any more, the
disabled listeners are erased and the pending ones are moved to the list. -/
def endFire (r : Router Ev C) (e : Ev) (previous : Bool) : Router Ev C :=
  if previous then
    { r with sentries := Function.update r.sentries e previous }
  else
    { r with
      sentries := Function.update r.sentries e previous
      listeners := Function.update r.listeners e ((r.listeners e).filter (·.valid) ++ r.pending e)
      pending := Function.update r.pending e [] }

end Router

namespace RouterState

/-- The loop of `fire` up to the next callback, or to its end. -/
def goOn (s : RouterState Ev C V) (fire : Fire Ev V) : RouterState Ev C V :=
  match nextValid (((s.router.listeners fire.event).take fire.stop).drop fire.next) fire.next with
  | some (i, listener) =>
    { s with
      fires := { fire with next := i + 1 } :: s.fires
      log := s.log ++ [.invoked fire.event listener.id listener.callback fire.value] }
  | none =>
    { s with
      router := s.router.endFire fire.event fire.previous
      log := s.log ++ [.ended fire.event] }

/-- One step of the user code, with what the router does of it. -/
def step (s : RouterState Ev C V) : Action Ev C V → Option (RouterState Ev C V)
  | .add e callback => (s.router.addListener e callback).map fun result =>
    { s with
      router := result.1
      tickets := s.tickets ++ [(e, result.2)]
      log := s.log ++ [.registered e result.2] }
  | .destroy e id =>
    if (e, id) ∈ s.tickets then
      match s.router.removeListener e id with
      | none => some
        { s with
          tickets := s.tickets.erase (e, id)
          log := s.log ++ [.missing e id, .destroyed e id] }
      | some router => some
        { s with
          router
          tickets := s.tickets.erase (e, id)
          log := s.log ++ [.destroyed e id] }
    else
      none
  | .fire e value =>
    let router := { s.router with sentries := Function.update s.router.sentries e true }
    some (goOn { s with router, log := s.log ++ [.fired e value] }
      { event := e, value, previous := s.router.sentries e, next := 0
        stop := (s.router.listeners e).length })
  | .ret =>
    match s.fires with
    | [] => none
    | fire :: fires => some (goOn { s with fires } fire)

variable {s s' : RouterState Ev C V} {a : Action Ev C V} {e : Ev}

/-- The loop changes a list only when it ends the outermost fire of the type. -/
theorem goOn_ids {fire : Fire Ev V} (h : (s.goOn fire).router.sentries e = true) :
    ((s.goOn fire).router.listeners e).map Listener.id =
    (s.router.listeners e).map Listener.id := by
  rw [goOn] at h ⊢
  split at h
  · rfl
  · rw [Router.endFire] at h ⊢
    cases hprevious : fire.previous with
    | true => rfl
    | false =>
      have he : e ≠ fire.event := by
        rintro rfl
        simp [hprevious] at h
      simp [Function.update_of_ne he]

/-- **While a type is being fired its list keeps its shape**: a step that does not end the outermost
fire disables a listener at most. -/
theorem step_ids (hstep : s.step a = some s') (h : s.router.sentries e = true)
    (h' : s'.router.sentries e = true) :
    (s'.router.listeners e).map Listener.id = (s.router.listeners e).map Listener.id := by
  cases a with
  | add e' callback =>
    obtain ⟨⟨r, id⟩, hadd, rfl⟩ := Option.map_eq_some_iff.1 hstep
    obtain ⟨nextId, -, hr⟩ := Option.map_eq_some_iff.1 hadd
    split_ifs at hr with hactive
    · obtain ⟨rfl, -⟩ := Prod.mk.inj hr
      rfl
    · obtain ⟨rfl, -⟩ := Prod.mk.inj hr
      have he : e ≠ e' := fun he => hactive (he ▸ h)
      simp [Function.update_of_ne he]
  | destroy e' id =>
    obtain ⟨-, hs'⟩ := Option.ite_none_right_eq_some.1 hstep
    cases hremove : s.router.removeListener e' id with
    | none =>
      rw [hremove] at hs'
      obtain rfl := Option.some.inj hs'
      rfl
    | some r =>
      rw [hremove] at hs'
      obtain rfl := Option.some.inj hs'
      obtain ⟨found, -, rfl⟩ := Option.map_eq_some_iff.1 hremove
      by_cases he : e = e'
      · subst he
        simp [h, ids_disable]
      · simp [Function.update_of_ne he]
  | fire e' value =>
    obtain rfl := Option.some.inj hstep
    exact goOn_ids h'
  | ret =>
    cases hs : s.fires with
    | nil =>
      rw [step, hs] at hstep
      cases hstep
    | cons fire fires =>
      rw [step, hs] at hstep
      obtain rfl := Option.some.inj hstep
      exact goOn_ids h'

end RouterState

end Arcana.Messaging
