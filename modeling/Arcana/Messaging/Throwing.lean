import Arcana.Messaging.Delivery

/-!
# Listeners that throw

An exception that a callback throws leaves the `fire` that called it. The guard of the sentry is
destroyed on the way, but what follows the loop is not reached, so that the list of the type is not
brought up to date. The exception is then thrown by the callback that called `fire`, which may catch
it, or not.

A run is observed with a history: the length that the log had when the outermost fire of each type
began (`ThrowState.began`), and so what happened since (`ThrowState.since`). An exception that
leaves the outermost fire of a type does no harm when no listener of the type was added since that
fire began and no ticket of the type was destroyed (`ThrowState.Harmless`). That this is the exact
condition follows from what each step does to the list of a type that is being fired
(`Settled.changes`): it is up to date as long as nothing of the kind has happened, and never again
before the fire ends.

* `ThrowState.step`: one step of user code that may throw.
* `ThrowState.Harmless`: the exceptions that leave the router as it has to be, by what happened
  before.
* `RouterState.Settled`, `ThrowState.Tracked`: what holds between two steps.
* `ThrowState.settled_between_fires`: between fires the router is up to date, in the runs whose
  exceptions are harmless, and an exception that is not leaves it otherwise.
* `ThrowState.waiting_after_throw`: a listener that waits after such an exception.
-/

namespace Arcana.Messaging

open Foundations

variable {Ev C V : Type*} [DecidableEq Ev]

/-- What user code does that may throw. -/
inductive ThrowAction (Ev C V : Type*)
  | act (a : Action Ev C V)
  /-- An exception leaves the callback that is running. -/
  | throw

/-- A listener of a type is added, or a ticket of it destroyed. -/
def Event.changes (e : Ev) : Event Ev C V → Bool
  | .registered e' _ => e' = e
  | .destroyed e' _ => e' = e
  | _ => false

/-- The listeners of a type, with those that wait. -/
def Router.known (r : Router Ev C) (e : Ev) : List (Listener C) := r.listeners e ++ r.pending e

/-- No listener of a type waits, and none is disabled. -/
def Router.UpToDate (r : Router Ev C) (e : Ev) : Prop :=
  r.pending e = [] ∧ ∀ x ∈ r.listeners e, x.valid = true

/-- An exception leaves `fire`. -/
def RouterState.unwind (s : RouterState Ev C V) (fire : Fire Ev V) : RouterState Ev C V :=
  { s with
    router :=
      { s.router with sentries := Function.update s.router.sentries fire.event fire.previous } }

/-- A router in use by code that may throw. The length of the log when the outermost fire of each
type began is a history. -/
structure ThrowState (Ev C V : Type*) extends RouterState Ev C V where
  began : Ev → ℕ := fun _ => 0

namespace ThrowState

/-- What has happened since the outermost fire of a type began. -/
def since (s : ThrowState Ev C V) (e : Ev) : List (Event Ev C V) := s.log.drop (s.began e)

/-- Where the outermost fires began, after a step: the fire of a type that is not being fired begins
now. -/
def beganAfter (s : ThrowState Ev C V) : Action Ev C V → Ev → ℕ
  | .fire e _ =>
    if ∃ f ∈ s.fires, f.event = e then s.began else Function.update s.began e s.log.length
  | _ => s.began

/-- One step of user code that may throw. -/
def step (s : ThrowState Ev C V) : ThrowAction Ev C V → Option (ThrowState Ev C V)
  | .act a => (s.toRouterState.step a).map fun s' => { s' with began := s.beganAfter a }
  | .throw =>
    match s.fires with
    | [] => none
    | fire :: fires => some { s with toRouterState := { s.toRouterState with fires }.unwind fire }

/-- When an exception leaves the outermost fire of a type, no listener of the type was added and no
ticket of it destroyed since that fire began. -/
def Harmless (s : ThrowState Ev C V) : ThrowAction Ev C V → Prop
  | .act _ => True
  | .throw => ∀ fire ∈ s.fires.head?, (∀ f ∈ s.fires.tail, f.event ≠ fire.event) →
    ∀ event ∈ s.since fire.event, event.changes fire.event = false

instance (s : ThrowState Ev C V) : ∀ a, Decidable (s.Harmless a)
  | .act _ => .isTrue trivial
  | .throw =>
    inferInstanceAs (Decidable (∀ fire ∈ s.fires.head?, (∀ f ∈ s.fires.tail, f.event ≠ fire.event) →
      ∀ event ∈ s.since fire.event, event.changes fire.event = false))

end ThrowState

namespace RouterState

/-- What holds of a type between two steps. -/
structure Orderly (r : Router Ev C) (tickets : List (Ev × Int64)) (e : Ev) : Prop where
  idle : r.sentries e = false → r.UpToDate e
  waiting : ∀ x ∈ r.pending e, x.valid = true
  ids : ((r.known e).map Listener.id).Pairwise (· < ·)
  below : ∀ x ∈ r.known e, x.id < r.nextId
  tickets : ∀ id, (e, id) ∈ tickets → id ∈ (valids (r.known e)).map Prod.fst

/-- What holds between two steps. -/
structure Settled (s : RouterState Ev C V) : Prop where
  guards : Guards s.fires
  sentries : ∀ e, s.router.sentries e = s.fires.any fun f => f.event = e
  types : ∀ e, Orderly s.router s.tickets e
  nodup : s.tickets.Nodup

variable {r r' : Router Ev C} {tickets tickets' : List (Ev × Int64)}
  {s s' : RouterState Ev C V} {e : Ev} {id : Int64} {fire : Fire Ev V} {fires : List (Fire Ev V)}

/-! ### The types -/

omit [DecidableEq Ev] in
/-- A type that a step does not touch. -/
theorem Orderly.congr (h : Orderly r tickets e) (hlisteners : r'.listeners e = r.listeners e)
    (hpending : r'.pending e = r.pending e)
    (hsentries : r'.sentries e = false → r.sentries e = false)
    (hnext : ∀ k, k < r.nextId → k < r'.nextId)
    (htickets : ∀ id, (e, id) ∈ tickets' → (e, id) ∈ tickets) : Orderly r' tickets' e := by
  have hknown : r'.known e = r.known e := by rw [Router.known, hlisteners, hpending, Router.known]
  refine ⟨fun he => ?_, ?_, ?_, fun x hx => ?_, fun id hid => ?_⟩
  · rw [Router.UpToDate, hlisteners, hpending]
    exact h.idle (hsentries he)
  · rw [hpending]
    exact h.waiting
  · rw [hknown]
    exact h.ids
  · exact hnext _ (h.below x (hknown ▸ hx))
  · rw [hknown]
    exact h.tickets id (htickets id hid)

omit [DecidableEq Ev] in
theorem Orderly.ticket_lt (h : Orderly r tickets e) (hid : (e, id) ∈ tickets) : id < r.nextId := by
  obtain ⟨⟨k, c⟩, hk, rfl⟩ := List.mem_map.1 (h.tickets id hid)
  obtain ⟨x, hx, hxk⟩ := List.mem_map.1 hk
  obtain ⟨rfl, -⟩ := Prod.mk.inj hxk
  exact h.below x (List.mem_filter.1 hx).1

omit [DecidableEq Ev] in
theorem Orderly.nodup_ids (h : Orderly r tickets e) : ((r.listeners e).map Listener.id).Nodup := by
  have hids := h.ids
  rw [Router.known, List.map_append, List.pairwise_append] at hids
  exact hids.1.nodup

theorem Settled.new (n : Int64) : ({ router := { nextId := n } } : RouterState Ev C V).Settled where
  guards := trivial
  sentries _ := rfl
  types _ := ⟨fun _ => ⟨rfl, nofun⟩, nofun, .nil, nofun, nofun⟩
  nodup := .nil

omit [DecidableEq Ev] in
/-- A listener joins those of its type. -/
theorem Orderly.concat {x : Listener C} (h : Orderly r tickets e)
    (hknown : r'.known e = r.known e ++ [x]) (hid : x.id = r.nextId) (hvalid : x.valid = true)
    (hlt : ∀ k, k < r.nextId ∨ k = r.nextId → k < r'.nextId)
    (hidle : r'.sentries e = false → r'.pending e = [] ∧ ∀ y ∈ r'.listeners e, y.valid = true)
    (hwaiting : ∀ y ∈ r'.pending e, y.valid = true) :
    Orderly r' (tickets ++ [(e, r.nextId)]) e := by
  refine ⟨hidle, hwaiting, ?_, fun y hy => ?_, fun id hid' => ?_⟩
  · rw [hknown, List.map_append, List.pairwise_append]
    refine ⟨h.ids, List.pairwise_singleton _ _, fun k hk l hl => ?_⟩
    obtain ⟨y, hy, rfl⟩ := List.mem_map.1 hk
    obtain rfl : l = x.id := by simpa using hl
    rw [hid]
    exact h.below y hy
  · rw [hknown] at hy
    rcases List.mem_append.1 hy with hy | hy
    · exact hlt _ (.inl (h.below y hy))
    · obtain rfl := List.mem_singleton.1 hy
      exact hlt _ (.inr hid)
  · rw [hknown, valids_append, List.map_append]
    rcases List.mem_append.1 hid' with hid' | hid'
    · exact List.mem_append_left _ (h.tickets id hid')
    · obtain ⟨-, rfl⟩ := Prod.mk.inj (List.mem_singleton.1 hid')
      exact List.mem_append_right _ (by simp [valids, hvalid, Listener.entry, hid])

/-- A listener is registered. -/
theorem Settled.add (h : s.Settled) {callback : C} (hstep : s.step (.add e callback) = some s') :
    s'.Settled := by
  obtain ⟨⟨r, id⟩, hadd, rfl⟩ := Option.map_eq_some_iff.1 hstep
  obtain ⟨nextId, hnext, hr⟩ := Option.map_eq_some_iff.1 hadd
  have hlt (k : Int64) (hk : k < s.router.nextId ∨ k = s.router.nextId) : k < nextId :=
    lt_increment_of_le hnext hk
  have hnew : (s.tickets ++ [(e, s.router.nextId)]).Nodup := by
    rw [← List.concat_eq_append]
    refine List.Nodup.concat (fun hmem => ?_) h.nodup
    exact Int64.lt_irrefl ((h.types e).ticket_lt hmem)
  have hold {e' : Ev} (he : e' ≠ e) (id : Int64)
    (hid : (e', id) ∈ s.tickets ++ [(e, s.router.nextId)]) :
      (e', id) ∈ s.tickets := by
    simpa [he] using hid
  split_ifs at hr with hactive
  · obtain ⟨rfl, rfl⟩ := Prod.mk.inj hr
    refine ⟨h.guards, h.sentries, fun e' => ?_, hnew⟩
    by_cases he : e' = e
    · subst he
      refine (h.types e').concat (x := { callback, id := s.router.nextId }) ?_ rfl rfl hlt
        (fun hidle => ?_) ?_
      · simp [Router.known]
      · cases hactive.symm.trans hidle
      · simpa [or_imp, forall_and] using (h.types e').waiting
    · exact (h.types e').congr rfl (Function.update_of_ne he _ _) (fun he => he)
        (fun k hk => hlt k (.inl hk)) (hold he)
  · obtain ⟨rfl, rfl⟩ := Prod.mk.inj hr
    refine ⟨h.guards, h.sentries, fun e' => ?_, hnew⟩
    by_cases he : e' = e
    · subst he
      obtain ⟨hpending, hvalid⟩ := (h.types e').idle (Bool.eq_false_iff.2 hactive)
      refine (h.types e').concat (x := { callback, id := s.router.nextId }) ?_ rfl rfl hlt
        (fun _ => ⟨hpending, ?_⟩) (h.types e').waiting
      · simp [Router.known, hpending]
      · simpa [or_imp, forall_and] using hvalid
    · exact (h.types e').congr (Function.update_of_ne he _ _) rfl (fun he => he)
        (fun k hk => hlt k (.inl hk)) (hold he)

omit [DecidableEq Ev] in
/-- A listener leaves those of its type, or is disabled, and its ticket is gone. -/
theorem Orderly.remove (h : Orderly r tickets e) (hnext : r'.nextId = r.nextId)
    (hpending : r'.pending e = r.pending e) (hsentries : r'.sentries e = r.sentries e)
    (hids : List.Sublist ((r'.listeners e).map Listener.id) ((r.listeners e).map Listener.id))
    (hvalids : valids (r'.listeners e) = (valids (r.listeners e)).filter (·.1 ≠ id))
    (hidle : r.sentries e = false → ∀ x ∈ r'.listeners e, x.valid = true)
    (htickets : ∀ id', (e, id') ∈ tickets' → (e, id') ∈ tickets ∧ id' ≠ id) :
    Orderly r' tickets' e := by
  have hknown : List.Sublist ((r'.known e).map Listener.id) ((r.known e).map Listener.id) := by
    rw [Router.known, Router.known, List.map_append, List.map_append, hpending]
    exact hids.append_right _
  refine ⟨fun he => ?_, ?_, h.ids.sublist hknown, fun x hx => ?_, fun id' hid' => ?_⟩
  · rw [hsentries] at he
    exact ⟨hpending.trans (h.idle he).1, hidle he⟩
  · rw [hpending]
    exact h.waiting
  · obtain ⟨y, hy, hyx⟩ := List.mem_map.1 (hknown.subset (List.mem_map_of_mem hx))
    rw [hnext, ← hyx]
    exact h.below y hy
  · obtain ⟨hmem, hne⟩ := htickets id' hid'
    obtain ⟨entry, hentry, rfl⟩ := List.mem_map.1 (h.tickets id' hmem)
    rw [Router.known, valids_append] at hentry ⊢
    rw [hpending, hvalids]
    refine List.mem_map_of_mem (List.mem_append.2 ?_)
    exact (List.mem_append.1 hentry).imp_left fun hl => List.mem_filter.2 ⟨hl, decide_eq_true hne⟩

/-- A ticket is destroyed. -/
theorem Settled.destroy (h : s.Settled) (hstep : s.step (.destroy e id) = some s') :
    s'.Settled := by
  obtain ⟨hmem, hs'⟩ := Option.ite_none_right_eq_some.1 hstep
  have hnodup := h.nodup.erase (e, id)
  have hold (e' : Ev) (id' : Int64) (hid : (e', id') ∈ s.tickets.erase (e, id)) :
      (e', id') ∈ s.tickets :=
    List.mem_of_mem_erase hid
  cases hremove : s.router.removeListener e id with
  | none =>
    rw [hremove] at hs'
    obtain rfl := Option.some.inj hs'
    exact ⟨h.guards, h.sentries, fun e' => (h.types e').congr rfl rfl (fun he => he)
      (fun _ hk => hk) (hold e'), hnodup⟩
  | some r =>
    rw [hremove] at hs'
    obtain rfl := Option.some.inj hs'
    obtain ⟨found, hfound, rfl⟩ := Option.map_eq_some_iff.1 hremove
    obtain ⟨l₁, l₂, x, hl, rfl, rfl⟩ := exists_of_findIdx? hfound
    refine ⟨h.guards, h.sentries, fun e' => ?_, hnodup⟩
    by_cases he : e' = e
    · subst he
      have hids := (h.types e').nodup_ids
      rw [hl] at hids
      have hother (id' : Int64) (hid : (e', id') ∈ s.tickets.erase (e', x.id)) :
          (e', id') ∈ s.tickets ∧ id' ≠ x.id := by
        refine ⟨List.mem_of_mem_erase hid, ?_⟩
        rintro rfl
        exact h.nodup.not_mem_erase hid
      by_cases hactive : s.router.sentries e' = true
      · refine (h.types e').remove rfl rfl rfl ?_ ?_ (fun hidle => ?_) hother
        · simp only [Function.update_self, if_pos hactive, ids_disable]
          exact List.Sublist.refl _
        · have hvalids := valids_disable hids 0
          rw [List.drop_zero, List.drop_zero] at hvalids
          simp only [Function.update_self, if_pos hactive, hl]
          exact hvalids
        · cases hactive.symm.trans hidle
      · have herase : (s.router.listeners e').eraseIdx l₁.length = l₁ ++ l₂ := by
          rw [hl, List.eraseIdx_append_of_length_le le_rfl, Nat.sub_self, List.eraseIdx_cons_zero]
        refine (h.types e').remove rfl rfl rfl ?_ ?_ (fun hidle y hy => ?_) hother
        · simp only [Function.update_self, if_neg hactive, herase]
          rw [hl]
          exact ((List.sublist_cons_self x l₂).append_left l₁).map _
        · simp only [Function.update_self, if_neg hactive, herase]
          rw [hl]
          exact valids_erase hids
        · simp only [Function.update_self, if_neg hactive, herase] at hy
          refine ((h.types e').idle hidle).2 y ?_
          rw [hl]
          exact ((List.sublist_cons_self x l₂).append_left l₁).subset hy
    · exact (h.types e').congr (Function.update_of_ne he _ _) rfl (fun he => he) (fun _ hk => hk)
        (hold e')

omit [DecidableEq Ev] in
/-- The list of a type is brought up to date. -/
theorem Orderly.renew (h : Orderly r tickets e) (hnext : r'.nextId = r.nextId)
    (hlisteners : r'.listeners e = (r.listeners e).filter (·.valid) ++ r.pending e)
    (hpending : r'.pending e = []) : Orderly r' tickets e := by
  have hvalid : ∀ x ∈ r'.listeners e, x.valid = true := by
    rw [hlisteners]
    exact List.forall_mem_append.2 ⟨fun x hx => (List.mem_filter.1 hx).2, h.waiting⟩
  have hknown : List.Sublist (r'.known e) (r.known e) := by
    rw [Router.known, hlisteners, hpending, List.append_nil]
    exact List.filter_sublist.append_right _
  refine ⟨fun _ => ⟨hpending, hvalid⟩, by simp [hpending], h.ids.sublist (hknown.map _),
    fun x hx => hnext ▸ h.below x (hknown.subset hx), fun id hid => ?_⟩
  have hvalids : valids (r'.known e) = valids (r.known e) := by
    rw [Router.known, hlisteners, hpending, List.append_nil, Router.known, valids_append,
      valids_append]
    simp [valids]
  rw [hvalids]
  exact h.tickets id hid

/-- A fire goes on. -/
theorem Settled.goOn (h : { s with fires := fire :: s.fires }.Settled) : (s.goOn fire).Settled := by
  have hsentries := sentries_of_guards h.guards h.sentries
  rw [RouterState.goOn]
  split
  · exact ⟨h.guards, h.sentries, h.types, h.nodup⟩
  · refine ⟨h.guards.2, fun e => ?_, fun e => ?_, h.nodup⟩
    · rw [← hsentries e, Router.endFire]
      split_ifs <;> rfl
    · rw [Router.endFire]
      by_cases he : e = fire.event
      · subst he
        split_ifs with hprevious
        · refine (h.types _).congr rfl rfl (fun hidle => ?_) (fun _ hk => hk) fun _ hid => hid
          simp [hprevious] at hidle
        · exact (h.types _).renew rfl (by simp) (by simp)
      · split_ifs
        · refine (h.types e).congr rfl rfl (fun hidle => ?_) (fun _ hk => hk) fun _ hid => hid
          simpa [Function.update_of_ne he] using hidle
        · refine (h.types e).congr (by simp [he]) (by simp [he]) (fun hidle => ?_) (fun _ hk => hk)
            fun _ hid => hid
          simpa [Function.update_of_ne he] using hidle

/-- An exception leaves a fire. -/
theorem Settled.unwind (h : s.Settled) (hs : s.fires = fire :: fires)
    (hlists : (∀ f ∈ fires, f.event ≠ fire.event) → s.router.UpToDate fire.event) :
    ({ s with fires }.unwind fire).Settled := by
  have hguards := h.guards
  rw [hs] at hguards
  have hsentries := sentries_of_guards hguards fun e => hs ▸ h.sentries e
  refine ⟨hguards.2, fun e => hsentries e, fun e => ?_, h.nodup⟩
  by_cases he : e = fire.event
  · subst he
    have htype := h.types fire.event
    refine ⟨fun hidle => hlists fun f hf hfe => ?_, htype.waiting, htype.ids, htype.below,
      htype.tickets⟩
    have hprevious : fire.previous = false := by simpa [RouterState.unwind] using hidle
    have hany := hguards.1.symm.trans hprevious
    rw [List.any_eq_false] at hany
    exact hany f hf (decide_eq_true hfe)
  · refine (h.types e).congr rfl rfl (fun hidle => ?_) (fun _ hk => hk) fun _ hid => hid
    simpa [RouterState.unwind, Function.update_of_ne he] using hidle

theorem Settled.step (h : s.Settled) {a : Action Ev C V} (hstep : s.step a = some s') :
    s'.Settled := by
  cases a with
  | add e callback => exact h.add hstep
  | destroy e id => exact h.destroy hstep
  | fire e value =>
    obtain rfl := Option.some.inj hstep
    refine Settled.goOn ⟨⟨h.sentries e, h.guards⟩, fun e' => ?_, fun e' => ?_, h.nodup⟩
    · by_cases he : e' = e
      · subst he
        simp
      · simp [he, Ne.symm he, h.sentries e']
    · refine (h.types e').congr rfl rfl (fun hidle => ?_) (fun _ hk => hk) fun _ hid => hid
      by_cases he : e' = e
      · subst he
        simp at hidle
      · simpa [he] using hidle
  | ret =>
    cases hs : s.fires with
    | nil =>
      simp only [RouterState.step, hs] at hstep
      cases hstep
    | cons fire fires =>
      simp only [RouterState.step, hs] at hstep
      obtain rfl := Option.some.inj hstep
      exact Settled.goOn ⟨hs ▸ h.guards, fun e => hs ▸ h.sentries e, h.types, h.nodup⟩

/-! ### What a step changes -/

/-- A type that is being fired has its fires on the stack. -/
theorem Settled.active_iff (h : s.Settled) :
    s.router.sentries e = true ↔ ∃ f ∈ s.fires, f.event = e := by
  rw [h.sentries, List.any_eq_true]
  simp

/-- The loop leaves the lists of a type that is still being fired as they are. -/
theorem goOn_changes (s : RouterState Ev C V) (fire : Fire Ev V) :
    ∃ event, (s.goOn fire).log = s.log ++ [event] ∧ ∀ e, event.changes e = false ∧
      ((s.goOn fire).router.sentries e = true →
        ((s.goOn fire).router.UpToDate e ↔ s.router.UpToDate e) ∧
        (s.router.sentries e = true ∨ fire.event = e)) := by
  rw [RouterState.goOn]
  split
  · exact ⟨_, rfl, fun e => ⟨rfl, fun he => ⟨Iff.rfl, .inl he⟩⟩⟩
  · refine ⟨_, rfl, fun e => ⟨rfl, fun he => ?_⟩⟩
    rw [Router.endFire] at he ⊢
    by_cases hfire : e = fire.event
    · subst hfire
      cases hprevious : fire.previous with
      | false => simp [hprevious] at he
      | true => exact ⟨Iff.rfl, .inr rfl⟩
    · split_ifs at he ⊢
      · exact ⟨Iff.rfl, .inl (by simpa [Function.update_of_ne hfire] using he)⟩
      · refine ⟨?_, .inl (by simpa [Function.update_of_ne hfire] using he)⟩
        simp [Router.UpToDate, Function.update_of_ne hfire]

omit [DecidableEq Ev] in
/-- A ticket whose listener is not found belongs to one that waits. -/
theorem Orderly.waiting_of_not_found (h : Orderly r tickets e) (hid : (e, id) ∈ tickets)
    (hfound : ((r.listeners e).findIdx? fun x => x.id == id) = none) : r.pending e ≠ [] := by
  intro hpending
  have hmem := h.tickets id hid
  rw [Router.known, hpending, List.append_nil] at hmem
  obtain ⟨found, -, -, -, hsome, -⟩ := exists_found hmem
  cases hsome.symm.trans hfound

/-- **What a step does to the list of a type that is being fired** after it: the list is up to date
if it was and neither a listener of the type is added nor a ticket of it destroyed. -/
theorem Settled.changes (h : s.Settled) {a : Action Ev C V} (hstep : s.step a = some s') :
    ∃ events, s'.log = s.log ++ events ∧ ∀ e, s'.router.sentries e = true →
      (s'.router.UpToDate e ↔ s.router.UpToDate e ∧ ∀ event ∈ events, event.changes e = false) ∧
      (s.router.sentries e = true ∨ ∃ value, a = .fire e value) := by
  cases a with
  | add e' callback =>
    obtain ⟨⟨r, id⟩, hadd, rfl⟩ := Option.map_eq_some_iff.1 hstep
    obtain ⟨nextId, -, hr⟩ := Option.map_eq_some_iff.1 hadd
    refine ⟨_, rfl, fun e he => ?_⟩
    split_ifs at hr with hactive
    · obtain ⟨rfl, rfl⟩ := Prod.mk.inj hr
      refine ⟨?_, .inl he⟩
      by_cases hne : e = e'
      · subst hne
        simp [Router.UpToDate, Event.changes]
      · simp [Router.UpToDate, Event.changes, Function.update_of_ne hne, Ne.symm hne]
    · obtain ⟨rfl, rfl⟩ := Prod.mk.inj hr
      have hne : e ≠ e' := fun hne => hactive (hne ▸ he)
      refine ⟨?_, .inl he⟩
      simp [Router.UpToDate, Event.changes, Function.update_of_ne hne, Ne.symm hne]
  | destroy e' id =>
    obtain ⟨hmem, hs'⟩ := Option.ite_none_right_eq_some.1 hstep
    cases hremove : s.router.removeListener e' id with
    | none =>
      rw [hremove] at hs'
      obtain rfl := Option.some.inj hs'
      refine ⟨_, rfl, fun e he => ⟨?_, .inl he⟩⟩
      by_cases hne : e = e'
      · subst hne
        have hwaiting :=
          (h.types e).waiting_of_not_found hmem (Option.map_eq_none_iff.1 hremove)
        simp [Router.UpToDate, Event.changes, hwaiting]
      · simp [Router.UpToDate, Event.changes, Ne.symm hne]
    | some r =>
      rw [hremove] at hs'
      obtain rfl := Option.some.inj hs'
      obtain ⟨found, hfound, rfl⟩ := Option.map_eq_some_iff.1 hremove
      refine ⟨_, rfl, fun e he => ⟨?_, .inl he⟩⟩
      by_cases hne : e = e'
      · subst hne
        obtain ⟨l₁, l₂, x, hl, rfl, -⟩ := exists_of_findIdx? hfound
        have hactive : s.router.sentries e = true := he
        have hdisabled :
            { x with valid := false } ∈ disable (s.router.listeners e) l₁.length := by
          rw [hl, disable, modify_append_cons]
          simp
        refine ⟨fun hlists => ?_, fun hlists => ?_⟩
        · have hvalid := hlists.2 { x with valid := false } (by simpa [hactive] using hdisabled)
          cases hvalid
        · simpa [Event.changes] using hlists.2 _ (List.mem_singleton_self _)
      · simp [Router.UpToDate, Event.changes, Function.update_of_ne hne, Ne.symm hne]
  | fire e' value =>
    obtain rfl := Option.some.inj hstep
    obtain ⟨event, hlog, hevent⟩ := goOn_changes
      { s with
        router := { s.router with sentries := Function.update s.router.sentries e' true }
        log := s.log ++ [.fired e' value] }
      { event := e', value, previous := s.router.sentries e', next := 0
        stop := (s.router.listeners e').length }
    refine ⟨[.fired e' value, event], hlog.trans (List.append_assoc ..), fun e he => ?_⟩
    obtain ⟨hlists, hactive⟩ := (hevent e).2 he
    have hevents : ∀ event' ∈ [Event.fired e' value, event], event'.changes e = false :=
      List.forall_mem_cons.2 ⟨rfl, List.forall_mem_singleton.2 (hevent e).1⟩
    refine ⟨hlists.trans ⟨fun hlists => ⟨hlists, hevents⟩, And.left⟩, ?_⟩
    by_cases hne : e = e'
    · exact .inr ⟨value, hne ▸ rfl⟩
    · refine .inl (hactive.elim (fun hactive => ?_) fun hactive => absurd hactive.symm hne)
      simpa [Function.update_of_ne hne] using hactive
  | ret =>
    cases hs : s.fires with
    | nil =>
      simp only [RouterState.step, hs] at hstep
      cases hstep
    | cons fire fires =>
      simp only [RouterState.step, hs] at hstep
      obtain rfl := Option.some.inj hstep
      obtain ⟨event, hlog, hevent⟩ := goOn_changes { s with fires } fire
      refine ⟨[event], hlog, fun e he => ?_⟩
      obtain ⟨hlists, hactive⟩ := (hevent e).2 he
      refine ⟨hlists.trans (by simp [(hevent e).1]), .inl (hactive.elim id fun hactive => ?_)⟩
      rw [h.active_iff, hs]
      exact ⟨fire, List.mem_cons_self .., hactive⟩

/-! ### What a fire does -/

/-- The loop of a fire whose callbacks return at once. -/
theorem run_ret (s : RouterState Ev C V) (e : Ev) (value : V) (previous : Bool)
    (hvalid : ∀ x ∈ s.router.listeners e, x.valid = true) {n i : ℕ}
    (hn : n + i = (s.router.listeners e).length) :
    ∃ s', run RouterState.step (s.goOn ⟨e, value, previous, i, (s.router.listeners e).length⟩)
        (List.replicate n .ret) = some s' ∧
      s'.log = s.log ++ ((s.router.listeners e).drop i).map
        (fun x => .invoked e x.id x.callback value) ++ [.ended e] := by
  induction n generalizing s i with
  | zero =>
    have hnone : nextValid (((s.router.listeners e).take (s.router.listeners e).length).drop i) i =
        none := by
      rw [List.take_length, List.drop_eq_nil_of_le (by omega)]
      rfl
    refine ⟨_, rfl, ?_⟩
    rw [RouterState.goOn, hnone, List.drop_eq_nil_of_le (by omega)]
    simp
  | succ n ih =>
    have hlt : i < (s.router.listeners e).length := by omega
    have hget := List.drop_eq_getElem_cons hlt
    have hsome : nextValid (((s.router.listeners e).take (s.router.listeners e).length).drop i) i =
        some (i, (s.router.listeners e)[i]) := by
      rw [List.take_length, hget, nextValid, if_pos (hvalid _ (List.getElem_mem hlt))]
    obtain ⟨s', hrun, hlog⟩ := ih { s with
      log :=
        s.log ++ [.invoked e (s.router.listeners e)[i].id
          (s.router.listeners e)[i].callback value] }
      hvalid (i := i + 1) (by simp only; omega)
    refine ⟨s', ?_, ?_⟩
    · rw [RouterState.goOn, hsome, List.replicate_succ, run]
      exact hrun
    · rw [hlog, hget, List.map_cons, ← List.append_cons]

end RouterState

namespace ThrowState

open RouterState

variable {s s' : ThrowState Ev C V} {e : Ev} {fire : Fire Ev V} {fires : List (Fire Ev V)}

/-- What holds between two steps: a list whose type is being fired is up to date as long as nothing
has changed since the outermost fire began. -/
structure Tracked (s : ThrowState Ev C V) : Prop where
  settled : s.Settled
  began : ∀ e, s.began e ≤ s.log.length
  changes : ∀ e, s.router.sentries e = true →
    (s.router.UpToDate e ↔ ∀ event ∈ s.since e, event.changes e = false)

theorem Tracked.new (n : Int64) : ({ router := { nextId := n } } : ThrowState Ev C V).Tracked where
  settled := .new n
  began _ := Nat.zero_le _
  changes _ he := Bool.noConfusion he

/-- The list of the type whose outermost fire an exception leaves. -/
theorem Tracked.upToDate_iff (h : s.Tracked) (hs : s.fires = fire :: fires) :
    s.router.UpToDate fire.event ↔
      ∀ event ∈ s.since fire.event, event.changes fire.event = false := by
  refine h.changes _ (h.settled.active_iff.2 ?_)
  rw [hs]
  exact ⟨fire, List.mem_cons_self .., rfl⟩

/-- A step of user code that does not throw. -/
theorem Tracked.act (h : s.Tracked) {a : Action Ev C V} (hstep : s.step (.act a) = some s') :
    s'.Tracked := by
  obtain ⟨t, ht, rfl⟩ := Option.map_eq_some_iff.1 hstep
  obtain ⟨events, hlog, hchanges⟩ := h.settled.changes ht
  -- The outermost fire of a type either begins with this step or has begun before.
  have hbegan (e : Ev) : s.beganAfter a e = s.log.length ∧ s.router.sentries e = false ∨
      s.beganAfter a e = s.began e ∧ ((∃ value, a = .fire e value) →
      s.router.sentries e = true) := by
    cases a with
    | fire e' value =>
      rw [beganAfter]
      split_ifs with hactive
      · refine .inr ⟨rfl, fun ⟨_, ha⟩ => h.settled.active_iff.2 ?_⟩
        cases ha
        exact hactive
      · by_cases he : e = e'
        · subst he
          refine .inl ⟨Function.update_self .., Bool.eq_false_iff.2 fun hsentry => ?_⟩
          exact hactive (h.settled.active_iff.1 hsentry)
        · refine .inr ⟨Function.update_of_ne he .., fun ⟨_, ha⟩ => ?_⟩
          cases ha
          exact absurd rfl he
    | _ => exact .inr ⟨rfl, fun ⟨_, ha⟩ => by cases ha⟩
  refine ⟨h.settled.step ht, fun e => ?_, fun e he => ?_⟩
  · have hle : s.log.length ≤ t.log.length := by
      rw [hlog, List.length_append]
      exact Nat.le_add_right ..
    rcases hbegan e with ⟨hb, -⟩ | ⟨hb, -⟩
    · exact hb.le.trans hle
    · exact hb.le.trans ((h.began e).trans hle)
  · obtain ⟨hlists, hactive⟩ := hchanges e he
    refine hlists.trans ?_
    change _ ↔ ∀ event ∈ t.log.drop (s.beganAfter a e), _
    rw [hlog]
    rcases hbegan e with ⟨hb, hidle⟩ | ⟨hb, hfire⟩
    · rw [hb, List.drop_left, and_iff_right ((h.settled.types e).idle hidle)]
    · rw [hb, List.drop_append_of_le_length (h.began e), List.forall_mem_append,
        h.changes e (hactive.elim id hfire), since]

/-- An exception leaves a fire. -/
theorem Tracked.throw (h : s.Tracked) (ha : s.Harmless .throw) (hstep : s.step .throw = some s') :
    s'.Tracked := by
  cases hs : s.fires with
  | nil =>
    rw [ThrowState.step, hs] at hstep
    cases hstep
  | cons fire fires =>
    rw [ThrowState.step, hs] at hstep
    obtain rfl := Option.some.inj hstep
    have hlists (hfires : ∀ f ∈ fires, f.event ≠ fire.event) : s.router.UpToDate fire.event := by
      refine (h.upToDate_iff hs).2 (ha fire ?_ ?_)
      · rw [hs]
        rfl
      · rw [hs]
        exact hfires
    have hsettled := h.settled.unwind hs hlists
    refine ⟨hsettled, h.began, fun e he => h.changes e ?_⟩
    rw [h.settled.active_iff, hs]
    exact (hsettled.active_iff.1 he).imp fun f hf => hf.imp_left (List.mem_cons_of_mem fire)

theorem Tracked.step (h : s.Tracked) {a : ThrowAction Ev C V} (ha : s.Harmless a)
    (hstep : s.step a = some s') : s'.Tracked := by
  cases a with
  | throw => exact h.throw ha hstep
  | act a => exact h.act hstep

/-- An exception that is not harmless. -/
theorem Tracked.not_upToDate (h : s.Tracked) (ha : ¬s.Harmless .throw)
    (hstep : s.step .throw = some s') :
    ∃ e, (∀ f ∈ s'.fires, f.event ≠ e) ∧ ¬s'.router.UpToDate e := by
  simp only [Harmless, not_forall] at ha
  obtain ⟨fire, hfire, hfires, event, hevent, hchanges⟩ := ha
  obtain ⟨fires, hs⟩ := List.head?_eq_some_iff.1 hfire
  rw [hs] at hfires
  rw [ThrowState.step, hs] at hstep
  obtain rfl := Option.some.inj hstep
  exact ⟨fire.event, hfires, fun hlists => hchanges ((h.upToDate_iff hs).1 hlists event hevent)⟩

/-- **A listener that throws does not leave the router half-updated** in a run in which, when an
exception leaves the outermost fire of a type, no listener of the type was added and no ticket of it
destroyed since that fire began. In every state of such a run, of a type that is not being fired:
the sentry is inactive, no listener waits and all of them are valid; the listeners are in the order
of their registrations, and each ticket finds its listener; and an event whose callbacks return is
received by all of them, in this order. An exception that does not meet the condition leaves a type
that is not being fired in another state. -/
theorem settled_between_fires {n : Int64}
    (h : Reach ThrowState.step Harmless { router := { nextId := n } } s) :
    (∀ e, (∀ f ∈ s.fires, f.event ≠ e) →
      s.router.sentries e = false ∧ s.router.pending e = [] ∧
      (∀ x ∈ s.router.listeners e, x.valid = true) ∧
      ((s.router.listeners e).map Listener.id).Pairwise (· < ·) ∧
      (∀ id, (e, id) ∈ s.tickets → id ∈ (s.router.listeners e).map Listener.id ∧
        s.router.removeListener e id ≠ none) ∧
      ∀ value, ∃ s', run RouterState.step s.toRouterState (.fire e value ::
          List.replicate (s.router.listeners e).length .ret) = some s' ∧
        s'.log = s.log ++ .fired e value :: (s.router.listeners e).map
          (fun x => .invoked e x.id x.callback value) ++ [.ended e]) ∧
    ∀ s', ¬s.Harmless .throw → s.step .throw = some s' → ∃ e, (∀ f ∈ s'.fires, f.event ≠ e) ∧
      ¬ (s'.router.pending e = [] ∧ ∀ x ∈ s'.router.listeners e, x.valid = true) := by
  have htracked : s.Tracked :=
    h.invariant (.new n) fun _ _ _ ha hok hstep => ha.step hok hstep
  have hs := htracked.settled
  refine ⟨fun e he => ?_, fun s' ha hstep => htracked.not_upToDate ha hstep⟩
  have hsentry : s.router.sentries e = false := by
    rw [Bool.eq_false_iff, Ne, hs.active_iff]
    exact fun ⟨f, hf, hfe⟩ => he f hf hfe
  have htype := hs.types e
  obtain ⟨hpending, hvalid⟩ := htype.idle hsentry
  have hknown : s.router.known e = s.router.listeners e := by
    rw [Router.known, hpending, List.append_nil]
  refine ⟨hsentry, hpending, hvalid, hknown ▸ htype.ids, fun id hid => ?_, fun value => ?_⟩
  · have hmem := htype.tickets id hid
    rw [hknown] at hmem
    obtain ⟨found, l₁, l₂, x, hfound, hl, -, rfl⟩ := exists_found hmem
    refine ⟨?_, ?_⟩
    · rw [hl]
      simp
    · rw [Router.removeListener, hfound]
      simp
  · obtain ⟨s', hrun, hlog⟩ := run_ret { s.toRouterState with
      router := { s.router with sentries := Function.update s.router.sentries e true }
      log :=
        s.log ++ [.fired e value] } e value (s.router.sentries e) hvalid (i := 0) (Nat.add_zero _)
    refine ⟨s', hrun, ?_⟩
    rw [hlog, List.drop_zero]
    simp

/-- An inner fire of the type in which a listener was added, and a fire of another one, are left by
exceptions that are caught. -/
theorem settled_between_fires_nested : ∃ s : ThrowState Bool ℕ ℕ,
    Reach ThrowState.step Harmless { router := { nextId := 5 } } s ∧
    s.log = [.registered true 5, .registered false 6, .fired true 1, .invoked true 5 50 1,
      .fired true 2, .invoked true 5 50 2, .fired false 3, .invoked false 6 60 3,
      .registered true 7, .ended true] ∧ s.router.pending true = [] := by
  have hrun : (runWhile (fun s a => decide (s.Harmless a)) ThrowState.step
      ({ router := { nextId := 5 } } : ThrowState Bool ℕ ℕ) [.act (.add true 50),
      .act (.add false 60), .act (.fire true 1), .act (.fire true 2), .act (.fire false 3), .throw,
      .act (.add true 70), .throw, .act .ret]).map (fun s => (s.fires.length, s.log)) =
      some (0, [.registered true 5, .registered false 6, .fired true 1, .invoked true 5 50 1,
        .fired true 2, .invoked true 5 50 2, .fired false 3, .invoked false 6 60 3,
        .registered true 7, .ended true]) := by decide
  obtain ⟨s, hreach, hseen⟩ := exists_reach_of_runWhile (fun _ _ => of_decide_eq_true) hrun
  obtain ⟨hfires, hlog⟩ := Prod.mk.inj hseen
  have hidle : ∀ f ∈ s.fires, f.event ≠ true := by simp [List.length_eq_zero_iff.1 hfires]
  exact ⟨s, hreach, hlog, ((settled_between_fires hreach).1 true hidle).2.1⟩

/-- **A listener that throws leaves the one that it added waiting**: no fire is in progress, the
next event is not received by it before the end of the fire, and its ticket does not find it. -/
theorem waiting_after_throw :
    (run ThrowState.step ({ router := { nextId := 0 } } : ThrowState Unit ℕ ℕ)
    [.act (.add () 10), .act (.fire () 7), .act (.add () 20), .throw]).map
      (fun s => (s.fires.length, (s.router.pending ()).map Listener.id)) = some (0, [1]) ∧
    (run ThrowState.step ({ router := { nextId := 0 } } : ThrowState Unit ℕ ℕ)
      [.act (.add () 10), .act (.fire () 7), .act (.add () 20), .throw, .act (.fire () 8),
       .act .ret]).map
      (fun s => s.log) = some [.registered () 0, .fired () 7, .invoked () 0 10 7, .registered () 1,
        .fired () 8, .invoked () 0 10 8, .ended ()] ∧
    (run ThrowState.step ({ router := { nextId := 0 } } : ThrowState Unit ℕ ℕ)
      [.act (.add () 10), .act (.fire () 7), .act (.add () 20), .throw, .act (.destroy () 1)]).map
      (fun s => s.log) = some [.registered () 0, .fired () 7, .invoked () 0 10 7, .registered () 1,
        .missing () 1, .destroyed () 1] := by
  refine ⟨?_, ?_, ?_⟩ <;> decide

end ThrowState

end Arcana.Messaging
