import Arcana.Tracing.TraceRegion

/-!
# The registration of the trace provider

`enable` registers the provider and makes a handle, which is shared by the regions that become
active until `disable`, and the last one that is let go of unregisters the provider. The use counts
agree with the handles in every run (`Held`). There is one provider, but each period in which
tracing is enabled has a registration of its own: when a region of an earlier period is still active
while tracing is enabled again, the first of the two registrations that ends unregisters the
provider under the other one (`exists_unregistered`). When no registration ends while there is a
handle to another one (`ReleasesAlone`), the provider is registered exactly while there is a handle
(`Kept`), so every event is written while it is registered. A program that enables tracing again
only when there is no handle left meets this condition (`releasesAlone_of_waits`).

* `TraceState.handles` are the handles that are held, and `TraceState.ReleasesAlone` is the
  condition on a step.
* `TraceState.Held` and `TraceState.Kept` are the invariants, the second one of the runs that meet
  the condition.
* `TraceState.step_handles` and `TraceState.unregistered_step` say what a step does to the handles,
  and when it unregisters the provider.
* `TraceState.written_while_registered` is the result about runs.
-/

namespace Arcana.Tracing

open Foundations

namespace TraceState

/-- The handles that are held, by `s_registration` and by the regions. -/
def handles (s : TraceState) : List ℕ :=
  s.registration.toList ++ s.regions.filterMap fun object => object.bind TraceRegion.registration

/-- The operation does not let go of the last handle of a registration while there is one to
another. -/
def ReleasesAlone (s : TraceState) (action : TraceAction) : Prop :=
  ∀ handle ∈ s.released action, s.handles.count handle = 1 → ∀ other ∈ s.handles, other = handle

instance (s : TraceState) (action : TraceAction) : Decidable (s.ReleasesAlone action) :=
  inferInstanceAs (Decidable (∀ handle ∈ s.released action, _ → _))

/-- What holds between the operations, in every run. -/
structure Held (s : TraceState) : Prop where
  counted : Counted s.useCounts s.handles
  enabled : s.enabled = s.registration.isSome
  active : ∀ r ∈ s.active, r.registration ≠ none

variable {s s' t : TraceState} {action : TraceAction} {r : TraceRegion} {handle : Option ℕ}
  {x : ℕ}

/-! ## Handles -/

/-- The regions that hold a handle are the active ones. -/
theorem handles_eq :
    s.handles = s.registration.toList ++ s.active.filterMap TraceRegion.registration := by
  rw [handles, active, activeRegions, List.filterMap_filterMap]
  congr 2
  funext object
  cases object with
  | none => rfl
  | some r =>
    by_cases hr : r.cookie = 0#32
    · rw [asActive_of_eq hr]
      exact r.inactive hr
    · rw [asActive_of_ne hr]

/-- An active region that is closed has its handle. -/
theorem handles_of_perm (hregistration : t.registration = s.registration)
    (hactive : s.active.Perm (r :: t.active)) :
    s.handles.Perm (r.registration.toList ++ t.handles) := by
  have hcons : (r :: t.active).filterMap TraceRegion.registration =
      r.registration.toList ++ t.active.filterMap TraceRegion.registration := by
    rw [List.filterMap_cons]
    cases r.registration with
    | none => rfl
    | some handle => rfl
  rw [handles_eq, handles_eq, hregistration]
  refine ((hactive.filterMap _).append_left _).trans ?_
  rw [hcons, ← List.append_assoc, ← List.append_assoc]
  exact List.perm_append_comm.append_right _

theorem handles_congr (hregistration : s'.registration = s.registration)
    (hactive : s'.active.Perm s.active) :
    s'.handles.Perm s.handles := by
  rw [handles_eq, handles_eq, hregistration]
  exact (hactive.filterMap _).append_left _

/-- **The provider stays registered when the handle was not the last one.** -/
theorem registered_release_iff (h : Counted t.useCounts (handle.toList ++ t.handles)) :
    (t.release handle).registered = true ↔ t.registered = true ∧ ∀ x ∈ handle, x ∈ t.handles := by
  have hlast := h.release.2
  change (t.registered && !(releaseShared t.useCounts handle).2) = true ↔ _
  rw [Bool.and_eq_true, Bool.not_eq_true', ← Bool.not_eq_true, hlast]
  simp

namespace Held

theorem initial : ({} : TraceState).Held where
  counted := .nil
  enabled := rfl
  active := nofun

theorem registration_of_enabled (h : s.Held) (on : s.enabled = true) :
    ∃ x, s.registration = some x :=
  Option.isSome_iff_exists.1 (h.enabled ▸ on)

theorem registration_of_not_enabled (h : s.Held) (off : s.enabled = false) :
    s.registration = none :=
  Option.not_isSome_iff_eq_none.1 (by simp [← h.enabled, off])

theorem release (hcounted : Counted t.useCounts (handle.toList ++ t.handles))
    (henabled : t.enabled = t.registration.isSome)
    (hactive : ∀ r ∈ t.active, r.registration ≠ none) :
    (t.release handle).Held where
  counted := hcounted.release.1
  enabled := henabled
  active := hactive

/-- A handle is made while tracing is off. -/
theorem handles_enabled (h : s.Held) (off : s.enabled = false)
    (hregistration : t.registration = some x)
    (hregions : t.regions = s.regions) : t.handles = x :: s.handles := by
  rw [handles, handles, h.registration_of_not_enabled off, hregistration, hregions]
  rfl

/-- A region that is opened has a copy of the handle. -/
theorem handles_opened (cookie : r.cookie ≠ 0#32) (hhandle : r.registration = s.registration)
    (hregistration : t.registration = s.registration)
    (hregions : t.regions = s.regions ++ [some r]) :
    t.handles.Perm (s.registration.toList ++ s.handles) := by
  rw [← hhandle]
  apply handles_of_perm hregistration.symm
  rw [TraceState.active, hregions, activeRegions_concat, asActive_of_ne cookie]
  exact List.perm_append_comm

theorem step (h : s.Held) (hstep : s.step action = some s') : s'.Held := by
  cases step_effect hstep with
  | quiet _ hactive _ =>
    refine { counted := ?_, enabled := h.enabled,
             active := fun r hr => h.active r (hactive.subset hr) }
    exact h.counted.of_perm (.symm (handles_congr rfl hactive))
  | enabled off =>
    rw [h.registration_of_not_enabled off, release_none]
    refine { counted := ?_, enabled := rfl, active := h.active }
    exact h.counted.make.of_perm (.of_eq (.symm (handles_enabled h off rfl rfl)))
  | disabled on => exact release h.counted rfl h.active
  | @opened _ _ _ r on cookie hhandle _ =>
    obtain ⟨x, hx⟩ := h.registration_of_enabled on
    have hmem : ∀ object ∈ s.registration, object ∈ s.handles := fun object hobject => by
      simp [handles, Option.mem_def.1 hobject]
    refine { counted := ?_, enabled := h.enabled, active := fun y hy => ?_ }
    · exact (h.counted.copy hmem).of_perm (.symm (handles_opened cookie hhandle rfl rfl))
    · obtain ⟨hy, hcookie⟩ := mem_activeRegions.1 hy
      rcases List.mem_append.1 hy with hy | hy
      · exact h.active y (mem_activeRegions.2 ⟨hy, hcookie⟩)
      · obtain rfl : y = r := by simpa using hy
        simp [hhandle, hx]
  | closed _ cookie hactive _ =>
    refine release ?_ h.enabled fun r hr => h.active r (hactive.symm.subset (.tail _ hr))
    exact h.counted.of_perm (handles_of_perm rfl hactive)

end Held

/-! ## What becomes of the registration -/

/-- **An operation makes a handle to a new registration, copies one, or lets go of at most one.** -/
theorem step_handles (h : s.Held) (hstep : s.step action = some s') :
    (∃ x level, action = .enable level ∧ s.enabled = false ∧ s'.handles = x :: s.handles ∧
    s'.registered = true) ∨
    (∃ x ∈ s.handles, s.released action = none ∧ s'.handles.Perm (x :: s.handles) ∧
      s'.registered = s.registered) ∨
    ∃ t : TraceState, s' = t.release (s.released action) ∧ t.registered = s.registered ∧
      t.useCounts = s.useCounts ∧ s.handles.Perm ((s.released action).toList ++ t.handles) := by
  cases step_effect hstep with
  | quiet hreleased hactive _ =>
    rw [hreleased]
    refine .inr (.inr ⟨_, release_none.symm, rfl, rfl, ?_⟩)
    exact .symm (handles_congr rfl hactive)
  | @enabled level _ off =>
    rw [h.registration_of_not_enabled off, release_none]
    refine .inl ⟨(makeShared s.useCounts).2, level, rfl, off, ?_, rfl⟩
    exact h.handles_enabled off rfl rfl
  | disabled on =>
    have hreleased : s.released .disable = s.registration := if_pos on
    rw [hreleased]
    exact .inr (.inr ⟨_, rfl, rfl, rfl, .refl _⟩)
  | opened on cookie hhandle _ =>
    obtain ⟨x, hx⟩ := h.registration_of_enabled on
    refine .inr (.inl ⟨x, by simp [handles, hx], rfl, ?_, rfl⟩)
    have hpointer : x :: s.handles = s.registration.toList ++ s.handles := by
      rw [hx]
      rfl
    rw [hpointer]
    exact Held.handles_opened cookie hhandle rfl rfl
  | closed hreleased _ hactive _ =>
    rw [hreleased]
    refine .inr (.inr ⟨_, rfl, rfl, rfl, ?_⟩)
    exact handles_of_perm rfl hactive

/-- The provider after a release, when no other registration has a handle. -/
theorem registered_release (hcounted : Counted t.useCounts (handle.toList ++ t.handles))
    (hperm : s.handles.Perm (handle.toList ++ t.handles)) (h : t.registered = true ↔ s.handles ≠ [])
    (halone : ∀ x ∈ handle, s.handles.count x = 1 → ∀ y ∈ s.handles, y = x) :
    (t.release handle).registered = true ↔ t.handles ≠ [] := by
  cases handle with
  | none =>
    have hnil : s.handles = [] ↔ t.handles = [] :=
      ⟨fun hs => List.nil_perm.1 (hs ▸ hperm), fun ht => by
      rw [ht] at hperm
      exact List.perm_nil.1 hperm⟩
    rw [release_none, h, Ne, hnil]
  | some x =>
    have hne : s.handles ≠ [] := List.ne_nil_of_mem (hperm.symm.subset (.head _))
    rw [registered_release_iff hcounted]
    constructor
    · rintro ⟨-, hx⟩
      exact List.ne_nil_of_mem (hx x rfl)
    · intro hrest
      refine ⟨h.2 hne, fun y hy => ?_⟩
      obtain rfl := Option.some.inj hy
      by_contra hlast
      -- it was the last one, so the others are not to another registration
      have hcount : s.handles.count x = 1 := by
        rw [hperm.count_eq]
        simp [List.count_eq_zero_of_not_mem hlast]
      obtain ⟨y, hy⟩ := List.exists_mem_of_ne_nil _ hrest
      have hsame := halone x rfl hcount y (hperm.symm.subset (.tail _ hy))
      exact hlast (hsame ▸ hy)

/-- **A registration that ends while there is a handle to another one unregisters the provider.** -/
theorem unregistered_step (h : s.Held) (hstep : s.step action = some s')
    (hnot : ¬ s.ReleasesAlone action) :
    s'.registered = false ∧ s'.handles ≠ [] := by
  rw [ReleasesAlone] at hnot
  push Not at hnot
  obtain ⟨x, hreleased, hcount, y, hy, hne⟩ := hnot
  rw [Option.mem_def] at hreleased
  rcases step_handles h hstep with ⟨_, _, rfl, _⟩ | ⟨_, _, hnone, _⟩ | ⟨t, rfl, -, hcounts, hperm⟩
  · cases hreleased
  · cases hreleased.symm.trans hnone
  · rw [hreleased] at hperm ⊢
    have hcounted : Counted t.useCounts (x :: t.handles) := hcounts ▸ h.counted.of_perm hperm
    have hlast : x ∉ t.handles := by
      rw [hperm.count_eq] at hcount
      simpa [List.count_eq_zero] using hcount
    constructor
    · rw [← Bool.not_eq_true, registered_release_iff hcounted]
      exact fun hkept => hlast (hkept.2 x rfl)
    · exact List.ne_nil_of_mem ((List.mem_cons.1 (hperm.subset hy)).resolve_left hne)

/-- A construction leaves tracing and the provider as they are. -/
theorem construct_same (name : List UInt8) :
    (s.construct name).enabled = s.enabled ∧ (s.construct name).registered = s.registered := by
  by_cases hcookie : (s.newRegion name).cookie = 0#32
  · rw [construct, if_pos hcookie]
    exact ⟨rfl, rfl⟩
  · rw [construct, if_neg hcookie]
    exact ⟨rfl, rfl⟩

/-- A region that is opened writes its START. -/
theorem event_mem_construct (name : List UInt8) (on : s.enabled = true)
    (cookie : s.nextCookie ≠ 0#32) :
    ∃ e ∈ (s.construct name).log, e.registered = s.registered := by
  have hcookie : (s.newRegion name).cookie ≠ 0#32 := by simpa [newRegion, on] using cookie
  refine ⟨(s.newRegion name).event .start s.registered, ?_, rfl⟩
  rw [construct, if_neg hcookie]
  exact List.mem_append_right _ (List.mem_singleton_self _)

/-- **As long as there is a handle an event can be written**, and when the provider is not
registered that is one too many. -/
theorem exists_unregistered (h : s.Held) (hregistered : s.registered = false)
    (hne : s.handles ≠ []) :
    ∃ actions s', run step s actions = some s' ∧ ∃ e ∈ s'.log, e.registered = false := by
  obtain ⟨x, hx⟩ := List.exists_mem_of_ne_nil _ hne
  rcases List.mem_append.1 hx with hx | hx
  · -- tracing is on, and the next region is opened
    have on : s.enabled = true := by
      rw [h.enabled]
      exact Option.isSome_iff_exists.2 ⟨x, Option.mem_toList.1 hx⟩
    by_cases hcookie : s.nextCookie = 0#32
    · -- no region gets the cookie 0, so it is the one after that
      have hnext : (s.construct []).nextCookie ≠ 0#32 := by
        simp [construct, newRegion, on, hcookie]
      obtain ⟨henabled, hsame⟩ := construct_same (s := s) []
      obtain ⟨e, he, hwritten⟩ := event_mem_construct [] (henabled.trans on) hnext
      exact ⟨[.construct [], .construct []], _, rfl, e, he,
        hwritten.trans (hsame.trans hregistered)⟩
    · obtain ⟨e, he, hwritten⟩ := event_mem_construct [] on hcookie
      exact ⟨[.construct []], _, rfl, e, he, hwritten.trans hregistered⟩
  · -- an active region is destroyed
    obtain ⟨object, hobject, hhandle⟩ := List.mem_filterMap.1 hx
    obtain ⟨r, rfl, hhandle⟩ := Option.bind_eq_some_iff.1 hhandle
    obtain ⟨i, hi⟩ := List.mem_iff_getElem?.1 hobject
    have hcookie : r.cookie ≠ 0#32 := fun hzero => by
      cases (r.inactive hzero).symm.trans hhandle
    have hstep : s.step (.destroy i) =
        some ({ s.write r .stop r.endLine with regions := s.regions.set i none }.release
          r.registration) := by
      rw [step, hi]
      simp only [writeStop, if_neg hcookie]
    refine ⟨[.destroy i], _, (congrArg (Option.bind · _) hstep).trans rfl,
      r.event .stop s.registered, ?_, hregistered⟩
    exact List.mem_append_right _ (List.mem_singleton_self _)

/-! ## When it is registered -/

/-- What holds besides when registrations end alone: the provider is registered exactly while there
is a handle, and it was when the events were written. -/
structure Kept (s : TraceState) : Prop extends s.Held where
  registered : s.registered = true ↔ s.handles ≠ []
  log : ∀ e ∈ s.log, e.registered = true

namespace Kept

theorem initial : ({} : TraceState).Kept where
  toHeld := .initial
  registered := by decide
  log := nofun

theorem registered_of_mem (h : s.Kept) (hx : x ∈ s.handles) : s.registered = true :=
  h.registered.2 (List.ne_nil_of_mem hx)

/-- The event of an active region comes to a provider that is registered. -/
theorem registered_of_active (h : s.Kept) (hr : r ∈ s.active) : s.registered = true := by
  obtain ⟨x, hx⟩ := Option.ne_none_iff_exists'.1 (h.active r hr)
  apply h.registered_of_mem (x := x)
  rw [handles_eq]
  exact List.mem_append_right _ (List.mem_filterMap.2 ⟨r, hr, hx⟩)

theorem registered_of_enabled (h : s.Kept) (on : s.enabled = true) : s.registered = true := by
  obtain ⟨x, hx⟩ := h.registration_of_enabled on
  exact h.registered_of_mem (x := x) (by simp [handles, hx])

theorem log_step (h : s.Kept) (hstep : s.step action = some s') :
    ∀ e ∈ s'.log, e.registered = true := by
  have hconcat {l : List TraceEvent} {e : TraceEvent} (hl : l = s.log ++ [e])
    (he : e.registered = true) :
      ∀ e ∈ l, e.registered = true := by
    rw [hl]
    exact List.forall_mem_append.2 ⟨h.log, List.forall_mem_singleton.2 he⟩
  cases step_effect hstep with
  | quiet => exact h.log
  | enabled => exact h.log
  | disabled => exact h.log
  | opened on _ _ _ => exact hconcat rfl (h.registered_of_enabled on)
  | closed _ _ hactive _ =>
    exact hconcat rfl (h.registered_of_active (hactive.symm.subset (.head _)))

theorem step (h : s.Kept) (halone : s.ReleasesAlone action) (hstep : s.step action = some s') :
    s'.Kept where
  toHeld := h.toHeld.step hstep
  log := h.log_step hstep
  registered := by
    rcases step_handles h.toHeld hstep with
      ⟨x, _, _, _, hhandles, hregistered⟩ | ⟨x, hx, _, hperm, hsame⟩
        | ⟨t, rfl, hsame, hcounts, hperm⟩
    · exact iff_of_true hregistered (hhandles ▸ List.cons_ne_nil _ _)
    · have hx' : x ∈ s'.handles := hperm.symm.subset (.head _)
      exact iff_of_true (hsame.trans (h.registered_of_mem hx)) (List.ne_nil_of_mem hx')
    · have hcounted := h.counted.of_perm hperm
      exact registered_release (hcounts ▸ hcounted) hperm (hsame ▸ h.registered) halone

theorem of_reach (h : Reach TraceState.step ReleasesAlone {} s) : s.Kept :=
  h.invariant initial fun _ _ _ ha halone hstep => ha.step halone hstep

end Kept

/-- **Every event is written while the provider is registered, when no registration ends while there
is a handle to another one**, and in every run each region that wrote its START writes exactly one
STOP. A registration that does not end alone leaves a state from which an event can be written while
the provider is not registered. -/
theorem written_while_registered (h : Reach TraceState.step anyStep {} s) :
    (∀ n, s.Answered n) ∧ (Reach TraceState.step ReleasesAlone {} s →
      (∀ e ∈ s.log, e.registered = true) ∧
      ∀ action s', s.step action = some s' → ¬ s.ReleasesAlone action →
        ∃ actions s'', run step s' actions = some s'' ∧ ∃ e ∈ s''.log, e.registered = false) := by
  refine ⟨(Told.of_reach h).answered, fun halone => ?_⟩
  have hkept := Kept.of_reach halone
  refine ⟨hkept.log, fun action s' hstep hnot => ?_⟩
  obtain ⟨hregistered, hne⟩ := unregistered_step hkept.toHeld hstep hnot
  exact exists_unregistered (hkept.toHeld.step hstep) hregistered hne

/-- Two periods, with a region that is moved and outlives the first one. -/
theorem written_while_registered_twice :
    ∃ s : TraceState, Reach TraceState.step ReleasesAlone {} s ∧
    (∀ n, s.Answered n) ∧ (∀ e ∈ s.log, e.registered = true) ∧
    s.log.map (fun e => (e.opcode, e.cookie.toNat)) =
    [(.start, 1), (.stop, 1), (.start, 2), (.stop, 2)] := by
  have hrun : (runWhile (fun s a => decide (s.ReleasesAlone a)) TraceState.step {}
      [.enable .mark, .construct [], .moveConstruct 0, .disable, .moveAssign 1 1, .destroy 1,
       .enable .log, .construct [], .moveAssign 0 2, .destroy 2, .destroy 0, .disable]).map
      (fun s => s.log.map fun e => (e.opcode, e.cookie.toNat)) =
        some [(.start, 1), (.stop, 1), (.start, 2), (.stop, 2)] := by decide
  obtain ⟨s, hreach, hlog⟩ := exists_reach_of_runWhile (fun _ _ => of_decide_eq_true) hrun
  obtain ⟨hanswered, hwritten⟩ := written_while_registered hreach.any
  exact ⟨s, hreach, hanswered, (hwritten hreach).1, hlog⟩

/-- **A region that outlives its period spoils the next one**: its end unregisters the provider. -/
theorem not_written_while_registered :
    ¬ ∀ s : TraceState, Reach TraceState.step anyStep {} s → ∀ e ∈ s.log, e.registered = true := by
  intro hall
  have hrun : (run TraceState.step {} [.enable .mark, .construct [], .disable, .enable .mark,
    .destroy 0, .construct []]).map (fun s => s.log.map TraceEvent.registered) =
      some [true, true, false] := by decide
  obtain ⟨s, hreach, hlog⟩ := exists_reach_of_run hrun
  have hevent : false ∈ s.log.map TraceEvent.registered := by simp [hlog]
  obtain ⟨e, he, hfalse⟩ := List.mem_map.1 hevent
  cases hfalse.symm.trans (hall s hreach e he)

/-! ## Programs that wait -/

/-- Tracing is enabled again only when the regions of the period before are closed. -/
def Waits (s : TraceState) (action : TraceAction) : Prop :=
  ∀ level, action = .enable level → s.enabled = false → s.handles = []

/-- Then all handles are to one registration. -/
theorem handles_step (h : s.Held) (hone : ∀ x ∈ s.handles, ∀ y ∈ s.handles, x = y)
    (hwaits : s.Waits action)
    (hstep : s.step action = some s') : ∀ x ∈ s'.handles, ∀ y ∈ s'.handles, x = y := by
  have hsubset (hsub : s'.handles ⊆ s.handles) : ∀ x ∈ s'.handles, ∀ y ∈ s'.handles, x = y :=
    fun x hx y hy => hone x (hsub hx) y (hsub hy)
  rcases step_handles h hstep with
    ⟨x, level, haction, off, hhandles, -⟩ | ⟨x, hx, -, hperm, -⟩ | ⟨t, rfl, -, -, hperm⟩
  · rw [hhandles, hwaits level haction off]
    simp
  · exact hsubset (List.Subset.trans hperm.subset (List.cons_subset.2 ⟨hx, List.Subset.refl _⟩))
  · exact hsubset fun x hx => hperm.symm.subset (List.mem_append_right _ hx)

/-- **A program that waits meets the condition.** -/
theorem releasesAlone_of_waits (h : Reach TraceState.step Waits {} s) :
    Reach TraceState.step ReleasesAlone {} s := by
  have hinv : s.Held ∧ (∀ x ∈ s.handles, ∀ y ∈ s.handles, x = y) ∧
      Reach TraceState.step ReleasesAlone {} s := by
    induction h with
    | refl => exact ⟨.initial, by simp [handles], .refl⟩
    | tail _ hwaits hstep ih =>
      rename_i a b action _
      obtain ⟨hheld, hone, hreach⟩ := ih
      refine ⟨hheld.step hstep, handles_step hheld hone hwaits hstep, hreach.tail ?_ hstep⟩
      intro x _ hcount y hy
      have hx : x ∈ a.handles := List.count_pos_iff.1 (by omega)
      exact hone y hy x hx
  exact hinv.2.2

end TraceState

end Arcana.Tracing
