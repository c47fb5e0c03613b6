import Arcana.Foundations.Sorted
import Arcana.Scheduling.Visit

/-!
# Runs without cancellation

When every token is `cancellation::none()` and the driver calls `move_to` only after the task of its
previous `move_to` has completed, every completions object is a visit (`Visits`). Works exclude each
other, a work runs inside the visit of its state, and the visits of a state are completed in the
order in which its observers called `on` (`visits_exclusive_and_in_order`).

* `Orderly` is the condition on a step: the token is `cancellation::none()`, and the tasks of the
  earlier calls of `move_to` are completed.
* `Visits` is the invariant. It gives every completions object a `Visit`, and says that the calls of
  `move_to` run one after another and that the visits of a state are made, entered and worked in one
  order.
* `Visits.startMoveTo` and `Visits.startOn` are about calls that begin, `Visits.moveGoesOn` and
  `Visits.workGoesOn` about the steps of a visit; `Visits.step` puts these together.
* `State.ons`, `State.completed` and `State.works` read off from the histories of a run what the
  result `visits_exclusive_and_in_order` speaks of.
-/

namespace Arcana.Scheduling

open Function Foundations

variable {S C D : Type*}

/-- The token is `cancellation::none()`, and `move_to` is called when the tasks of the earlier calls
are completed. -/
def Orderly (s : State S C D) : Label S C D → Prop
  | .moveTo _ token => token = none ∧ ∀ a k, Moves s.args a k → a ∈ s.returned
  | .on _ token => token = none
  | .cancel _ => False
  | .proceed _ _ => True

/-- Every completions object is a visit. The calls of `move_to` run one after another, and the
visits of a state are made, entered and worked in one order. -/
structure Visits (s : State S C D) : Prop where
  wellFormed : WellFormed s
  visit : ∀ state k, s.driver.home k = some state → ∃ v : Visit S D, v.state = state ∧ Shows s k v
  args : ∀ a x, s.call a = some x → x.args ≠ none
  latest : ∀ state k k', s.driver.m_states state = some k → s.driver.home k' = some state → k' ≤ k
  sequential : ∀ a b k k', a < b → Moves s.args a k → Moves s.args b k' → a ∈ s.returned
  moves_lt : ∀ a b state t t' k k', a < b → s.args a = some (.moveTo state t k) →
    s.args b = some (.moveTo state t' k') → k < k'
  ons_lt : ∀ a b state t t' k k', a < b → s.args a = some (.on state t k) →
    s.args b = some (.on state t' k') → k < k'
  worked : ∀ o data, (o, data) ∈ s.worked → ∃ state token k, s.args o = some (.on state token k)
  worked_nodup : (s.worked.map Prod.fst).Nodup
  returned : ∀ a ∈ s.returned, ∃ k, Moves s.args a k
  returned_sorted : s.returned.Pairwise (· < ·)

namespace Visits

variable {s s' : State S C D}

theorem init : Visits (init : State S C D) where
  wellFormed := .init
  visit _ _ h := by cases h
  args _ _ h := by cases h
  latest _ _ _ h := by cases h
  sequential _ _ _ _ _ h := by cases h.choose_spec.choose_spec
  moves_lt _ _ _ _ _ _ _ _ h := by cases h
  ons_lt _ _ _ _ _ _ _ _ h := by cases h
  worked _ _ h := by cases h
  worked_nodup := .nil
  returned _ h := by cases h
  returned_sorted := .nil

/-- The visit that a call belongs to. -/
theorem visit_of_call (h : Visits s) {a : ℕ} {x : Args S C} (ha : s.args a = some x) :
    ∃ v : Visit S D, v.state = x.state ∧ Shows s x.object v :=
  h.visit x.state x.object (h.wellFormed.args a x ha)

/-! ### New entries and calls -/

/-- Making an entry makes a visit. -/
theorem fetch [DecidableEq S] {d : Driver S D} {state : S} {k : ℕ} (h : Visits s)
    (hf : Fetch s.driver state d k) :
    Visits (s.setDriver d) := by
  have hw := h.wellFormed.setDriver hf
  cases hf with
  | found _ => exact h
  | inserted hnone =>
    have home {k' : ℕ} {state' : S} (hne : k' ≠ s.driver.objects)
        (hk' : (s.driver.insert state).home k' = some state') : s.driver.home k' = some state' := by
      simpa [hne] using hk'
    have lt {k' : ℕ} {state' : S} (hk' : s.driver.home k' = some state') :
        k' < s.driver.objects := by
      by_contra hle
      cases (h.wellFormed.unmade k' (not_lt.1 hle)).symm.trans hk'
    refine ⟨hw, fun state' k' hk' => ?_, h.args, fun state' k' k'' hk' hk'' => ?_, h.sequential,
      h.moves_lt, h.ons_lt, h.worked, h.worked_nodup, h.returned, h.returned_sorted⟩
    · by_cases hne : k' = s.driver.objects
      · subst hne
        have hstate : state = state' := by simpa using hk'
        subst hstate
        have unused {a : ℕ} {x : Args S C} (ha : s.args a = some x) : x.object ≠ s.driver.objects :=
          h.wellFormed.ne_objects ha
        refine ⟨.fresh state, rfl, by simp [Visit.completions, Visit.fresh, Visit.stateEntered,
          Visit.stateExited], by simp [Visit.fresh, Visit.isOpen], fun a state' token p => ?_,
          fun a state' token p => ?_, by simp [Visit.fresh], by simp [Visit.fresh]⟩
        · exact ⟨fun ha => absurd rfl (unused (State.args_of_call ha)), by simp [Visit.fresh]⟩
        · exact ⟨fun ha => absurd rfl (unused (State.args_of_call ha)), by simp [Visit.fresh]⟩
      · obtain ⟨v, hv, hshows⟩ := h.visit state' k' (home hne hk')
        refine ⟨v, hv, ⟨by simpa [hne] using hshows.object, ?_, hshows.moves, hshows.ons,
          hshows.worked, hshows.returned⟩⟩
        rw [← hshows.entry]
        by_cases hstate : v.state = state
        · simp [hstate, hnone, Ne.symm hne]
        · simp [hstate]
    · rw [State.setDriver_driver, Driver.insert_m_states, update_apply] at hk'
      split at hk'
      · cases hk'
        by_cases hne : k'' = s.driver.objects
        · exact hne.le
        · exact (lt (home hne hk'')).le
      · refine h.latest state' k' k'' hk' (home ?_ hk'')
        rintro rfl
        rename_i hne
        have hstate : state = state' := by simpa using hk''
        exact hne hstate.symm

/-- A new call joins the visit `k`; what is left to show is what it does to the visit, and that it
comes after the others of its kind. -/
theorem start {k : ℕ} {d : Driver S D} {x : Args S C} {y : Call S C D} {v : Visit S D}
    (h : Visits s) (hw : WellFormed ((s.setDriver d).newCall y)) (hy : y.args = some x)
    (hx : x.object = k) (hshows : Shows ((s.setDriver d).newCall y) k v)
    (hk : s.driver.home k = some v.state) (hhome : d.home = s.driver.home)
    (hstates : d.m_states = s.driver.m_states)
    (hobject : ∀ k', k' ≠ k → d.object k' = s.driver.object k')
    (hmoves : (∃ state token, x = .moveTo state token k) → ∀ a k', Moves s.args a k' →
      a ∈ s.returned ∧ ∀ token', s.args a = some (.moveTo x.state token' k') → k' < k)
    (hons : (∃ state token, x = .on state token k) → ∀ a token' k',
      s.args a = some (.on x.state token' k') → k' < k) :
    Visits ((s.setDriver d).newCall y) := by
  have hargs : ((s.setDriver d).newCall y).args = update s.args s.calls (some x) := by
    rw [State.args_newCall, hy]
    rfl
  have hnone := h.wellFormed.args_fresh
  have old {a : ℕ} {z : Args S C} (ha : s.args a = some z) : a < s.calls := by
    by_contra hle
    have hcall := h.wellFormed.fresh a (not_lt.1 hle)
    simp [State.args, hcall] at ha
  have earlier {a b : ℕ} {z z' : Args S C} (hlt : a < b)
      (ha : ((s.setDriver d).newCall y).args a = some z)
      (hb : ((s.setDriver d).newCall y).args b = some z') :
      s.args a = some z ∧ (s.args b = some z' ∨ z' = x) := by
    rw [hargs] at ha hb
    rcases of_update_eq_some hb with ⟨rfl, hz⟩ | ⟨-, hb⟩
    · cases hz
      rw [update_of_ne hlt.ne] at ha
      exact ⟨ha, .inr rfl⟩
    · rw [update_of_ne (hlt.trans (old hb)).ne] at ha
      exact ⟨ha, .inl hb⟩
  refine ⟨hw, fun state k' hk' => ?_, fun a z ha => ?_, fun state k₁ k₂ h₁ h₂ => ?_,
    fun a b k₁ k₂ hlt ha hb => ?_, fun a b state t t' k₁ k₂ hlt ha hb => ?_,
    fun a b state t t' k₁ k₂ hlt ha hb => ?_, fun o data ho => ?_, h.worked_nodup, fun a ha => ?_,
    h.returned_sorted⟩
  · by_cases hne : k' = k
    · subst hne
      rw [State.newCall_driver, State.setDriver_driver, hhome, hk] at hk'
      exact ⟨v, Option.some.inj hk', hshows⟩
    · obtain ⟨v', hv', hshows'⟩ := h.visit state k' (hhome ▸ hk')
      refine ⟨v', hv', hshows'.frame hne rfl (fun z hz => ?_) (fun z hz => ?_) (hobject k' hne) ?_
        (fun _ _ _ => Iff.rfl) fun _ _ => Iff.rfl⟩
      · cases hnone.symm.trans hz
      · cases hy.symm.trans hz
        exact hx
      · simp [hstates]
  · rcases of_update_eq_some ha with ⟨-, hz⟩ | ⟨-, ha⟩
    · cases hz
      simp [hy]
    · exact h.args a z ha
  · exact h.latest state k₁ k₂ (hstates ▸ h₁) (hhome ▸ h₂)
  · obtain ⟨state, token, ha⟩ := ha
    obtain ⟨state', token', hb⟩ := hb
    obtain ⟨ha, hb | rfl⟩ := earlier hlt ha hb
    · exact h.sequential a b k₁ k₂ hlt ⟨state, token, ha⟩ ⟨state', token', hb⟩
    · have hk : k₂ = k := hx
      exact (hmoves ⟨state', token', by rw [hk]⟩ a k₁ ⟨state, token, ha⟩).1
  · obtain ⟨ha, hb | rfl⟩ := earlier hlt ha hb
    · exact h.moves_lt a b state t t' k₁ k₂ hlt ha hb
    · have hk : k₂ = k := hx
      exact hk ▸ (hmoves ⟨state, t', by rw [hk]⟩ a k₁ ⟨state, t, ha⟩).2 t ha
  · obtain ⟨ha, hb | rfl⟩ := earlier hlt ha hb
    · exact h.ons_lt a b state t t' k₁ k₂ hlt ha hb
    · have hk : k₂ = k := hx
      exact hk ▸ hons ⟨state, t', by rw [hk]⟩ a t k₁ ha
  · obtain ⟨state, token, k₁, ho⟩ := h.worked o data ho
    exact ⟨state, token, k₁, by rw [hargs]; exact update_eq_some_of_none hnone ho⟩
  · obtain ⟨k₁, ha⟩ := h.returned a ha
    exact ⟨k₁, by rw [hargs]; exact ha.update hnone⟩

/-- The entry of a state is an open visit, which is later than what other calls of the state
fetched. -/
theorem of_entry {state : S} {k : ℕ} (h : Visits s) (hk : s.driver.m_states state = some k) :
    ∃ v : Visit S D, v.state = state ∧ Shows s k v ∧ v.isOpen = true ∧
      ∀ a x, s.args a = some x → x.state = state → x.object ≤ k := by
  obtain ⟨v, hv, hshows⟩ := h.visit state k (h.wellFormed.entry _ _ hk)
  refine ⟨v, hv, hshows, hshows.entry.1 (hv ▸ hk), fun a x ha hx => ?_⟩
  exact h.latest state k x.object hk (hx ▸ h.wellFormed.args a x ha)

theorem startMoveTo {state : S} {k : ℕ} (h : Visits s)
    (hw : WellFormed (s.newCall (.moveTo state none k .fetched)))
    (hk : s.driver.m_states state = some k) (hreturned : ∀ a k, Moves s.args a k → a ∈ s.returned) :
    Visits (s.newCall (.moveTo state none k .fetched)) := by
  obtain ⟨v, rfl, hshows, hopen, hle⟩ := h.of_entry hk
  have hnone := h.wellFormed.fresh _ le_rfl
  -- the calls that fetched the entry before would have returned, which an open visit excludes
  have hmover : v.mover = none := by
    cases hv : v.mover with
    | none => rfl
    | some x =>
      obtain ⟨a, q⟩ := x
      have hcall := hshows.call_of_mover hv
      have hmem := hreturned a k ⟨_, _, State.args_of_call hcall⟩
      rw [hshows.returned a q hv] at hmem
      exact absurd (hmem ▸ hv) (v.not_done hopen a)
  have hentered (o : ℕ) (p : Working D) (hp : v.worker = some (o, p)) (hwaits : p.waits = false) :
      Moving.fetched ≠ .fetched := by
    obtain ⟨a, q, hv, -⟩ := v.entered o p hp hwaits
    cases hmover.symm.trans hv
  have hshows' : Shows (s.newCall (.moveTo v.state none k .fetched)) k
      (v.move s.calls .fetched hentered (by simp)) := by
    refine hshows.move rfl (fun b p hv => ?_) (fun p hp => ?_) ?_ rfl rfl ⟨fun hmem => ?_, by simp⟩
    · cases hmover.symm.trans hv
    · cases hnone.symm.trans (hshows.call_of_worker hp)
    · refine hshows.object.trans ?_
      simp [Visit.completions, Visit.stateEntered, Visit.stateExited, hmover]
    · obtain ⟨k', state, token, hm⟩ := h.returned _ hmem
      cases h.wellFormed.args_fresh.symm.trans hm
  refine h.start (k := k) (d := s.driver) hw rfl rfl hshows' (h.wellFormed.entry _ _ hk) rfl rfl
    (fun _ _ => rfl) (fun _ a k' ha => ⟨hreturned a k' ha, fun token' ha' => ?_⟩) (by simp)
  refine lt_of_le_of_ne (hle a _ ha' rfl) ?_
  rintro rfl
  obtain ⟨p, hp⟩ := State.call_of_args_moveTo ha'
  obtain ⟨q, hv, -⟩ := (hshows.moves _ _ _ _).1 hp
  cases hmover.symm.trans hv

theorem startOn {state : S} {k : ℕ} (h : Visits s)
    (hw : WellFormed ((s.setDriver (s.driver.setWorkPending k)).newCall
      (.on state none k .fetched)))
    (hk : s.driver.m_states state = some k) (hwork : (s.driver.object k).WorkPending = false) :
    Visits ((s.setDriver (s.driver.setWorkPending k)).newCall (.on state none k .fetched)) := by
  obtain ⟨v, rfl, hshows, hopen, hle⟩ := h.of_entry hk
  have hnone := h.wellFormed.fresh _ le_rfl
  have hworker : v.worker = none := by
    rw [hshows.object] at hwork
    simpa [Visit.completions] using hwork
  have hshows' : Shows ((s.setDriver (s.driver.setWorkPending k)).newCall
      (.on v.state none k .fetched)) k
      (v.work s.calls .fetched (fun hp => by cases hp) (v.not_done hopen)) := by
    refine hshows.work rfl (fun b p hv => ?_) (fun p hp => ?_) ?_ ?_ (fun data => ?_) rfl
    · cases hworker.symm.trans hv
    · cases hnone.symm.trans (hshows.call_of_mover hp)
    · simp [Driver.setWorkPending, hshows.object, Visit.completions, Visit.stateEntered,
        Visit.stateExited, hworker]
    · simpa [Working.holds] using hk
    · refine ⟨fun hmem => ?_, by simp [Working.data]⟩
      obtain ⟨state, token, k', ho⟩ := h.worked _ _ hmem
      cases h.wellFormed.args_fresh.symm.trans ho
  refine h.start (k := k) hw rfl rfl hshows' (h.wellFormed.entry _ _ hk) rfl rfl
    (fun k' hne => by simp [Driver.setWorkPending, hne]) (by simp) fun _ a token' k' ha' => ?_
  refine lt_of_le_of_ne (hle a _ ha' rfl) ?_
  rintro rfl
  obtain ⟨p, hp⟩ := State.call_of_args_on ha'
  obtain ⟨q, hv, -⟩ := (hshows.ons _ _ _ _).1 hp
  cases hworker.symm.trans hv

/-! ### Steps of a visit -/

/-- A call of the visit `k` goes on; what is left to show is what this does to the visit. -/
theorem goesOn {k a : ℕ} {x : Args S C} {y : Call S C D} {v : Visit S D} (h : Visits s)
    (hw : WellFormed s') (ha : s.args a = some x) (hx : x.object = k)
    (hcall : s'.call = update s.call a (some y)) (hy : y.args = some x) (hshows : Shows s' k v)
    (hv : v.state = x.state) (hhome : s'.driver.home = s.driver.home)
    (hobject : ∀ k', k' ≠ k → s'.driver.object k' = s.driver.object k')
    (hstates : ∀ state k', s'.driver.m_states state = some k' → s.driver.m_states state = some k')
    (hentry : ∀ state k', k' ≠ k → s.driver.m_states state = some k' →
      s'.driver.m_states state = some k')
    (hworked : s'.worked = s.worked ∨ ∃ data, s'.worked = s.worked ++ [(a, data)] ∧
      (∀ data, (a, data) ∉ s.worked) ∧ ∃ state token k, x = .on state token k)
    (hreturned : s'.returned = s.returned ∨ s'.returned = s.returned ++ [a] ∧ a ∉ s.returned ∧
      ∃ state token k, x = .moveTo state token k) : Visits s' := by
  have hargs : s'.args = s.args := by
    funext b
    by_cases hb : b = a
    · subst hb
      rw [ha, ← hy]
      exact State.args_of_call (by rw [hcall, update_self])
    · simp [State.args, hcall, hb]
  have hmem {b : ℕ} (hb : b ∈ s.returned) : b ∈ s'.returned := by
    rcases hreturned with e | ⟨e, -⟩ <;> simp [e, hb]
  refine ⟨hw, fun state k' hk' => ?_, fun b z hb => ?_, fun state k₁ k₂ h₁ h₂ => ?_,
    fun b c k₁ k₂ hlt hb hc => ?_, hargs ▸ h.moves_lt, hargs ▸ h.ons_lt, fun o data ho => ?_, ?_,
    fun b hb => ?_, ?_⟩
  · rw [hhome] at hk'
    by_cases hne : k' = k
    · subst hne
      subst hx
      refine ⟨v, hv.trans ?_, hshows⟩
      exact Option.some.inj ((h.wellFormed.args a x ha).symm.trans hk')
    · obtain ⟨v', hv', hshows'⟩ := h.visit state k' hk'
      refine ⟨v', hv', hshows'.frame hne hcall (fun z hz => ?_) (fun z hz => ?_) (hobject k' hne)
        ⟨hstates _ _, hentry _ _ hne⟩ (fun b data hb => ?_) fun b hb => ?_⟩
      · cases ha.symm.trans hz
        exact hx
      · cases hy.symm.trans hz
        exact hx
      · rcases hworked with e | ⟨_, e, -⟩ <;> simp [e, hb]
      · rcases hreturned with e | ⟨e, -⟩ <;> simp [e, hb]
  · rw [hcall] at hb
    rcases of_update_eq_some hb with ⟨-, hz⟩ | ⟨-, hb⟩
    · cases hz
      simp [hy]
    · exact h.args b z hb
  · exact h.latest state k₁ k₂ (hstates _ _ h₁) (hhome ▸ h₂)
  · exact hmem (h.sequential b c k₁ k₂ hlt (hargs ▸ hb) (hargs ▸ hc))
  · rw [hargs]
    rcases hworked with e | ⟨data', e, -, state, token, k', hon⟩
    · exact h.worked o data (e ▸ ho)
    · rw [e, List.mem_append, List.mem_singleton] at ho
      rcases ho with ho | ho
      · exact h.worked o data ho
      · cases ho
        exact ⟨state, token, k', hon ▸ ha⟩
  · rcases hworked with e | ⟨data', e, hnot, -⟩
    · exact e ▸ h.worked_nodup
    · simp only [e, List.map_append, List.nodup_append, List.map_cons, List.map_nil]
      refine ⟨h.worked_nodup, List.nodup_singleton a, fun b hb c hc => ?_⟩
      obtain ⟨⟨_, data⟩, hmem, rfl⟩ := List.mem_map.1 hb
      cases List.mem_singleton.1 hc
      rintro rfl
      exact hnot data hmem
  · rw [hargs]
    rcases hreturned with e | ⟨e, -, state, token, k', hmove⟩
    · exact h.returned b (e ▸ hb)
    · rw [e, List.mem_append, List.mem_singleton] at hb
      rcases hb with hb | rfl
      · exact h.returned b hb
      · exact ⟨k', state, token, hmove ▸ ha⟩
  · rcases hreturned with e | ⟨e, hnot, state, token, k', hmove⟩
    · exact e ▸ h.returned_sorted
    · rw [e, List.pairwise_append]
      refine ⟨h.returned_sorted, List.pairwise_singleton _ _, fun b hb c hc => ?_⟩
      cases List.mem_singleton.1 hc
      obtain ⟨k₁, hb'⟩ := h.returned b hb
      -- a call of `move_to` after `a` would find `a` returned
      rcases lt_trichotomy b a with hlt | rfl | hlt
      · exact hlt
      · exact absurd hb hnot
      · exact absurd (h.sequential a b k' k₁ hlt ⟨state, token, hmove ▸ ha⟩ hb') hnot

/-- The call of `move_to` of a visit goes on. -/
theorem moveGoesOn {k a : ℕ} {p q : Moving} {v : Visit S D} (h : Visits s) (hw : WellFormed s')
    (hshows : Shows s k v) (hv : v.mover = some (a, p))
    (entered : ∀ o p, v.worker = some (o, p) → p.waits = false → q ≠ .fetched)
    (exited : q = .done → ∃ o data, v.worker = some (o, .done data))
    (hcall : s'.call = update s.call a (some (.moveTo v.state none k q.position)))
    (hobject : s'.driver.object k = (v.move a q entered exited).completions)
    (hothers : ∀ k', k' ≠ k → s'.driver.object k' = s.driver.object k')
    (hhome : s'.driver.home = s.driver.home) (hstates : s'.driver.m_states = s.driver.m_states)
    (hworked : s'.worked = s.worked)
    (hreturned : s'.returned = s.returned ∧ (p = .done ↔ q = .done) ∨
      s'.returned = s.returned ++ [a] ∧ p ≠ .done ∧ q = .done) : Visits s' := by
  have hargs := State.args_of_call (hshows.call_of_mover hv)
  have hmem := hshows.returned a p hv
  have hshows' : Shows s' k (v.move a q entered exited) := by
    refine hshows.move hcall (fun b p' hb => ?_) (fun p' hp => ?_) hobject (by rw [hstates])
      hworked ?_
    · cases hv.symm.trans hb
      rfl
    · cases (hshows.call_of_mover hv).symm.trans (hshows.call_of_worker hp)
    · rcases hreturned with ⟨e, hpq⟩ | ⟨e, -, hq⟩
      · rw [e, hmem, hpq]
      · simp [e, hq]
  refine h.goesOn hw hargs rfl hcall rfl hshows' rfl hhome hothers (fun _ _ hk => hstates ▸ hk)
    (fun _ _ _ hk => hstates ▸ hk) (.inl hworked) (hreturned.imp And.left fun hr => ?_)
  exact ⟨hr.1, fun ha => hr.2.1 (hmem.1 ha), v.state, none, k, rfl⟩

/-- The call of `on` of a visit goes on. -/
theorem workGoesOn [DecidableEq S] {k o : ℕ} {p q : Working D} {v : Visit S D} (h : Visits s)
    (hw : WellFormed s') (hshows : Shows s k v) (hv : v.worker = some (o, p))
    (entered : q.waits = false → ∃ a p, v.mover = some (a, p) ∧ p ≠ .fetched)
    (exited : ∀ a, v.mover ≠ some (a, .done))
    (hcall : s'.call = update s.call o (some (.on v.state none k (q.position k))))
    (hobject : s'.driver.object k = (v.work o q entered exited).completions)
    (hothers : ∀ k', k' ≠ k → s'.driver.object k' = s.driver.object k')
    (hhome : s'.driver.home = s.driver.home)
    (hstates : s'.driver.m_states = s.driver.m_states ∧ p.holds = q.holds ∨
      s'.driver.m_states = update s.driver.m_states v.state none ∧ p.holds = true ∧ q.holds = false)
    (hworked : s'.worked = s.worked ∧ p.data = q.data ∨
      ∃ data, s'.worked = s.worked ++ [(o, data)] ∧ p.data = none ∧ q.data = some data)
    (hreturned : s'.returned = s.returned) : Visits s' := by
  have hargs := State.args_of_call (hshows.call_of_worker hv)
  have hmem := hshows.worked o p hv
  have hentry : s.driver.m_states v.state = some k ↔ p.holds = true := by
    rw [hshows.entry]
    simp [Visit.isOpen, hv]
  have hshows' : Shows s' k (v.work o q entered exited) := by
    refine hshows.work hcall (fun b p' hb => ?_) (fun p' hp => ?_) hobject ?_ (fun data => ?_)
      hreturned
    · cases hv.symm.trans hb
      rfl
    · cases (hshows.call_of_worker hv).symm.trans (hshows.call_of_mover hp)
    · rcases hstates with ⟨e, hpq⟩ | ⟨e, -, hq⟩
      · rw [e, hentry, hpq]
      · simp [e, hq]
    · rcases hworked with ⟨e, hpq⟩ | ⟨data', e, hp, hq⟩
      · rw [e, hmem, hpq]
      · have hnot : (o, data) ∉ s.worked := by simp [hmem, hp]
        simp [e, hnot, hq, eq_comm]
  refine h.goesOn hw hargs rfl hcall rfl hshows' rfl hhome hothers (fun state k' hk => ?_)
    (fun state k' hne hk => ?_) ?_ (.inl hreturned)
  · rcases hstates with ⟨e, -⟩ | ⟨e, -⟩
    · exact e ▸ hk
    · rw [e, update_apply] at hk
      split at hk
      · cases hk
      · exact hk
  · rcases hstates with ⟨e, -⟩ | ⟨e, hp, -⟩
    · exact e ▸ hk
    · have hstate : state ≠ v.state := by
        rintro rfl
        cases hk.symm.trans (hentry.2 hp)
        exact hne rfl
      rw [e, update_of_ne hstate, hk]
  · rcases hworked with ⟨e, -⟩ | ⟨data, e, hp, -⟩
    · exact .inl e
    · exact .inr ⟨data, e, fun data' => by simp [hmem, hp], v.state, none, k, rfl⟩

/-- The call of `move_to` of a visit goes on without completing a source. -/
theorem moveGoesOn_quiet {k a : ℕ} {p q : Moving} {v : Visit S D} (h : Visits s)
    (hw : WellFormed s') (hshows : Shows s k v) (hv : v.mover = some (a, p)) (hp : p ≠ .fetched)
    (hq : q ≠ .fetched) (exited : q = .done → ∃ o data, v.worker = some (o, .done data))
    (hcall : s'.call = update s.call a (some (.moveTo v.state none k q.position)))
    (hdriver : s'.driver = s.driver) (hworked : s'.worked = s.worked)
    (hreturned : s'.returned = s.returned ∧ (p = .done ↔ q = .done) ∨
      s'.returned = s.returned ++ [a] ∧ p ≠ .done ∧ q = .done) : Visits s' := by
  refine h.moveGoesOn hw hshows hv (fun _ _ _ _ => hq) exited hcall ?_ (fun _ _ => by rw [hdriver])
    (by rw [hdriver]) (by rw [hdriver]) hworked hreturned
  rw [hdriver, hshows.object, Visit.completions_move hv hp hq]

/-- The call of `on` of a visit goes on without completing a source. -/
theorem workGoesOn_quiet [DecidableEq S] {k o : ℕ} {p q : Working D} {v : Visit S D} (h : Visits s)
    (hw : WellFormed s') (hshows : Shows s k v) (hv : v.worker = some (o, p))
    (hp : ∀ data, p ≠ .done data) (hq : ∀ data, q ≠ .done data)
    (entered : q.waits = false → ∃ a p, v.mover = some (a, p) ∧ p ≠ .fetched)
    (hcall : s'.call = update s.call o (some (.on v.state none k (q.position k))))
    (hdriver : s'.driver = s.driver ∧ p.holds = q.holds ∨
      s'.driver = s.driver.erase v.state ∧ p.holds = true ∧ q.holds = false)
    (hworked : s'.worked = s.worked ∧ p.data = q.data ∨
      ∃ data, s'.worked = s.worked ++ [(o, data)] ∧ p.data = none ∧ q.data = some data)
    (hreturned : s'.returned = s.returned) : Visits s' := by
  have hobjects : s'.driver.object = s.driver.object ∧ s'.driver.home = s.driver.home := by
    rcases hdriver with ⟨e, -⟩ | ⟨e, -⟩ <;> exact e ▸ ⟨rfl, rfl⟩
  refine h.workGoesOn hw hshows hv entered (v.not_done_of_worker hv hp) hcall ?_
    (fun _ _ => by rw [hobjects.1]) hobjects.2 (hdriver.imp ?_ ?_) hworked hreturned
  · rw [hobjects.1, hshows.object, Visit.completions_work hv hp hq]
  · exact And.imp_left fun e => by rw [e]
  · exact And.imp_left fun e => by rw [e]; rfl

/-- The visit that a call of `move_to` belongs to. -/
theorem mover (h : Visits s) {a : ℕ} {state : S} {token : Option C} {k : ℕ} {p : MoveTo D}
    (ha : s.call a = some (.moveTo state token k p)) : ∃ (v : Visit S D) (q : Moving),
      Shows s k v ∧ v.mover = some (a, q) ∧ v.state = state ∧ token = none ∧ p = q.position := by
  obtain ⟨v, hv, hshows⟩ := h.visit_of_call (State.args_of_call ha)
  obtain ⟨q, hq, rfl, rfl, rfl⟩ := (hshows.moves _ _ _ _).1 ha
  exact ⟨v, q, hshows, hq, rfl, rfl, rfl⟩

/-- The visit that a call of `on` belongs to. -/
theorem worker (h : Visits s) {o : ℕ} {state : S} {token : Option C} {k : ℕ} {p : On D}
    (ho : s.call o = some (.on state token k p)) : ∃ (v : Visit S D) (q : Working D),
      Shows s k v ∧ v.worker = some (o, q) ∧ v.state = state ∧ token = none ∧
      p = q.position k := by
  obtain ⟨v, hv, hshows⟩ := h.visit_of_call (State.args_of_call ho)
  obtain ⟨q, hq, rfl, rfl, rfl⟩ := (hshows.ons _ _ _ _).1 ho
  exact ⟨v, q, hshows, hq, rfl, rfl, rfl⟩

theorem not_cancel (h : Visits s) {b : ℕ} {c : C} {p : Cancel D} :
    s.call b ≠ some (.cancel c p) :=
  fun hb => h.args b _ hb rfl

section step

variable [DecidableEq S] [DecidableEq C] [Inhabited D] {l : Label S C D} {a : ℕ}
  {x y t z : Call S C D}

omit [DecidableEq C] [Inhabited D] in
theorem step_completes (h : Visits s) {c : Completion D} (ha : s.call a = some x)
    (hx : Completes x c y t)
    (hw : WellFormed ((s.setDriver (s.driver.complete c).1).setCall a
      (if (s.driver.complete c).2 then t else y))) :
    Visits ((s.setDriver (s.driver.complete c).1).setCall a
      (if (s.driver.complete c).2 then t else y)) := by
  cases hx with
  | moveTo =>
    obtain ⟨v, q, hshows, hv, rfl, rfl, hq⟩ := h.mover ha
    cases q <;> cases hq
    obtain ⟨hthrew, hobject⟩ := hshows.complete_entered hv (by simp) (by simp)
    rw [hthrew] at hw ⊢
    exact h.moveGoesOn (q := .entered) hw hshows hv (by simp) (by simp) rfl hobject
      (fun _ hne => Driver.complete_object_of_ne hne) (Driver.complete_home _ _)
      (Driver.complete_m_states _ _) rfl (.inl ⟨rfl, by simp⟩)
  | exit =>
    obtain ⟨v, q, hshows, hv, rfl, rfl, hq⟩ := h.worker ha
    cases q <;> cases hq
    have hdone := v.not_done_of_worker hv (by simp)
    obtain ⟨hthrew, hobject⟩ := hshows.complete_exited hv (fun _ => v.entered _ _ hv rfl) hdone
    rw [hthrew] at hw ⊢
    exact h.workGoesOn (q := .done _) hw hshows hv (fun _ => v.entered _ _ hv rfl) hdone rfl
      hobject (fun _ hne => Driver.complete_object_of_ne hne) (Driver.complete_home _ _)
      (.inl ⟨Driver.complete_m_states _ _, rfl⟩) (.inl ⟨rfl, rfl⟩) rfl
  | moveToListener =>
    obtain ⟨v, q, -, -, -, -, hq⟩ := h.mover ha
    cases q <;> cases hq
  | onListener =>
    obtain ⟨v, q, -, -, -, -, hq⟩ := h.worker ha
    cases q <;> cases hq
  | cancel => exact absurd ha h.not_cancel

omit [DecidableEq C] [Inhabited D] in
/-- The entry that is taken is that of the visit. -/
theorem step_takes (h : Visits s) {owner k : ℕ} {data : D} {state : S} {op : Operation D}
    (ha : s.call a = some x) (hop : s.critical (.proceed a data) = some (owner, state, op))
    (hk : op.finds s.driver state = some k) (hx : Takes (op.completion k) x y)
    (hw : WellFormed ((s.setDriver (s.driver.erase state)).setCall a y)) :
    Visits ((s.setDriver (s.driver.erase state)).setCall a y) := by
  cases hx with
  | exit =>
    obtain ⟨v, q, hshows, hv, rfl, rfl, hq⟩ := h.worker ha
    cases q <;> cases hq
    simp only [State.critical, ha] at hop
    cases hop
    have hopen : v.isOpen = true := by simp [Visit.isOpen, hv, Working.holds]
    cases hk.symm.trans (hshows.entry.2 hopen)
    exact h.workGoesOn_quiet (q := .leaving _) hw hshows hv (by simp) (by simp)
      (fun _ => v.entered _ _ hv rfl) rfl (.inr ⟨rfl, rfl, rfl⟩) (.inl ⟨rfl, rfl⟩) rfl
  | moveTo =>
    obtain ⟨v, q, -, -, -, -, hq⟩ := h.mover ha
    cases q <;> cases hq
  | «on» =>
    obtain ⟨v, q, -, -, -, -, hq⟩ := h.worker ha
    cases q <;> cases hq
  | listener => exact absurd ha h.not_cancel

omit [DecidableEq C] in
theorem step_passes (h : Visits s) (ha : s.call a = some x) (hx : Passes s x y)
    (hw : WellFormed (s.setCall a y)) : Visits (s.setCall a y) := by
  cases hx with
  | moveTo =>
    obtain ⟨v, q, -, -, -, -, hq⟩ := h.mover ha
    cases q <;> cases hq
  | «on» =>
    obtain ⟨v, q, -, -, -, -, hq⟩ := h.worker ha
    cases q <;> cases hq
  | exit hnone =>
    -- the entry of the visit is there
    obtain ⟨v, q, hshows, hv, rfl, rfl, hq⟩ := h.worker ha
    cases q <;> cases hq
    have hopen : v.isOpen = true := by simp [Visit.isOpen, hv, Working.holds]
    cases hnone.symm.trans (hshows.entry.2 hopen)
  | listener => exact absurd ha h.not_cancel
  | work =>
    obtain ⟨v, q, hshows, hv, rfl, rfl, hq⟩ := h.worker ha
    cases q <;> cases hq
    exact h.workGoesOn_quiet (q := .working) hw hshows hv (by simp) (by simp)
      (fun _ => v.entered _ _ hv rfl) rfl (.inl ⟨rfl, rfl⟩) (.inl ⟨rfl, rfl⟩) rfl
  | skip hcancelled =>
    obtain ⟨v, q, hshows, hv, rfl, rfl, hq⟩ := h.worker ha
    cases q <;> cases hq
    obtain ⟨hcompleted, hresult⟩ := hshows.entered_completed
    cases hcancelled (hresult (hcompleted.2 (v.entered _ _ hv rfl)))

omit [Inhabited D] in
theorem step_listens (h : Visits s) {token : Option C} (ha : s.call a = some x)
    (hx : Listens x token y z)
    (hw : WellFormed ((s.addListener a token).1.setCall a
      (if (s.addListener a token).2 then z else y))) :
    Visits ((s.addListener a token).1.setCall a (if (s.addListener a token).2 then z else y)) := by
  cases hx with
  | moveTo =>
    obtain ⟨v, q, hshows, hv, rfl, rfl, hq⟩ := h.mover ha
    cases q <;> cases hq
    exact h.moveGoesOn_quiet (q := .awaiting) hw hshows hv (by simp) (by simp) (by simp)
      rfl rfl rfl (.inl ⟨rfl, by simp⟩)
  | «on» =>
    obtain ⟨v, q, hshows, hv, rfl, rfl, hq⟩ := h.worker ha
    cases q <;> cases hq
    exact h.workGoesOn_quiet (q := .awaiting) hw hshows hv (by simp) (by simp)
      (fun hp => by cases hp) rfl (.inl ⟨rfl, rfl⟩) (.inl ⟨rfl, rfl⟩) rfl

/-- **A step of an orderly run keeps the visits.** -/
theorem step (h : Visits s) (ok : Orderly s l) (hstep : Step s l s') : Visits s' := by
  have hw := h.wellFormed.step hstep
  cases hstep with
  | moveTo hf =>
    obtain ⟨rfl, hreturned⟩ := ok
    exact (h.fetch hf).startMoveTo hw hf.fetched hreturned
  | «on» hf hwork =>
    obtain rfl := ok
    exact (h.fetch hf).startOn hw hf.fetched hwork
  | cancelsAgain | cancels => exact ok.elim
  | completes ha hx => exact h.step_completes ha hx hw
  | takes ha hop hk hx => exact h.step_takes ha hop hk hx hw
  | passes ha hx => exact h.step_passes ha hx hw
  | listens ha hx => exact h.step_listens ha hx hw
  | moveToReturns ha hexited =>
    obtain ⟨v, q, hshows, hv, rfl, rfl, hq⟩ := h.mover ha
    cases q <;> cases hq
    exact h.moveGoesOn_quiet (q := .done) hw hshows hv (by simp) (by simp)
      (fun _ => hshows.exited_completed.1.1 hexited) rfl rfl rfl (.inr ⟨rfl, by simp, rfl⟩)
  | enters ha hentered =>
    obtain ⟨v, q, hshows, hv, rfl, rfl, hq⟩ := h.worker ha
    cases q <;> cases hq
    exact h.workGoesOn_quiet (q := .queued) hw hshows hv (by simp) (by simp)
      (fun _ => hshows.entered_completed.1.1 hentered) rfl (.inl ⟨rfl, rfl⟩) (.inl ⟨rfl, rfl⟩) rfl
  | works ha =>
    obtain ⟨v, q, hshows, hv, rfl, rfl, hq⟩ := h.worker ha
    cases q <;> cases hq
    exact h.workGoesOn_quiet (q := .exiting _) hw hshows hv (by simp) (by simp)
      (fun _ => v.entered _ _ hv rfl) rfl (.inl ⟨rfl, rfl⟩) (.inr ⟨_, rfl, rfl, rfl⟩) rfl
  | signals ha => exact absurd ha h.not_cancel

end step

theorem of_reach [DecidableEq S] [DecidableEq C] [Inhabited D]
    (h : Reach Scheduling.step Orderly Scheduling.init s) : Visits s :=
  h.invariant init fun _ _ _ ha ok hstep => ha.step ok (step_sound hstep)

end Visits

/-! ## Runs -/

namespace State

variable [DecidableEq S]

/-- The completions object that a call fetched. -/
def objectOf (s : State S C D) (a : ℕ) : ℕ := ((s.args a).map Args.object).getD 0

/-- The call is one of `on` on `state`. -/
def isOn (s : State S C D) (state : S) (a : ℕ) : Bool :=
  match s.args a with
  | some (.on state' _ _) => state' = state
  | _ => false

/-- The call is one of `move_to` on `state`. -/
def isMoveTo (s : State S C D) (state : S) (a : ℕ) : Bool :=
  match s.args a with
  | some (.moveTo state' _ _) => state' = state
  | _ => false

/-- The calls of `on` on `state`, in their order. -/
def ons (s : State S C D) (state : S) : List ℕ := (List.range s.calls).filter (s.isOn state)

/-- The calls of `move_to` on `state` whose tasks are completed, in the order of the completions. -/
def completed (s : State S C D) (state : S) : List ℕ := s.returned.filter (s.isMoveTo state)

/-- The works that ran for the completions object `k`. -/
def works (s : State S C D) (k : ℕ) : List (ℕ × D) := s.worked.filter fun w => s.objectOf w.1 = k

variable {s : State S C D} {state : S} {a : ℕ}

omit [DecidableEq S] in
theorem objectOf_of_args {x : Args S C} (ha : s.args a = some x) : s.objectOf a = x.object := by
  simp [objectOf, ha]

theorem isOn_iff : s.isOn state a = true ↔ ∃ token k, s.args a = some (.on state token k) := by
  unfold isOn
  split
  · rename_i h
    simp [h, eq_comm]
  · rename_i h
    simp only [Bool.false_eq_true, false_iff, not_exists]
    exact fun token k e => h _ _ _ e

theorem isMoveTo_iff :
    s.isMoveTo state a = true ↔ ∃ token k, s.args a = some (.moveTo state token k) := by
  unfold isMoveTo
  split
  · rename_i h
    simp [h, eq_comm]
  · rename_i h
    simp only [Bool.false_eq_true, false_iff, not_exists]
    exact fun token k e => h _ _ _ e

end State

namespace Visits

variable {s : State S C D}

/-- Calls of `on` fetch different objects. -/
theorem on_unique (h : Visits s) {o o' : ℕ} {state state' : S} {token token' : Option C} {k : ℕ}
    (ho : s.args o = some (.on state token k)) (ho' : s.args o' = some (.on state' token' k)) :
    o = o' := by
  obtain ⟨v, -, hshows⟩ := h.visit_of_call ho
  obtain ⟨p, hp⟩ := State.call_of_args_on ho
  obtain ⟨p', hp'⟩ := State.call_of_args_on ho'
  obtain ⟨q, hv, -⟩ := (hshows.ons _ _ _ _).1 hp
  obtain ⟨q', hv', -⟩ := (hshows.ons _ _ _ _).1 hp'
  cases hv.symm.trans hv'
  rfl

/-- A work runs inside its visit: `move_to` has entered the state, and its task is not completed. -/
theorem inside (h : Visits s) {o : ℕ} {state : S} {token : Option C} {k : ℕ}
    (ho : s.call o = some (.on state token k .working)) :
    ∃ a p, s.call a = some (.moveTo state none k p) ∧ p ≠ .fetched ∧ a ∉ s.returned ∧
      (s.driver.object k).StateExited.completions = 0 := by
  obtain ⟨v, -, hshows⟩ := h.visit_of_call (State.args_of_call ho)
  obtain ⟨q, hv, rfl, rfl, hq⟩ := (hshows.ons _ _ _ _).1 ho
  cases q <;> cases hq
  obtain ⟨a, q, hmover, hq⟩ := v.entered o _ hv rfl
  refine ⟨a, q.position, hshows.call_of_mover hmover, ?_, ?_, ?_⟩
  · cases q <;> first | exact absurd rfl hq | exact nofun
  · rw [hshows.returned a q hmover]
    rintro rfl
    exact v.not_done_of_worker hv nofun a hmover
  · have hobject : s.driver.object k = v.completions := hshows.object
    simp [hobject, Visit.completions, Visit.stateExited, hv]

/-- Only one work runs at a time. -/
theorem exclusive (h : Visits s) {o o' : ℕ} {state state' : S} {token token' : Option C} {k k' : ℕ}
    (ho : s.call o = some (.on state token k .working))
    (ho' : s.call o' = some (.on state' token' k' .working)) : o = o' := by
  obtain ⟨a, p, ha, -, hreturned, -⟩ := h.inside ho
  obtain ⟨a', p', ha', -, hreturned', -⟩ := h.inside ho'
  have hm : Moves s.args a k := ⟨_, _, State.args_of_call ha⟩
  have hm' : Moves s.args a' k' := ⟨_, _, State.args_of_call ha'⟩
  -- the two visits are the one whose `move_to` has not returned
  have haa : a = a' := by
    rcases lt_trichotomy a a' with hlt | e | hlt
    · exact absurd (h.sequential a a' k k' hlt hm hm') hreturned
    · exact e
    · exact absurd (h.sequential a' a k' k hlt hm' hm) hreturned'
  subst haa
  cases ha.symm.trans ha'
  exact h.on_unique (State.args_of_call ho) (State.args_of_call ho')

/-- The task of `move_to` is completed with the data of the one work of its visit. -/
theorem completed_with (h : Visits s) {a : ℕ} (ha : a ∈ s.returned) :
    ∃ state k o data, s.args a = some (.moveTo state none k) ∧ s.args o = some (.on state none k) ∧
      s.works k = [(o, data)] ∧ (s.driver.object k).StateExited.result = some (.ok data) := by
  obtain ⟨k, state, token, hargs⟩ := h.returned a ha
  obtain ⟨p, hp⟩ := State.call_of_args_moveTo hargs
  obtain ⟨v, -, hshows⟩ := h.visit_of_call hargs
  obtain ⟨q, hv, rfl, rfl, rfl⟩ := (hshows.moves _ _ _ _).1 hp
  obtain rfl := (hshows.returned a q hv).1 ha
  obtain ⟨o, data, ho⟩ := v.exited a hv
  have hon := State.args_of_call (hshows.call_of_worker ho)
  have hwork : (o, data) ∈ s.worked := (hshows.worked o _ ho data).2 rfl
  refine ⟨v.state, k, o, data, hargs, hon, ?_, hshows.exited_completed.2.2 o data ho⟩
  have hnodup : s.worked.Nodup := List.Nodup.of_map _ h.worked_nodup
  refine eq_singleton_of_nodup (hnodup.filter _) ?_ fun w hw => ?_
  · refine List.mem_filter.2 ⟨hwork, ?_⟩
    simpa [Args.object] using State.objectOf_of_args hon
  · obtain ⟨o', data'⟩ := w
    obtain ⟨hmem, hobject⟩ := List.mem_filter.1 hw
    obtain ⟨state', token', k', ho'⟩ := h.worked o' data' hmem
    have hk : k' = k := (State.objectOf_of_args ho').symm.trans (by simpa using hobject)
    subst hk
    obtain ⟨p', hp'⟩ := State.call_of_args_on ho'
    obtain ⟨q', hv', -⟩ := (hshows.ons _ _ _ _).1 hp'
    cases ho.symm.trans hv'
    have hdata := (hshows.worked o _ ho data').1 hmem
    cases hdata
    rfl

/-- The source that a call of `move_to` awaits is completed at most once. -/
theorem exited_once (h : Visits s) {a : ℕ} {x : Args S C} (ha : s.args a = some x) :
    (s.driver.object x.object).StateExited.completions ≤ 1 := by
  obtain ⟨v, -, hshows⟩ := h.visit_of_call ha
  exact hshows.exited_completed.2.1

theorem returned_nodup (h : Visits s) : s.returned.Nodup :=
  h.returned_sorted.imp fun hlt => hlt.ne

section order

variable [DecidableEq S] {state : S}

theorem mem_ons (h : Visits s) {o : ℕ} {token : Option C} {k : ℕ}
    (ho : s.args o = some (.on state token k)) : o ∈ s.ons state := by
  refine List.mem_filter.2 ⟨List.mem_range.2 ?_, State.isOn_iff.2 ⟨token, k, ho⟩⟩
  by_contra hle
  have hcall := h.wellFormed.fresh o (not_lt.1 hle)
  simp [State.args, hcall] at ho

/-- Calls of `on` on one state, in their order, fetched objects in their order. -/
theorem ons_sorted (h : Visits s) (state : S) :
    ((s.ons state).map s.objectOf).Pairwise (· < ·) := by
  rw [List.pairwise_map]
  refine (List.pairwise_lt_range.filter _).imp_of_mem fun ha hb hlt => ?_
  obtain ⟨t, k, ha⟩ := State.isOn_iff.1 (List.mem_filter.1 ha).2
  obtain ⟨t', k', hb⟩ := State.isOn_iff.1 (List.mem_filter.1 hb).2
  rw [State.objectOf_of_args ha, State.objectOf_of_args hb]
  exact h.ons_lt _ _ state t t' k k' hlt ha hb

/-- Completed calls of `move_to` on one state fetched objects in their order. -/
theorem completed_sorted (h : Visits s) (state : S) :
    ((s.completed state).map s.objectOf).Pairwise (· < ·) := by
  rw [List.pairwise_map]
  refine (h.returned_sorted.filter _).imp_of_mem fun ha hb hlt => ?_
  obtain ⟨t, k, ha⟩ := State.isMoveTo_iff.1 (List.mem_filter.1 ha).2
  obtain ⟨t', k', hb⟩ := State.isMoveTo_iff.1 (List.mem_filter.1 hb).2
  rw [State.objectOf_of_args ha, State.objectOf_of_args hb]
  exact h.moves_lt _ _ state t t' k k' hlt ha hb

/-- **The visits of a state are completed in the order in which the observers called `on`.** -/
theorem completed_initial (h : Visits s) (state : S) :
    (s.completed state).map s.objectOf <+: (s.ons state).map s.objectOf := by
  refine prefix_of_pairwise_lt (h.completed_sorted state) (h.ons_sorted state) (fun k hk => ?_)
    fun k hk k' hk' hlt => ?_
  · obtain ⟨a, ha, rfl⟩ := List.mem_map.1 hk
    obtain ⟨hmem, hmove⟩ := List.mem_filter.1 ha
    obtain ⟨state', k, o, data, hargs, hon, -⟩ := h.completed_with hmem
    obtain ⟨t, k₁, hargs'⟩ := State.isMoveTo_iff.1 hmove
    cases hargs.symm.trans hargs'
    rw [State.objectOf_of_args hargs]
    have hobject : s.objectOf o = k := State.objectOf_of_args hon
    exact List.mem_map.2 ⟨o, h.mem_ons hon, hobject⟩
  · obtain ⟨o, ho, rfl⟩ := List.mem_map.1 hk
    obtain ⟨a, ha, rfl⟩ := List.mem_map.1 hk'
    obtain ⟨t, k, ho⟩ := State.isOn_iff.1 (List.mem_filter.1 ho).2
    obtain ⟨hmem, hmove⟩ := List.mem_filter.1 ha
    obtain ⟨t', k', ha⟩ := State.isMoveTo_iff.1 hmove
    rw [State.objectOf_of_args ho, State.objectOf_of_args ha] at hlt
    rw [State.objectOf_of_args ho]
    have hlt : k < k' := hlt
    obtain ⟨v, hv, hshows⟩ := h.visit_of_call ho
    have hshows : Shows s k v := hshows
    have hv : v.state = state := hv
    -- the visit is over, since the later one was made after it
    have hclosed : v.isOpen = false := by
      by_contra hopen
      have hentry := hshows.entry.2 (by simpa using hopen)
      exact absurd (h.latest _ _ k' hentry (hv ▸ h.wellFormed.args _ _ ha)) (not_le.2 hlt)
    obtain ⟨o', q, hworker, hq⟩ : ∃ o' q, v.worker = some (o', q) ∧ q.holds = false := by
      cases hw : v.worker with
      | none => simp [Visit.isOpen, hw] at hclosed
      | some x => exact ⟨x.1, x.2, rfl, by simpa [Visit.isOpen, hw] using hclosed⟩
    obtain ⟨b, p, hmover, -⟩ := v.entered o' q hworker (by cases q <;> first | rfl | cases hq)
    have hb : s.args b = some (.moveTo state none k) :=
      hv ▸ State.args_of_call (hshows.call_of_mover hmover)
    have hreturned : b ∈ s.returned := by
      rcases lt_trichotomy b a with hba | rfl | hab
      · exact h.sequential b _ k k' hba ⟨_, _, hb⟩ ⟨_, _, ha⟩
      · exact hmem
      · exact absurd (h.moves_lt _ b state _ _ k' k hab ha hb) (not_lt.2 hlt.le)
    have hobject : s.objectOf b = k := State.objectOf_of_args hb
    exact List.mem_map.2 ⟨b, List.mem_filter.2
      ⟨hreturned, State.isMoveTo_iff.2 ⟨none, k, hb⟩⟩, hobject⟩

/-- The `i`-th visit of a state to be completed is that of the `i`-th call of `on`. -/
theorem completed_by (h : Visits s) {i a : ℕ} (ha : (s.completed state)[i]? = some a) :
    ∃ o k data, (s.ons state)[i]? = some o ∧ s.args a = some (.moveTo state none k) ∧
      s.args o = some (.on state none k) ∧ s.works k = [(o, data)] ∧
      (s.driver.object k).StateExited.result = some (.ok data) := by
  obtain ⟨hmem, hmove⟩ := List.mem_filter.1 (List.mem_of_getElem? ha)
  obtain ⟨state', k, o, data, hargs, hon, hworks, hresult⟩ := h.completed_with hmem
  obtain ⟨t, k₁, hargs'⟩ := State.isMoveTo_iff.1 hmove
  cases hargs.symm.trans hargs'
  have hk : ((s.ons state).map s.objectOf)[i]? = some k := by
    have hpre := List.prefix_iff_getElem?.1 (h.completed_initial state)
    have hi : i < ((s.completed state).map s.objectOf).length := by
      rw [List.length_map]
      exact (List.getElem?_eq_some_iff.1 ha).1
    have hobject : s.objectOf a = k := State.objectOf_of_args hargs
    rw [hpre i hi, ← hobject, ← List.getElem?_eq_getElem, List.getElem?_map, ha]
    rfl
  rw [List.getElem?_map, Option.map_eq_some_iff] at hk
  obtain ⟨o', ho', hobject⟩ := hk
  obtain ⟨t', k', hon'⟩ := State.isOn_iff.1 (List.mem_filter.1 (List.mem_of_getElem? ho')).2
  have hk' : k' = k := (State.objectOf_of_args hon').symm.trans hobject
  subst hk'
  cases h.on_unique hon hon'
  exact ⟨o, k', data, ho', hargs, hon, hworks, hresult⟩

end order

end Visits

/-- **Mutual exclusion, and one work for each visit.** In every state of an orderly run, at most one
work runs; a work runs inside the visit of its state; the task of a `move_to` is completed at most
once, after exactly one work ran for its visit, and with the data of that work; and the `i`-th visit
of a state to be completed is completed by the `i`-th call of `on`. -/
theorem visits_exclusive_and_in_order [DecidableEq S] [DecidableEq C] [Inhabited D]
    {s : State S C D} (h : Reach step Orderly init s) :
    (∀ o o' state state' token token' k k', s.call o = some (.on state token k .working) →
      s.call o' = some (.on state' token' k' .working) → o = o') ∧
    (∀ o state token k, s.call o = some (.on state token k .working) →
      ∃ a p, s.call a = some (.moveTo state none k p) ∧ p ≠ .fetched ∧ a ∉ s.returned ∧
        (s.driver.object k).StateExited.completions = 0) ∧
    (s.returned.Nodup ∧ ∀ a x, s.args a = some x →
      (s.driver.object x.object).StateExited.completions ≤ 1) ∧
    (∀ a ∈ s.returned, ∃ state k o data, s.args a = some (.moveTo state none k) ∧
      s.args o = some (.on state none k) ∧ s.works k = [(o, data)] ∧
      (s.driver.object k).StateExited.result = some (.ok data)) ∧
    ∀ (state : S) (i a : ℕ), (s.completed state)[i]? = some a →
      ∃ (o k : ℕ) (data : D), (s.ons state)[i]? = some o ∧ s.args a = some (.moveTo state none k) ∧
        s.args o = some (.on state none k) ∧ s.works k = [(o, data)] ∧
        (s.driver.object k).StateExited.result = some (.ok data) := by
  have hinv := Visits.of_reach h
  exact ⟨fun _ _ _ _ _ _ _ _ => hinv.exclusive, fun _ _ _ _ => hinv.inside,
    ⟨hinv.returned_nodup, fun _ _ => hinv.exited_once⟩, fun _ => hinv.completed_with,
    fun _ _ _ => hinv.completed_by⟩

/-- No token and no call of `move_to`. -/
def orderlyCheck (_ : State S C D) : Label S C D → Bool
  | .on _ token => token.isNone
  | .proceed _ _ => true
  | _ => false

theorem orderly_of_check {s : State S C D} {l : Label S C D} (h : orderlyCheck s l = true) :
    Orderly s l := by
  cases l with
  | moveTo | cancel => cases h
  | «on» state token => simpa [orderlyCheck, Orderly] using h
  | proceed => trivial

/-- A visit whose work writes 7. -/
def visitOnce : List (Label Unit Unit ℕ) :=
  [.proceed 0 0, .on () none, .proceed 0 0, .proceed 1 0, .proceed 1 0, .proceed 1 0, .proceed 1 7,
    .proceed 1 0, .proceed 1 0, .proceed 0 0]

theorem visits_exclusive_and_in_order_once : ∃ s : State Unit Unit ℕ,
    Reach step Orderly init s ∧ (s.completed ())[0]? = some 0 ∧
      ∃ o data, (s.ons ())[0]? = some o ∧ s.works 0 = [(o, data)] := by
  have hrun : (step (init : State Unit Unit ℕ) (.moveTo () none)).bind (fun s =>
      (runWhile orderlyCheck step s visitOnce).map fun s => (s.completed (), s.objectOf 0)) =
      some ([0], 0) := by decide
  obtain ⟨s₁, hs₁, h⟩ := Option.bind_eq_some_iff.1 hrun
  obtain ⟨s, hs, h⟩ := Option.map_eq_some_iff.1 h
  obtain ⟨hcompleted, hobject⟩ := Prod.mk.inj h
  have hfirst : Orderly (init : State Unit Unit ℕ) (.moveTo () none) :=
    ⟨rfl, fun _ _ ⟨_, _, ha⟩ => by cases ha⟩
  have hmoved : Reach step Orderly init s₁ := .tail .refl hfirst hs₁
  have hreach := hmoved.trans (reach_of_runWhile (fun _ _ => orderly_of_check) hs)
  have hzero : (s.completed ())[0]? = some 0 := by simp [hcompleted]
  obtain ⟨o, k, data, ho, hargs, -, hworks, -⟩ :=
    (visits_exclusive_and_in_order hreach).2.2.2.2 () 0 0 hzero
  obtain rfl : k = 0 := (State.objectOf_of_args hargs).symm.trans hobject
  exact ⟨s, hreach, hzero, o, data, ho, hworks⟩

end Arcana.Scheduling
