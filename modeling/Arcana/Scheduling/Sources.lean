import Arcana.Scheduling.Effects

/-!
# Completions of the sources

`move_to` fetches a completions object in one critical section and completes its `StateEntered`
after it; `cancel_enter` takes an entry whose `StateEntered` is not completed. In between both own
the completion, and the second one throws. Likewise two calls of `move_to` that fetch the same
object. In a run in which neither happens every source is completed at most once, no completion
throws, and every `move_to` awaits a source that is in the map or that someone is going to complete
(`sources_completed_once`).

* `SparesMoveTo` and `FetchesOwn` are the conditions on a step; `Separate` puts them together.
* `Once` is who completes which source: there is one for each source, until it is completed.
  `Once.step` says that a step that is separate keeps it so.
* `Single` is the invariant of the runs, with the calls whose completion threw.
* `sources_completed_once` is the result about runs, and `source_completed_twice` a run in which
  both complete the same source.
-/

namespace Arcana.Scheduling

open Function Foundations

variable {S C D : Type*}

/-- The name of a source: its completions object, and which of the two it is. -/
inductive SourceId
  | entered (object : ℕ)
  | exited (object : ℕ)
deriving DecidableEq

/-- The completions object that the source belongs to. -/
def SourceId.object : SourceId → ℕ
  | .entered k | .exited k => k

/-- The source that is completed. -/
def Completion.source : Completion D → SourceId
  | .entered k _ => .entered k
  | .exited k _ => .exited k

/-- How often the source was completed. -/
def Driver.completions (d : Driver S D) : SourceId → ℕ
  | .entered k => (d.object k).StateEntered.completions
  | .exited k => (d.object k).StateExited.completions

/-- `cancel_enter` takes no entry from a `move_to` that is about to complete its `StateEntered`. -/
def SparesMoveTo (s : State S C D) (l : Label S C D) : Prop :=
  ∀ owner state k, s.critical l = some (owner, state, .cancelEnter) →
    s.driver.cancelEnter state = some k → ∀ a c, Moves s.args a k → s.claim a = some c →
      c.source ≠ .entered k

/-- `move_to` fetches no completions object that another `move_to` fetched. -/
def FetchesOwn (s : State S C D) (l : Label S C D) : Prop :=
  ∀ state token k, l = .moveTo state token → s.driver.m_states state = some k →
    ∀ a, ¬ Moves s.args a k

/-- No second call is given the completion of a source. -/
structure Separate (s : State S C D) (l : Label S C D) : Prop where
  window : SparesMoveTo s l
  visit : FetchesOwn s l

/-! ## The invariant -/

/-- Who completes which source, for the driver `d`, the calls `args` and their claims `claim`. -/
structure Once (d : Driver S D) (args : ℕ → Option (Args S C)) (claim : ℕ → Option (Completion D)) :
    Prop where
  claims : ∀ a b c c', claim a = some c → claim b = some c' → c.source = c'.source → a = b
  pending : ∀ a c, claim a = some c → d.completions c.source = 0
  once : ∀ x, d.completions x ≤ 1
  exited : ∀ state k, d.m_states state = some k →
    d.completions (.exited k) = 0 ∧ ∀ a c, claim a = some c → c.source ≠ .exited k
  entered : ∀ state k, d.m_states state = some k →
    (d.completions (.entered k) ≠ 0 → ∃ a, Moves args a k) ∧
      ∀ a c, claim a = some c → c.source = .entered k → Moves args a k
  moved : ∀ a k, Moves args a k →
    d.completions (.entered k) ≠ 0 ∨ ∃ c, claim a = some c ∧ c.source = .entered k
  awaited : ∀ a state token k, args a = some (.moveTo state token k) →
    d.m_states state = some k ∨ d.completions (.exited k) ≠ 0 ∨
      ∃ b c, claim b = some c ∧ c.source = .exited k

theorem Driver.completions_complete (d : Driver S D) (c : Completion D) (x : SourceId) :
    (d.complete c).1.completions x = d.completions x + if x = c.source then 1 else 0 := by
  rw [complete_eq]
  rcases c with ⟨k, r⟩ | ⟨k, r⟩ <;> rcases x with k' | k' <;> by_cases hk : k' = k
  all_goals
    simp [completions, Completions.complete, Completion.object, Completion.source,
      Source.complete, hk]

theorem Driver.threw_complete (d : Driver S D) (c : Completion D) :
    (d.complete c).2 = true ↔ d.completions c.source ≠ 0 := by
  cases c <;> simp [complete, completions, Completion.source, Source.completed, Nat.pos_iff_ne_zero]

theorem Driver.completions_insert [DecidableEq S] (d : Driver S D) (state : S) (x : SourceId) :
    (d.insert state).completions x = if x.object = d.objects then 0 else d.completions x := by
  rcases x with k | k <;> by_cases hk : k = d.objects <;>
    simp [completions, SourceId.object, hk]

theorem Driver.completions_setWorkPending (d : Driver S D) (k : ℕ) (x : SourceId) :
    (d.setWorkPending k).completions x = d.completions x := by
  cases x <;> simp [completions]

@[simp] theorem Completion.object_source (c : Completion D) : c.source.object = c.object := by
  cases c <;> rfl

namespace Once

variable {d d' : Driver S D} {args : ℕ → Option (Args S C)} {claim : ℕ → Option (Completion D)}

theorem init : Once (init : State S C D).driver (fun _ => none : ℕ → Option (Args S C))
    (fun _ => none) where
  claims _ _ _ _ h := by cases h
  pending _ _ h := by cases h
  once x := by cases x <;> exact Nat.zero_le 1
  exited _ _ h := by cases h
  entered _ _ h := by cases h
  moved _ _ h := by cases h.choose_spec.choose_spec
  awaited _ _ _ _ h := by cases h

/-- Nothing changes when an entry and its object are fetched. -/
theorem fetch [DecidableEq S] {state : S} {k : ℕ} (h : Once d args claim)
    (hf : Fetch d state d' k) (hargs : ∀ a x, args a = some x → x.object ≠ d.objects)
    (hclaim : ∀ a c, claim a = some c → c.object ≠ d.objects) : Once d' args claim := by
  cases hf with
  | found _ => exact h
  | inserted hnone =>
    have old (x : SourceId) (hx : x.object ≠ d.objects) :
        (d.insert state).completions x = d.completions x := by
      rw [Driver.completions_insert, if_neg hx]
    have fresh (x : SourceId) (hx : x.object = d.objects) :
        (d.insert state).completions x = 0 := by
      rw [Driver.completions_insert, if_pos hx]
    have unclaimed (x : SourceId) (hx : x.object = d.objects) (a : ℕ) (c : Completion D)
        (ha : claim a = some c) : c.source ≠ x := by
      rintro rfl
      exact hclaim a c ha (by rw [← c.object_source, hx])
    have moves {a k : ℕ} (hm : Moves args a k) : k ≠ d.objects := by
      obtain ⟨_, _, hm⟩ := hm
      exact hargs a _ hm
    have entry {state' : S} {k' : ℕ} (hk : (d.insert state).m_states state' = some k')
        (hne : k' ≠ d.objects) : d.m_states state' = some k' := by
      rw [Driver.insert_m_states, update_apply] at hk
      split at hk
      · exact absurd (Option.some.inj hk).symm hne
      · exact hk
    refine ⟨h.claims, fun a c ha => ?_, fun x => ?_, fun state' k' hk' => ?_,
      fun state' k' hk' => ?_, fun a k' hm => ?_, fun a state' token k' ha => ?_⟩
    · rw [old _ fun hx => unclaimed _ hx a c ha rfl]
      exact h.pending a c ha
    · by_cases hx : x.object = d.objects
      · exact (fresh x hx).trans_le (Nat.zero_le 1)
      · exact (old x hx).trans_le (h.once x)
    · by_cases hx : k' = d.objects
      · exact ⟨fresh (.exited k') hx, unclaimed (.exited k') hx⟩
      · rw [old (.exited k') hx]
        exact h.exited state' k' (entry hk' hx)
    · by_cases hx : k' = d.objects
      · exact ⟨fun hne => absurd (fresh (.entered k') hx) hne,
          fun a c ha e => absurd e (unclaimed (.entered k') hx a c ha)⟩
      · rw [old (.entered k') hx]
        exact h.entered state' k' (entry hk' hx)
    · rw [old (.entered k') (moves hm)]
      exact h.moved a k' hm
    · have hne : k' ≠ d.objects := hargs a _ ha
      rw [old (.exited k') hne]
      refine (h.awaited a state' token k' ha).imp_left fun hk => ?_
      have hstate : state' ≠ state := by
        rintro rfl
        cases hnone.symm.trans hk
      simpa [hstate] using hk

/-- A new call of `move_to` that fetched `k`, which no other call of `move_to` did. -/
theorem addMoveTo {a k : ℕ} {state : S} {token : Option C} (h : Once d args claim)
    (hk : d.m_states state = some k) (hmoves : ∀ b, ¬ Moves args b k) (hargs : args a = none)
    (hclaim : claim a = none) :
    Once d (update args a (some (.moveTo state token k)))
      (update claim a (some (.entered k (.ok ())))) := by
  have unclaimed (b : ℕ) (c : Completion D) (hb : claim b = some c) : c.source ≠ .entered k :=
    fun e => hmoves b ((h.entered state k hk).2 b c hb e)
  have zero : d.completions (.entered k) = 0 := by
    by_contra hne
    obtain ⟨b, hb⟩ := (h.entered state k hk).1 hne
    exact hmoves b hb
  refine ⟨fun b b' c c' hb hb' e => ?_, fun b c hb => ?_, h.once, fun state' k' hk' => ?_,
    fun state' k' hk' => ?_, fun b k' hm => ?_, fun b state' token' k' hb => ?_⟩
  · rcases of_update_eq_some hb with ⟨hba, hc⟩ | ⟨-, hold⟩ <;>
      rcases of_update_eq_some hb' with ⟨hba', hc'⟩ | ⟨-, hold'⟩
    · exact hba.trans hba'.symm
    · cases hc
      exact absurd e.symm (unclaimed b' c' hold')
    · cases hc'
      exact absurd e (unclaimed b c hold)
    · exact h.claims b b' c c' hold hold' e
  · rcases of_update_eq_some hb with ⟨-, hc⟩ | ⟨-, hb⟩
    · cases hc
      exact zero
    · exact h.pending b c hb
  · refine ⟨(h.exited state' k' hk').1, fun b c hb => ?_⟩
    rcases of_update_eq_some hb with ⟨-, hc⟩ | ⟨-, hb⟩
    · cases hc
      exact nofun
    · exact (h.exited state' k' hk').2 b c hb
  · obtain ⟨hcompleted, hclaims⟩ := h.entered state' k' hk'
    refine ⟨fun hne => (hcompleted hne).imp fun b hb => hb.update hargs, fun b c hb e => ?_⟩
    rcases of_update_eq_some hb with ⟨rfl, hc⟩ | ⟨-, hb⟩
    · cases hc
      cases e
      exact ⟨state, token, update_self ..⟩
    · exact (hclaims b c hb e).update hargs
  · obtain ⟨state', token', hb⟩ := hm
    rcases of_update_eq_some hb with ⟨rfl, hx⟩ | ⟨-, hb⟩
    · cases hx
      exact .inr ⟨_, update_self .., rfl⟩
    · refine (h.moved b k' ⟨state', token', hb⟩).imp_right fun hc => ?_
      exact hc.imp fun c hc => ⟨update_eq_some_of_none hclaim hc.1, hc.2⟩
  · rcases of_update_eq_some hb with ⟨-, hx⟩ | ⟨-, hb⟩
    · cases hx
      exact .inl hk
    · refine (h.awaited b state' token' k' hb).imp_right (Or.imp_right fun hc => ?_)
      obtain ⟨b', c, hb', e⟩ := hc
      exact ⟨b', c, update_eq_some_of_none hclaim hb', e⟩

/-- A new call of `on`. -/
theorem addOn {a k : ℕ} {state : S} {token : Option C} (h : Once d args claim)
    (hargs : args a = none) : Once d (update args a (some (.on state token k))) claim := by
  have old {b k' : ℕ} {state' : S} {token' : Option C}
      (hb : update args a (some (.on state token k)) b = some (.moveTo state' token' k')) :
      args b = some (.moveTo state' token' k') := by
    rcases of_update_eq_some hb with ⟨-, hx⟩ | ⟨-, hb⟩
    · cases hx
    · exact hb
  refine ⟨h.claims, h.pending, h.once, h.exited, fun state' k' hk' => ?_, fun b k' hm => ?_,
    fun b state' token' k' hb => h.awaited b state' token' k' (old hb)⟩
  · obtain ⟨hcompleted, hclaims⟩ := h.entered state' k' hk'
    exact ⟨fun hne => (hcompleted hne).imp fun b hb => hb.update hargs,
      fun b c hb e => (hclaims b c hb e).update hargs⟩
  · obtain ⟨state', token', hb⟩ := hm
    exact h.moved b k' ⟨state', token', old hb⟩

theorem setWorkPending {k : ℕ} (h : Once d args claim) : Once (d.setWorkPending k) args claim := by
  have same := d.completions_setWorkPending k
  refine ⟨h.claims, ?_, ?_, ?_, ?_, ?_, ?_⟩
  all_goals simp only [same, Driver.setWorkPending_m_states]
  exacts [h.pending, h.once, h.exited, h.entered, h.moved, h.awaited]

/-- A claim is made true. -/
theorem complete {a : ℕ} {c : Completion D} (h : Once d args claim) (ha : claim a = some c) :
    Once (d.complete c).1 args (update claim a none) := by
  have other {b : ℕ} {c' : Completion D} (hb : update claim a none b = some c') :
      claim b = some c' ∧ c'.source ≠ c.source := by
    rcases of_update_eq_some hb with ⟨-, hx⟩ | ⟨hne, hb⟩
    · cases hx
    · exact ⟨hb, fun e => hne (h.claims b a c' c hb ha e)⟩
  have old {x : SourceId} (hx : x ≠ c.source) :
      (d.complete c).1.completions x = d.completions x := by
    rw [Driver.completions_complete, if_neg hx, Nat.add_zero]
  have new : (d.complete c).1.completions c.source = 1 := by
    rw [Driver.completions_complete, if_pos rfl, h.pending a c ha]
  -- what waited for the claim finds the source completed
  have kept {x : SourceId} {b : ℕ} {c' : Completion D} (hb : claim b = some c')
    (hx : c'.source = x) :
      (d.complete c).1.completions x ≠ 0 ∨ update claim a none b = some c' := by
    by_cases hba : b = a
    · subst hba
      cases ha.symm.trans hb
      rw [← hx, new]
      exact .inl Nat.one_ne_zero
    · exact .inr (by rw [update_of_ne hba, hb])
  have mono {x : SourceId} (hx : d.completions x ≠ 0) : (d.complete c).1.completions x ≠ 0 := by
    rw [Driver.completions_complete]
    omega
  refine ⟨fun b b' c₁ c₂ hb hb' => h.claims b b' c₁ c₂ (other hb).1 (other hb').1,
    fun b c' hb => ?_, fun x => ?_, fun state k hk => ?_, fun state k hk => ?_, fun b k hm => ?_,
    fun b state token k hb => ?_⟩
  · rw [old (other hb).2]
    exact h.pending b c' (other hb).1
  · by_cases hx : x = c.source
    · rw [hx, new]
    · exact (old hx).trans_le (h.once x)
  · obtain ⟨hzero, hclaims⟩ := h.exited state k (by simpa using hk)
    rw [old (hclaims a c ha).symm]
    exact ⟨hzero, fun b c' hb => hclaims b c' (other hb).1⟩
  · obtain ⟨hcompleted, hclaims⟩ := h.entered state k (by simpa using hk)
    refine ⟨fun hne => ?_, fun b c' hb => hclaims b c' (other hb).1⟩
    by_cases hx : SourceId.entered k = c.source
    · exact ⟨a, hclaims a c ha hx.symm⟩
    · rw [old hx] at hne
      exact hcompleted hne
  · rcases h.moved b k hm with hne | ⟨c', hb, e⟩
    · exact .inl (mono hne)
    · exact (kept hb e).imp_right fun hb => ⟨c', hb, e⟩
  · rcases h.awaited b state token k hb with hk | hne | ⟨b', c', hb', e⟩
    · exact .inl (by simpa using hk)
    · exact .inr (.inl (mono hne))
    · exact .inr ((kept hb' e).imp_right fun hb' => ⟨b', c', hb', e⟩)

/-- An entry is taken. -/
theorem take [DecidableEq S] {a k : ℕ} {state : S} {op : Operation D} (h : Once d args claim)
    (hd : ∀ state' k', d.m_states state = some k' → d.m_states state' = some k' → state' = state)
    (hk : op.finds d state = some k) (ha : claim a = none)
    (hwindow : op = .cancelEnter → ∀ b c, Moves args b k → claim b = some c →
      c.source ≠ .entered k) :
    Once (d.erase state) args (update claim a (some (op.completion k))) := by
  have hentry := Operation.m_states_of_finds hk
  have zero : d.completions (op.completion k).source = 0 := by
    cases op with
    | cancelEnter =>
      have hopen := Operation.entered_of_finds hk
      simpa [Driver.completions, Operation.completion, Completion.source, Source.completed]
        using hopen
    | cancelExit | exit => exact (h.exited state k hentry).1
  have unclaimed (b : ℕ) (c : Completion D) (hb : claim b = some c) :
      c.source ≠ (op.completion k).source := by
    cases op with
    | cancelEnter => exact fun e => hwindow rfl b c ((h.entered state k hentry).2 b c hb e) hb e
    | cancelExit | exit => exact (h.exited state k hentry).2 b c hb
  have kept {state' : S} {k' : ℕ} (hk' : (d.erase state).m_states state' = some k') :
      d.m_states state' = some k' ∧ k' ≠ k := by
    rw [Driver.erase_m_states, update_apply] at hk'
    split at hk'
    · cases hk'
    · rename_i hne
      refine ⟨hk', ?_⟩
      rintro rfl
      exact hne (hd state' k' hentry hk')
  have object {x : SourceId} (e : (op.completion k).source = x) : x.object = k := by
    rw [← e, Completion.object_source, Operation.object_completion]
  refine ⟨fun b b' c c' hb hb' e => ?_, fun b c hb => ?_, h.once, fun state' k' hk' => ?_,
    fun state' k' hk' => ?_, fun b k' hm => ?_, fun b state' token k' hb => ?_⟩
  · rcases of_update_eq_some hb with ⟨hba, hc⟩ | ⟨-, hold⟩ <;>
      rcases of_update_eq_some hb' with ⟨hba', hc'⟩ | ⟨-, hold'⟩
    · exact hba.trans hba'.symm
    · cases hc
      exact absurd e.symm (unclaimed b' c' hold')
    · cases hc'
      exact absurd e (unclaimed b c hold)
    · exact h.claims b b' c c' hold hold' e
  · rcases of_update_eq_some hb with ⟨-, hc⟩ | ⟨-, hold⟩
    · cases hc
      exact zero
    · exact h.pending b c hold
  · obtain ⟨hk', hne⟩ := kept hk'
    refine ⟨(h.exited state' k' hk').1, fun b c hb e => ?_⟩
    rcases of_update_eq_some hb with ⟨-, hc⟩ | ⟨-, hold⟩
    · cases hc
      exact hne (object e)
    · exact (h.exited state' k' hk').2 b c hold e
  · obtain ⟨hk', hne⟩ := kept hk'
    refine ⟨(h.entered state' k' hk').1, fun b c hb e => ?_⟩
    rcases of_update_eq_some hb with ⟨-, hc⟩ | ⟨-, hold⟩
    · cases hc
      exact absurd (object e) hne
    · exact (h.entered state' k' hk').2 b c hold e
  · refine (h.moved b k' hm).imp_right fun hmoved => ?_
    obtain ⟨c, hc, e⟩ := hmoved
    exact ⟨c, update_eq_some_of_none ha hc, e⟩
  · rcases h.awaited b state' token k' hb with hk' | hne | ⟨b', c, hb', e⟩
    · by_cases hstate : state' = state
      · subst hstate
        cases hentry.symm.trans hk'
        cases op with
        | cancelEnter =>
          have hm : Moves args b k := ⟨state', token, hb⟩
          rcases h.moved b k hm with hne | ⟨c, hc, e⟩
          · exact absurd zero hne
          · exact absurd e (hwindow rfl b c hm hc)
        | cancelExit | exit => exact .inr (.inr ⟨a, _, update_self .., rfl⟩)
      · exact .inl (by simpa [hstate] using hk')
    · exact .inr (.inl hne)
    · exact .inr (.inr ⟨b', c, update_eq_some_of_none ha hb', e⟩)

end Once

/-! ## Runs -/

/-- A completion of the call threw. -/
def Call.threw : Call S C D → Bool
  | .moveTo _ _ _ .threw | .on _ _ _ .threw | .cancel _ .threw => true
  | _ => false

section

variable [DecidableEq S] [DecidableEq C] [Inhabited D] {s s' : State S C D} {l : Label S C D}

/-- The invariant of the runs in which the calls are separate. -/
structure Single (s : State S C D) : Prop where
  wellFormed : WellFormed s
  once : Once s.driver s.args s.claim
  quiet : ∀ a x, s.call a = some x → x.threw = false

omit [DecidableEq S] [DecidableEq C] [Inhabited D] in
theorem Single.pending (h : Single s) {a : ℕ} {c : Completion D} (ha : s.claim a = some c) :
    (s.driver.complete c).2 = false := by
  have hzero := h.once.pending a c ha
  rw [← Bool.not_eq_true, Driver.threw_complete, hzero]
  exact fun hne => hne rfl

theorem Once.step (h : Once s.driver s.args s.claim) (hw : WellFormed s) (ok : Separate s l)
    (hstep : Step s l s') : Once s'.driver s'.args s'.claim := by
  cases hstep.effect (hw.fresh _ le_rfl) with
  | moveTo hf hargs hclaim =>
    have hfetch := h.fetch hf (fun a x ha => hw.ne_objects ha) fun a c ha => hw.claim_ne_objects ha
    rw [hargs, hclaim]
    refine hfetch.addMoveTo hf.fetched (fun b hb => ?_) hw.args_fresh hw.claim_fresh
    generalize s'.driver = d at hf
    cases hf with
    | found hk => exact ok.visit _ _ _ rfl hk b hb
    | inserted hnone =>
      obtain ⟨state', token', hb⟩ := hb
      exact hw.ne_objects hb rfl
  | «on» hf _ hdriver hargs hclaim =>
    have hfetch := h.fetch hf (fun a x ha => hw.ne_objects ha) fun a c ha => hw.claim_ne_objects ha
    rw [hdriver, hargs, hclaim]
    exact (hfetch.setWorkPending).addOn hw.args_fresh
  | completes hc hdriver hargs hclaim =>
    rw [hdriver, hargs, hclaim]
    exact h.complete hc
  | takes hop hk hnone hdriver hargs hclaim =>
    rw [hdriver, hargs, hclaim]
    refine h.take (fun _ _ => hw.entry_injective) hk hnone ?_
    rintro rfl
    exact ok.window _ _ _ hop hk
  | rest _ hdriver hargs hclaim =>
    rw [hdriver, hargs, hclaim]
    exact h

theorem Single.step (h : Single s) (ok : Separate s l) (hstep : Step s l s') : Single s' := by
  refine ⟨h.wellFormed.step hstep, h.once.step h.wellFormed ok hstep, ?_⟩
  have goesOn {s₁ : State S C D} {a : ℕ} {y : Call S C D} (hcall : s₁.call = s.call)
      (hy : y.threw = false) : ∀ b x, update s₁.call a (some y) b = some x → x.threw = false := by
    intro b x hb
    rw [hcall] at hb
    rcases of_update_eq_some hb with ⟨-, hx⟩ | ⟨-, hb⟩
    · cases hx
      exact hy
    · exact h.quiet b x hb
  cases hstep with
  | moveTo | «on» | cancels => exact goesOn rfl rfl
  | cancelsAgain => exact h.quiet
  | completes ha hx =>
    have hc := hx.claims
    rw [← State.claim_of_call ha] at hc
    refine goesOn rfl ?_
    rw [h.pending hc]
    cases hx <;> rfl
  | takes ha _ _ hx => exact goesOn rfl (by cases hx <;> rfl)
  | passes ha hx => exact goesOn rfl (by cases hx <;> rfl)
  | listens ha hx =>
    refine goesOn (State.addListener_call _ _ _) ?_
    cases hx <;> split <;> rfl
  | moveToReturns ha | enters ha => exact goesOn (State.resetListener_call _ _ _) rfl
  | works ha | signals ha => exact goesOn rfl rfl

theorem Single.of_reach (h : Reach Scheduling.step Separate init s) : Single s := by
  have start : Single (init : State S C D) := ⟨.init, Once.init, fun _ _ ha => by cases ha⟩
  exact h.invariant start fun _ _ _ ha ok hstep => ha.step ok (step_sound hstep)

/-- **Sources are completed at most once.** In every state of a run in which the calls are separate,
no completion has thrown or is going to, and the source that a `move_to` awaits is in the entry of
its state, completed, or about to be completed. -/
theorem sources_completed_once (h : Reach step Separate init s) :
    (∀ x, s.driver.completions x ≤ 1) ∧
      (∀ a x, s.call a = some x → x.threw = false) ∧
      (∀ a c, s.claim a = some c → (s.driver.complete c).2 = false) ∧
      ∀ a state token k, s.args a = some (.moveTo state token k) →
        s.driver.m_states state = some k ∨ s.driver.completions (.exited k) ≠ 0 ∨
          ∃ b c, s.claim b = some c ∧ c.source = .exited k := by
  have hinv := Single.of_reach h
  exact ⟨hinv.once.once, hinv.quiet, fun a c => hinv.pending, hinv.once.awaited⟩

/-- A step that is not separate leaves a completion that is going to throw: its source is completed,
or another call is about to complete it too. -/
theorem overlaps_of_not_separate (h : Single s) (ok : ¬ Separate s l) (hstep : Step s l s') :
    ∃ a c, s'.claim a = some c ∧ ((s'.driver.complete c).2 = true ∨
      ∃ b c', b ≠ a ∧ s'.claim b = some c' ∧ c'.source = c.source) := by
  by_cases hvisit : FetchesOwn s l
  · have hwindow : ¬ SparesMoveTo s l := fun hwindow => ok ⟨hwindow, hvisit⟩
    simp only [SparesMoveTo, not_forall, not_not] at hwindow
    obtain ⟨owner, state, k, hop, hk, a, c, -, hc, e⟩ := hwindow
    cases hstep.effect (h.wellFormed.fresh _ le_rfl) with
    | moveTo | «on» => cases hop
    | completes hc' => cases hc'.symm.trans (State.claim_of_critical hop)
    | rest hnone => cases hk.symm.trans (hnone _ _ _ hop)
    | @takes _ a' _ _ _ _ _ hop' hk' hnone _ _ hclaim =>
      cases hop'.symm.trans hop
      cases hk'.symm.trans hk
      have hc' := update_eq_some_of_none (x := some (Operation.cancelEnter.completion k)) hnone hc
      refine ⟨a', Operation.cancelEnter.completion k, by rw [hclaim, update_self],
        .inr ⟨a, c, ?_, by rw [hclaim, hc'], e⟩⟩
      rintro rfl
      cases hnone.symm.trans hc
  · simp only [FetchesOwn, not_forall, not_not] at hvisit
    obtain ⟨state, token, k, rfl, hk, a, hm⟩ := hvisit
    have hnone := h.wellFormed.claim_fresh
    cases hstep with
    | moveTo hf =>
      cases hf with
      | inserted hne => cases hne.symm.trans hk
      | found hk' =>
        cases hk'.symm.trans hk
        refine ⟨s.calls, .entered k (.ok ()), ?_, ?_⟩
        · rw [State.claim_newCall]
          exact update_self ..
        · rcases h.once.moved a k hm with hne | ⟨c, hc, e⟩
          · exact .inl ((Driver.threw_complete _ _).2 hne)
          · refine .inr ⟨a, c, ?_, ?_, e⟩
            · rintro rfl
              cases hnone.symm.trans hc
            · rw [State.claim_newCall]
              exact update_eq_some_of_none hnone hc

omit [DecidableEq S] [DecidableEq C] [Inhabited D] in
/-- When `move_to` is only called after the tasks of the earlier calls are completed, no object is
fetched for a second `move_to`. -/
theorem fetchesOwn_of_returned (h : Single s)
    (hdone : ∀ a k, Moves s.args a k → s.driver.completions (.exited k) ≠ 0) : FetchesOwn s l :=
  fun state _ k _ hk a hm => hdone a k hm (h.once.exited state k hk).1

end

/-! ## A cancellation inside `move_to` -/

/-- `cancel_enter` takes no entry at all, and `move_to` makes its entry. -/
def separateCheck (s : State S C D) (l : Label S C D) : Bool :=
  match s.critical l, l with
  | some (_, state, .cancelEnter), _ => (s.driver.cancelEnter state).isNone
  | _, .moveTo state _ => (s.driver.m_states state).isNone
  | _, _ => true

theorem separate_of_check {s : State S C D} {l : Label S C D} (h : separateCheck s l = true) :
    Separate s l := by
  refine ⟨fun owner state k hop hk => ?_, fun state token k e hk => ?_⟩
  · simp [separateCheck, hop, hk] at h
  · subst e
    simp [separateCheck, State.critical, hk] at h

/-- The driver calls `move_to` and an observer `on`, whose token is cancelled; the work is
skipped. -/
def cancelAfterMoveTo : List (Label Unit Unit ℕ) :=
  [.moveTo () none, .proceed 0 0, .proceed 0 0, .on () (some ()), .proceed 1 0, .cancel (),
    .proceed 2 0, .proceed 2 0, .proceed 1 0, .proceed 1 0, .proceed 1 0, .proceed 1 0]

theorem sources_completed_once_cancelled : ∃ (s : State Unit Unit ℕ),
    Reach step Separate init s ∧ s.driver.completions (.entered 0) = 1 ∧
      s.driver.completions (.exited 0) = 1 ∧ ∀ x, s.driver.completions x ≤ 1 := by
  have hrun : (runWhile separateCheck step init cancelAfterMoveTo).map (fun s =>
      (s.driver.completions (.entered 0), s.driver.completions (.exited 0))) = some (1, 1) := by
    decide
  obtain ⟨s, hreach, h⟩ := exists_reach_of_runWhile (fun _ _ => separate_of_check) hrun
  obtain ⟨hentered, hexited⟩ := Prod.mk.inj h
  exact ⟨s, hreach, hentered, hexited, (sources_completed_once hreach).1⟩

/-- An observer waits, and its token is cancelled between the critical section of `move_to` and its
completion of `StateEntered`. -/
def cancelInMoveTo : List (Label Unit Unit ℕ) :=
  [.on () (some ()), .proceed 0 0, .moveTo () none, .cancel (), .proceed 2 0, .proceed 2 0,
    .proceed 1 0, .proceed 2 0]

/-- **When the cancellation falls inside `move_to`, both complete the same `StateEntered`**, and the
second completion throws. -/
theorem source_completed_twice : ¬ ∀ s : State Unit Unit ℕ,
    run step init (cancelInMoveTo) = some s → ∀ x, s.driver.completions x ≤ 1 := by
  have hrun : (run step init (cancelInMoveTo)).map (fun s =>
      s.driver.completions (.entered 0)) = some 2 := by decide
  obtain ⟨s, hs, h⟩ := Option.map_eq_some_iff.1 hrun
  intro hall
  have honce := hall s hs (.entered 0)
  omega

end Arcana.Scheduling
