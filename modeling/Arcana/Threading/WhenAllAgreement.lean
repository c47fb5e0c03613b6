import Mathlib.Data.List.Dedup
import Arcana.Threading.WhenAllResult

/-!
# The variadic `when_all` and the one over a span

Both are calls of one protocol, so that a run of one is compared with the run of the other on the
same steps. They agree on a list of tasks exactly when it is not empty and its length fits in an
`int` (`WhenAllState.agree_iff`). Without tasks, the variadic overload attaches no continuation, and
nobody completes its task. From `2 ^ 31` tasks on, its count starts at another number than that of
the tasks.

* `WhenAllState.Agree` says that the two overloads do the same on the same steps.
* `WhenAllState.Level` and `WhenAllState.Alike` relate the two calls in a run, with `Alike.step` as
  step lemma.
* `WhenAllState.countAfter` is the count after some continuations, and `WhenAllState.probe` the
  steps that tell two counts apart.
* `WhenAllState.agree_iff` is the result.
-/

namespace Arcana.Threading

open Foundations

namespace WhenAllState

variable {τ E R : Type*} [DecidableEq τ] [ErrorType E] [Inhabited R] {o : Overload} {tasks : List τ}
  {s s' v v' : WhenAllState τ E R}

/-- The completions of a task whose values are those of an overload. -/
def seen (o : Overload) (s : WhenAllState τ E R) : List (Except E (List R)) :=
  s.completed.map fun r => if o.values then r else r.map fun _ => []

/-- A `when_all` over a span and the variadic one do the same on the same steps, and none of them is
left uncompleted when the tasks are completed and the code has taken its steps. -/
structure Agree (E R : Type*) [ErrorType E] [Inhabited R] (o : Overload) (tasks : List τ) :
    Prop where
  same : ∀ ls : List (WhenAllAction τ E R), (∀ a ∈ ls, Truthful a) →
    (run (step o tasks) (start o tasks) ls).map (seen o) =
      (run (step .ofTasks tasks) (start .ofTasks tasks) ls).map (seen o)
  complete : ∀ o' ∈ [o, .ofTasks], ∀ ls : List (WhenAllAction τ E R), (∀ a ∈ ls, Truthful a) →
    ∀ s, run (step o' tasks) (start o' tasks) ls = some s → (∀ t ∈ tasks, (s.finished t).isSome) →
      (∀ a, Internal a → step o' tasks s a = none) → s.completed ≠ []

theorem toInt_of_lt {n : ℕ} (h : n < 2 ^ 31) : Overload.toInt n = n := by
  simp only [Overload.toInt]
  omega

theorem decrement_ofTasks {count : ℤ} (h : 0 < count) :
    Overload.ofTasks.decrement count = some (count - 1) := by
  simp only [Overload.ofTasks, Overload.decrementInt]
  exact if_neg (by omega)

theorem fits_ofTasks {n : ℕ} (h : n < 2 ^ 31) : Fits Overload.ofTasks n where
  size := by
    simp only [Overload.ofTasks]
    exact toInt_of_lt h
  decrement _ hpos _ := decrement_ofTasks hpos
  next _ _ := rfl

/-! ## In step -/

/-- The two calls are at the same point. -/
structure Level (o : Overload) (s v : WhenAllState τ E R) : Prop where
  idx : v.idx = s.idx
  finished : v.finished = s.finished
  additions : v.additions = s.additions
  error : v.data.error = s.data.error
  results : o.values = true → v.data.results = s.data.results
  seen : seen o s = seen o v

/-- They are, and they have the counts that follow. -/
structure Alike (o : Overload) (tasks : List τ) (s v : WhenAllState τ E R) : Prop
    extends Level o s v where
  sound : Sound o tasks s
  sound' : Sound .ofTasks tasks v

omit [DecidableEq τ] in
theorem Alike.initial (hfits : Fits o tasks.length) (hlt : tasks.length < 2 ^ 31)
    (hne : tasks ≠ []) :
    Alike o tasks (start o tasks : WhenAllState τ E R) (start .ofTasks tasks) where
  sound := .initial hfits
  sound' := .initial (fits_ofTasks hlt)
  idx := by simp only [start]
  finished := by simp only [start]
  additions := by simp only [start]
  error := by simp only [start]
  results hvalues := by simp [start, Overload.resize, hvalues, Overload.ofTasks]
  seen := by simp [WhenAllState.seen, start, hne]

omit [DecidableEq τ] [Inhabited R] in
/-- The counts are the same. -/
theorem Alike.pending (h : Alike o tasks s v) : v.data.pending = s.data.pending := by
  rw [h.sound.pending, h.sound'.pending, h.idx, h.additions]

omit [DecidableEq τ] [Inhabited R] in
theorem Alike.outcome (h : Alike o tasks s v) :
    (if o.values then s.data.outcome else s.data.outcome.map fun _ => []) =
      if o.values then v.data.outcome else v.data.outcome.map fun _ => [] := by
  simp only [WhenAllData.outcome, h.error]
  split_ifs with hvalues
  · rfl
  · rw [h.results hvalues]
  · rfl
  · rfl

omit [Inhabited R] in
theorem step_report_of {j idx : ℕ} {task : τ} {exp : Except E R} {pending : ℤ}
    (hj : s.additions[j]? = some ⟨idx, .attached⟩) (htask : tasks[idx]? = some task)
    (hexp : s.finished task = some exp) (hdecrement : o.decrement s.data.pending = some pending) :
    WhenAllState.step o tasks s (.report j) = some
      { s with
        data :=
          { pending
            error := PendingTaskScope.record s.data.error exp
            results := o.store s.data.results idx exp }
        additions := s.additions.set j ⟨idx, if pending == 0 then .completing else .done⟩
        reports := s.reports ++ [(j, exp)] } := by
  simp only [WhenAllState.step, hj, htask, Option.bind_some, hexp, WhenAllData.enter, hdecrement,
    Option.map_some]

omit [Inhabited R] in
theorem step_finish_of {j idx : ℕ} (hj : s.additions[j]? = some ⟨idx, .completing⟩) :
    WhenAllState.step o tasks s (.finish j) = some
      { s with
        additions := s.additions.set j ⟨idx, .done⟩
        completed := s.completed ++ [s.data.outcome] } := by
  simp only [WhenAllState.step, hj]

omit [Inhabited R] in
/-- A continuation that can run in one call can run in the other. -/
theorem Alike.report (hfits : Fits o tasks.length) (hlt : tasks.length < 2 ^ 31)
    (h : Alike o tasks s v) {j : ℕ} :
    Option.Rel (Level o) (WhenAllState.step o tasks s (.report j))
      (WhenAllState.step .ofTasks tasks v (.report j)) := by
  have hdecrement {j idx : ℕ} (hj : s.additions[j]? = some ⟨idx, .attached⟩) :
      o.decrement s.data.pending = some (s.data.pending - 1) :=
    hfits.decrement _ (h.sound.pending_pos hj).1 (h.sound.pending_pos hj).2
  have hdecrement' {j idx : ℕ} (hj : s.additions[j]? = some ⟨idx, .attached⟩) :
      Overload.ofTasks.decrement v.data.pending = some (s.data.pending - 1) := by
    rw [h.pending]
    exact (fits_ofTasks hlt).decrement _ (h.sound.pending_pos hj).1 (h.sound.pending_pos hj).2
  refine rel_of_isSome (fun s' hs => ?_) fun v' hv hnone => ?_
  · obtain ⟨idx, task, exp, pending, hj, htask, hexp, hpending, rfl⟩ := step_report hs
    obtain rfl : s.data.pending - 1 = pending :=
      Option.some.inj ((hdecrement hj).symm.trans hpending)
    refine ⟨_, step_report_of (h.additions ▸ hj) htask (h.finished ▸ hexp) (hdecrement' hj), ?_⟩
    refine ⟨h.idx, h.finished, by rw [h.additions], by rw [h.error], fun hvalues => ?_, h.seen⟩
    simp only [h.results hvalues]
    cases exp <;> simp [Overload.store, hvalues, Overload.ofTasks]
  · obtain ⟨idx, task, exp, pending, hj, htask, hexp, -, -⟩ := step_report hv
    rw [h.additions] at hj
    rw [h.finished] at hexp
    cases hnone.symm.trans (step_report_of hj htask hexp (hdecrement hj))

omit [Inhabited R] in
/-- They are completed with the same value, or with the same error. -/
theorem Alike.finish (h : Alike o tasks s v) {j : ℕ} :
    Option.Rel (Level o) (WhenAllState.step o tasks s (.finish j))
      (WhenAllState.step .ofTasks tasks v (.finish j)) := by
  refine rel_of_isSome (fun s' hs => ?_) fun v' hv hnone => ?_
  · obtain ⟨idx, hj, rfl⟩ := step_finish hs
    refine ⟨_, step_finish_of (h.additions ▸ hj), h.idx, h.finished, by rw [h.additions], h.error,
      h.results, ?_⟩
    have hseen := h.seen
    have houtcome := h.outcome
    simp only [WhenAllState.seen] at hseen
    simp only [WhenAllState.seen, List.map_append, hseen, List.map_cons, houtcome, List.map_nil]
  · obtain ⟨idx, hj, -⟩ := step_finish hv
    rw [h.additions] at hj
    cases hnone.symm.trans (step_finish_of hj)

omit [Inhabited R] in
/-- **The two calls take the same steps.** -/
theorem Alike.step (hfits : Fits o tasks.length) (hlt : tasks.length < 2 ^ 31)
    (h : Alike o tasks s v) {a : WhenAllAction τ E R} (ha : Truthful a) :
    Option.Rel (Alike o tasks) (WhenAllState.step o tasks s a)
      (WhenAllState.step .ofTasks tasks v a) := by
  have hfits' : Fits .ofTasks tasks.length := fits_ofTasks hlt
  -- the invariants are kept, so it is enough that the fields agree
  suffices hrel : Option.Rel (Level o) (WhenAllState.step o tasks s a)
      (WhenAllState.step .ofTasks tasks v a) by
    rcases cases_of_rel hrel with ⟨hs, hv⟩ | ⟨s', v', hs, hv, hlevel⟩
    · rw [hs, hv]
      exact .none
    · rw [hs, hv]
      exact .some ⟨hlevel, h.sound.step hfits ha hs, h.sound'.step hfits' ha hv⟩
  cases a with
  | completeTask task result =>
    simp only [WhenAllState.step, h.finished]
    by_cases hnone : (s.finished task).isNone
    · rw [if_pos hnone, if_pos hnone]
      exact .some ⟨h.idx, rfl, h.additions, h.error, h.results, h.seen⟩
    · rw [if_neg hnone, if_neg hnone]
      exact .none
  | attach =>
    simp only [WhenAllState.step, h.idx]
    by_cases hmore : s.idx < tasks.length
    · rw [if_pos hmore, if_pos hmore]
      refine .some ⟨?_, h.finished, by rw [h.additions], h.error, h.results, h.seen⟩
      simp only [hfits.next _ hmore, hfits'.next _ hmore]
    · rw [if_neg hmore, if_neg hmore]
      exact .none
  | report j => exact h.report hfits hlt
  | finish j => exact h.finish

omit [DecidableEq τ] in
theorem fits_of_lt (ho : o = .ofVoidSpan ∨ o = .ofSpan) (hlt : tasks.length < 2 ^ 31) :
    Fits o tasks.length := by
  rcases ho with rfl | rfl
  · exact fits_ofVoidSpan (by omega)
  · exact fits_ofSpan (by omega)

theorem agree_of_lt (ho : o = .ofVoidSpan ∨ o = .ofSpan) (hne : tasks ≠ [])
    (hlt : tasks.length < 2 ^ 31) : Agree E R o tasks where
  same ls hls := by
    have hfits := fits_of_lt ho hlt
    have hrel := rel_run (fun s v a h ha => Alike.step hfits hlt h ha) hls
      (Alike.initial (E := E) (R := R) hfits hlt hne)
    rcases cases_of_rel hrel with ⟨hs, hv⟩ | ⟨s, v, hs, hv, halike⟩
    · rw [hs, hv]
    · rw [hs, hv, Option.map_some, Option.map_some, halike.seen]
  complete o' ho' ls hls s hs hall hquiet := by
    have hfits : Fits o' tasks.length := by
      rcases List.mem_pair.1 ho' with rfl | rfl
      · exact fits_of_lt ho hlt
      · exact fits_ofTasks hlt
    have hsound : Sound o' tasks s :=
      invariant_of_run (fun _ _ _ ha htruthful hstep => ha.step hfits htruthful hstep) hls
        (.initial hfits) hs
    have hleft : left tasks s = 0 := by
      by_contra hleft
      obtain ⟨a, ha, hstep⟩ := hsound.exists_step hfits hall hleft
      exact hstep (hquiet a ha)
    have hlength := hsound.completed_of_left (fun hnil => absurd hnil hne) hleft
    exact List.ne_nil_of_length_pos (by omega)

/-! ## A run that tells them apart -/

/-- The tasks complete with values. -/
def completeAll (tasks : List τ) : List (WhenAllAction τ E R) :=
  tasks.dedup.map fun t => .completeTask t (.ok default)

/-- The first rounds of the loop, each with the continuation that it attaches. -/
def rounds : ℕ → List (WhenAllAction τ E R)
  | 0 => []
  | k + 1 => rounds k ++ [.attach, .report k]

/-- The count after some continuations. -/
def countAfter (o : Overload) (n : ℕ) : ℕ → Option ℤ
  | 0 => some (o.size n)
  | k + 1 => (countAfter o n k).bind o.decrement

theorem countAfter_of_le {n : ℕ} {c : ℤ} (hsize : o.size n = c)
    (hdecrement : ∀ count : ℤ, 0 < count → count ≤ c → o.decrement count = some (count - 1)) {k : ℕ}
    (hk : (k : ℤ) ≤ c) : countAfter o n k = some (c - k) := by
  induction k with
  | zero => simp [countAfter, hsize]
  | succ k ih =>
    rw [countAfter, ih (by omega), Option.bind_some, hdecrement _ (by omega) (by omega)]
    congr 1
    omega

theorem eq_of_countAfter_ofTasks {n k : ℕ} {c : ℤ} (h : countAfter .ofTasks n k = some c) :
    c = Overload.toInt n - k := by
  induction k generalizing c with
  | zero =>
    simp only [countAfter, Overload.ofTasks, Option.some.injEq] at h
    omega
  | succ k ih =>
    obtain ⟨c', hc', h⟩ := Option.bind_eq_some_iff.1 h
    have hc := ih hc'
    simp only [Overload.ofTasks, Overload.decrementInt, Option.ite_none_left_eq_some,
      Option.some.injEq] at h
    omega

/-- The tasks are completed, and as many continuations have run as the loop attached. -/
structure Rounded (o : Overload) (tasks : List τ) (k : ℕ) (s : WhenAllState τ E R) (count : ℤ) :
    Prop where
  finished : ∀ t ∈ tasks, s.finished t = some (.ok default)
  idx : s.idx ≤ k
  length : s.additions.length = k
  pending : s.data.pending = count
  last : ∀ j, k = j + 1 →
    ∃ idx, s.additions[j]? = some ⟨idx, if count == 0 then .completing else .done⟩

theorem run_completeAll (o : Overload) (tasks : List τ) {l : List τ} (hl : l.Nodup)
    (hnone : ∀ t ∈ l, s.finished t = none) :
    ∃ s', run (WhenAllState.step o tasks) s (l.map fun t => .completeTask t (.ok default)) =
      some s' ∧
      (∀ t, s'.finished t = if t ∈ l then some (.ok default) else s.finished t) ∧ s'.idx = s.idx ∧
      s'.additions = s.additions ∧ s'.data = s.data := by
  induction l generalizing s with
  | nil => exact ⟨s, rfl, by simp, rfl, rfl, rfl⟩
  | cons t l ih =>
    obtain ⟨hnew, hl⟩ := List.nodup_cons.1 hl
    obtain ⟨ht, hnone⟩ := List.forall_mem_cons.1 hnone
    have hstep : WhenAllState.step o tasks s (.completeTask t (.ok default)) = some
        { s with
          finished := Function.update s.finished t (some (.ok default))
          completions := s.completions ++ [(t, .ok default)] } :=
      if_pos (Option.isNone_iff_eq_none.2 ht)
    obtain ⟨s', hrun, hfinished, hrest⟩ := ih hl (s := { s with
        finished := Function.update s.finished t (some (.ok default))
        completions := s.completions ++ [(t, .ok default)] }) fun t' ht' => by
      have hne : t' ≠ t := by
        rintro rfl
        exact hnew ht'
      exact (Function.update_of_ne hne _ _).trans (hnone t' ht')
    refine ⟨s', ?_, fun t' => ?_, hrest⟩
    · rw [List.map_cons, run, hstep]
      exact hrun
    · rw [hfinished]
      by_cases ht' : t' = t
      · subst ht'
        simp
      · simp [ht']

theorem Rounded.initial (o : Overload) (tasks : List τ) : ∃ s : WhenAllState τ E R,
    run (WhenAllState.step o tasks) (start o tasks) (completeAll tasks) = some s ∧
      Rounded o tasks 0 s (o.size tasks.length) := by
  obtain ⟨s, hrun, hfinished, hidx, hadditions, hdata⟩ := run_completeAll o tasks
    (s := (start o tasks : WhenAllState τ E R)) tasks.nodup_dedup fun _ _ => rfl
  refine ⟨s, hrun, fun t ht => ?_, hidx.le, ?_, ?_, nofun⟩
  · rw [hfinished, if_pos (List.mem_dedup.2 ht)]
  · rw [hadditions]
    rfl
  · rw [hdata]
    rfl

/-- One more round does what the count allows. -/
theorem Rounded.round (hnext : ∀ idx, o.next idx ≤ idx + 1) {k : ℕ} {count : ℤ}
    (h : Rounded o tasks k s count) (hk : k < tasks.length) :
    Option.Rel (Rounded o tasks (k + 1)) (run (WhenAllState.step o tasks) s [.attach, .report k])
      (o.decrement count) := by
  have hlt : s.idx < tasks.length := h.idx.trans_lt hk
  have hlength := h.length
  have htask := List.getElem?_eq_getElem hlt
  have hfinished := h.finished _ (List.getElem_mem hlt)
  obtain ⟨a, hattach, hidx, hadditions, hdata, hsame⟩ : ∃ a,
      WhenAllState.step o tasks s .attach = some a ∧ a.idx = o.next s.idx ∧
        a.additions = s.additions ++ [⟨s.idx, .attached⟩] ∧ a.data = s.data ∧
        a.finished = s.finished := ⟨_, if_pos hlt, rfl, rfl, rfl, rfl⟩
  have hk' : a.additions[k]? = some ⟨s.idx, .attached⟩ := by
    rw [hadditions, ← hlength, List.getElem?_concat_length]
  rw [← hsame] at hfinished
  rw [run, hattach, Option.bind_some, run]
  cases hdecrement : o.decrement count with
  | none =>
    simp only [WhenAllState.step, hk', htask, Option.bind_some, hfinished, WhenAllData.enter, hdata,
      h.pending, hdecrement, Option.map_none, Option.bind_none]
    exact .none
  | some pending =>
    rw [step_report_of hk' htask hfinished (hdata ▸ h.pending ▸ hdecrement), Option.bind_some, run]
    refine .some ⟨hsame ▸ h.finished, ?_, ?_, rfl, fun j hj => ?_⟩
    · rw [hidx]
      exact (hnext _).trans (Nat.succ_le_succ h.idx)
    · simp [hadditions, hlength]
    · obtain rfl := Nat.succ.inj hj
      refine ⟨s.idx, List.getElem?_set_self ?_⟩
      simp [hadditions, hlength]

theorem rel_rounds (hnext : ∀ idx, o.next idx ≤ idx + 1) {k : ℕ} (hk : k ≤ tasks.length) :
    Option.Rel (Rounded o tasks k)
      (run (WhenAllState.step o tasks) (start o tasks : WhenAllState τ E R)
        (completeAll tasks ++ rounds k)) (countAfter o tasks.length k) := by
  induction k with
  | zero =>
    obtain ⟨s, hrun, hs⟩ := Rounded.initial (E := E) (R := R) o tasks
    rw [rounds, List.append_nil, hrun]
    exact .some hs
  | succ k ih =>
    rw [rounds, ← List.append_assoc, run_append, countAfter]
    rcases cases_of_rel (ih (by omega)) with ⟨hs, hcount⟩ | ⟨s, count, hs, hcount, hrounded⟩
    · rw [hs, hcount]
      exact .none
    · rw [hs, hcount]
      exact hrounded.round hnext hk

/-- The steps that tell two counts apart. -/
def probe (tasks : List τ) (k : ℕ) : List (WhenAllAction τ E R) :=
  completeAll tasks ++ rounds (k + 1) ++ [.finish k]

/-- **The last of some continuations completes the task exactly if the count is zero.** -/
theorem isSome_probe_iff (hnext : ∀ idx, o.next idx ≤ idx + 1) {k : ℕ} (hk : k < tasks.length) :
    (run (WhenAllState.step o tasks) (start o tasks : WhenAllState τ E R) (probe tasks k)).isSome ↔
      countAfter o tasks.length (k + 1) = some 0 := by
  rw [probe, run_append]
  rcases cases_of_rel (rel_rounds (E := E) (R := R) hnext (Nat.succ_le_of_lt hk)) with
    ⟨hs, hcount⟩ | ⟨s, count, hs, hcount, hrounded⟩
  · simp [hs, hcount]
  · obtain ⟨idx, hlast⟩ := hrounded.last k rfl
    rw [hs, hcount, Option.bind_some, run]
    by_cases hzero : count = 0
    · subst hzero
      rw [step_finish_of hlast]
      simp [run]
    · rw [beq_false_of_ne hzero, if_neg Bool.false_ne_true] at hlast
      simp [WhenAllState.step, hlast, hzero]

omit [ErrorType E] [DecidableEq τ] [Inhabited R] in
theorem not_mem_rounds (k : ℕ) (task : τ) (result : Except E R) :
    .completeTask task result ∉ (rounds k : List (WhenAllAction τ E R)) := by
  induction k with
  | zero => simp [rounds]
  | succ k ih => simp [rounds, ih]

theorem truthful_probe (k : ℕ) (a : WhenAllAction τ E R) (ha : a ∈ probe tasks k) : Truthful a := by
  rintro task e rfl
  simp [probe, completeAll, not_mem_rounds] at ha

theorem Agree.countAfter_iff (h : Agree E R o tasks) (hnext : ∀ idx, o.next idx ≤ idx + 1) {k : ℕ}
    (hk : k < tasks.length) :
    countAfter o tasks.length (k + 1) = some 0 ↔
    countAfter .ofTasks tasks.length (k + 1) = some 0 := by
  have hsame := congrArg Option.isSome (h.same (probe tasks k) (truthful_probe k))
  rw [Option.isSome_map, Option.isSome_map] at hsame
  rw [← isSome_probe_iff (E := E) (R := R) hnext hk, hsame]
  exact isSome_probe_iff (fun _ => le_rfl) hk

/-- **The variadic `when_all` agrees with the one over a span exactly on the lists that are not
empty and have fewer than `2 ^ 31` tasks.** -/
theorem agree_iff (span : Span τ) (ho : o = .ofVoidSpan ∨ o = .ofSpan) :
    Agree E R o span.tasks ↔ 0 < span.tasks.length ∧ span.tasks.length < 2 ^ 31 := by
  refine ⟨fun h => ?_, fun h => agree_of_lt ho (List.ne_nil_of_length_pos h.1) h.2⟩
  have hne : span.tasks ≠ [] := by
    intro hnil
    have hsame := h.same [] nofun
    rcases ho with rfl | rfl <;>
      simp [run, seen, start, hnil, Overload.ofVoidSpan, Overload.ofSpan, Overload.ofTasks] at hsame
  refine ⟨List.length_pos_iff.2 hne, not_le.1 fun hle => ?_⟩
  have hlt := span.size_lt
  have hnext : ∀ idx, o.next idx ≤ idx + 1 := by
    rcases ho with rfl | rfl
    · exact fun idx => le_rfl
    · exact fun idx => Nat.mod_le _ _
  have hspan {k : ℕ} (hk : k ≤ span.tasks.length) :
      countAfter o span.tasks.length k = some ((span.tasks.length : ℤ) - k) := by
    refine countAfter_of_le ?_ (fun count hpos hcount => ?_) (by omega)
      <;> rcases ho with rfl | rfl <;>
      simp only [Overload.ofVoidSpan, Overload.ofSpan, Option.some.injEq] <;> omega
  have hint : Overload.toInt span.tasks.length < 2 ^ 31 := by
    simp only [Overload.toInt]
    omega
  by_cases hcount : 0 < Overload.toInt span.tasks.length
  · -- the variadic one completes its task before the others have run
    obtain ⟨k, hk⟩ := Int.eq_succ_of_zero_lt hcount
    have hzero : countAfter .ofTasks span.tasks.length (k + 1) =
        some (Overload.toInt span.tasks.length - (k + 1 : ℕ)) :=
      countAfter_of_le (by simp only [Overload.ofTasks])
        (fun count hpos _ => decrement_ofTasks hpos) (by omega)
    have hiff := h.countAfter_iff hnext (k := k) (by omega)
    rw [hspan (by omega), hzero, Option.some.injEq, Option.some.injEq] at hiff
    omega
  · -- its count is never zero again
    have hiff := h.countAfter_iff hnext (k := span.tasks.length - 1) (by omega)
    rw [hspan (by omega)] at hiff
    have hzero := eq_of_countAfter_ofTasks (hiff.1 (by congr 1; omega))
    omega

/-- Two tasks, over which the two overloads agree. -/
theorem agree_pair : 0 < [4, 5].length ∧ Agree ℤ ℕ .ofSpan ([4, 5] : List ℕ) :=
  ⟨by decide, (agree_iff ⟨[4, 5], by decide⟩ (.inr rfl)).2 ⟨by decide, by decide⟩⟩

/-- **Without tasks the variadic `when_all` returns a task that nobody completes**, and the one over
a span returns a completed one. -/
theorem not_agree_nil : ¬ Agree ℤ ℕ .ofSpan ([] : List ℕ) ∧
    (start .ofSpan [] : WhenAllState ℕ ℤ ℕ).completed = [.ok []] ∧
    ∀ s : WhenAllState ℕ ℤ ℕ, Reach (step .ofTasks []) anyStep (start .ofTasks []) s →
      s.completed = [] := by
  refine ⟨fun h => ?_, rfl, fun s h => ?_⟩
  · have hsame := h.same [] nofun
    simp [run, seen, start, Overload.ofSpan, Overload.ofTasks] at hsame
  · have hnone : s.additions = [] ∧ s.completed = [] := by
      refine h.invariant (I := fun s => s.additions = [] ∧ s.completed = [])
        (by simp [start, Overload.ofTasks]) fun a l b ha _ hstep => ?_
      cases l with
      | completeTask task result =>
        obtain ⟨-, rfl⟩ := step_completeTask hstep
        exact ha
      | attach => exact absurd (step_attach hstep).1 (Nat.not_lt_zero _)
      | report j =>
        obtain ⟨_, _, _, _, hj, -⟩ := step_report hstep
        simp [ha.1] at hj
      | finish j =>
        obtain ⟨_, hj, -⟩ := step_finish hstep
        simp [ha.1] at hj
    exact hnone.2

end WhenAllState

end Arcana.Threading
