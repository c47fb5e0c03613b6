import Arcana.Threading.PendingTaskScope

/-!
# `when_all`

The three overloads of `when_all` attach a continuation to each of their tasks and complete a task
of their own in the last one that runs. They are near copies of each other: what they differ in is
how they count the tasks that are missing, how they index them, where they store the values and what
they do with no task at all, which is an `Overload` here.

The steps are the rounds of the loop that attaches the continuations, the critical sections of the
continuations, the completion made by the last one, and the completions of the tasks, in any order.
A continuation that is attached to a task that is completed already runs at once in the code; here
it may also run later, as it does when the completion comes from another thread.

* `Overload` is what the overloads differ in: `Overload.ofVoidSpan`, `Overload.ofSpan` and
  `Overload.ofTasks`.
* `WhenAllData.enter` is the critical section of a continuation, and `WhenAllData.outcome` what the
  last one completes the task with.
* `WhenAllState.step` is a step of a call of `when_all`.
* `WhenAllState.Fits` says that the counts of an overload are right for a number of tasks, and
  `WhenAllState.Sound` what holds between the steps then.
* `WhenAllState.Sound.report` is the step of a continuation, and `WhenAllState.Sound.of_reach` says
  of every run that it stays sound.
-/

namespace Arcana.Threading

open Foundations

/-- `when_all_data`. -/
structure WhenAllData (E R : Type*) where
  pending : ℤ
  error : E
  results : List R

/-- What the overloads of `when_all` differ in. -/
structure Overload where
  /-- The count of the missing tasks at first. -/
  size : ℕ → ℤ
  /-- The count after a `-= 1`, or nothing when that is undefined. -/
  decrement : ℤ → Option ℤ
  /-- The index after a `++`. -/
  next : ℕ → ℕ
  /-- Whether the values of the tasks are stored. -/
  values : Bool
  /-- Whether a `when_all` of no task returns a task that is completed. -/
  returnsEmpty : Bool

namespace Overload

/-- `when_all(gsl::span<task<void, ErrorT>>)`: the count is a `size_t`. -/
def ofVoidSpan : Overload where
  size n := n % 2 ^ 64
  decrement count := some ((count - 1) % 2 ^ 64)
  next idx := idx + 1
  values := false
  returnsEmpty := true

/-- `when_all(gsl::span<task<T, ErrorT>>)`: the count is a `size_t`, the index an `unsigned int`. -/
def ofSpan : Overload where
  size n := n % 2 ^ 64
  decrement count := some ((count - 1) % 2 ^ 64)
  next idx := (idx + 1) % 2 ^ 32
  values := true
  returnsEmpty := true

/-- A `size_t` as an `int`. -/
def toInt (n : ℕ) : ℤ := (n + 2 ^ 31) % 2 ^ 32 - 2 ^ 31

/-- An `int` after a `-= 1`: an overflow is undefined. -/
def decrementInt (count : ℤ) : Option ℤ := if count = -2 ^ 31 then none else some (count - 1)

/-- `when_all(task<ArgTs, ErrorT>...)`: the count is an `int`, and the index that of a tuple. -/
def ofTasks : Overload where
  size := toInt
  decrement := decrementInt
  next idx := idx + 1
  values := true
  returnsEmpty := false

variable {R : Type*}

/-- The results at first. -/
def resize [Inhabited R] (o : Overload) (n : ℕ) : List R :=
  if o.values then List.replicate n default else []

/-- The results after the one of a task, as `write_expected_to_tuple` leaves them in a tuple. -/
def store {E : Type*} (o : Overload) (results : List R) (idx : ℕ) : Except E R → List R
  | .ok value => if o.values then results.set idx value else results
  | .error _ => results

end Overload

namespace WhenAllData

variable {E R : Type*} [ErrorType E]

/-- The critical section of a continuation, with the value of `last`. -/
def enter (o : Overload) (data : WhenAllData E R) (idx : ℕ) (exp : Except E R) :
    Option (WhenAllData E R × Bool) :=
  (o.decrement data.pending).map fun pending =>
    ({ pending
       error := PendingTaskScope.record data.error exp
       results := o.store data.results idx exp }, pending == 0)

/-- What the last continuation completes the task with. -/
def outcome (data : WhenAllData E R) : Except E (List R) :=
  if ErrorType.toBool data.error then .error data.error else .ok data.results

end WhenAllData

/-- A call of `when_all` and the results of the tasks that are completed. The additions are the
continuations that were attached, with the index that each of them captured. The completions of the
tasks and the results that the continuations saw, in their order, are histories. -/
structure WhenAllState (τ E R : Type*) where
  data : WhenAllData E R
  idx : ℕ := 0
  finished : τ → Option (Except E R) := fun _ => none
  additions : List (Addition ℕ) := []
  completed : List (Except E (List R)) := []
  completions : List (τ × Except E R) := []
  reports : List (ℕ × Except E R) := []

inductive WhenAllAction (τ E R : Type*)
  | completeTask (task : τ) (result : Except E R)
  /-- The loop over the tasks goes on. -/
  | attach
  | report (j : ℕ)
  | finish (j : ℕ)

namespace WhenAllState

variable {τ E R : Type*} [DecidableEq τ] [ErrorType E]

/-- The call, before its loop. -/
def start [Inhabited R] (o : Overload) (tasks : List τ) : WhenAllState τ E R where
  data :=
    { pending := o.size tasks.length
      error := ErrorType.default
      results := o.resize tasks.length }
  completed := if tasks.isEmpty && o.returnsEmpty then [.ok []] else []

/-- One critical section, or what happens between two of them. -/
def step (o : Overload) (tasks : List τ) (s : WhenAllState τ E R) :
    WhenAllAction τ E R → Option (WhenAllState τ E R)
  | .completeTask task result =>
    if (s.finished task).isNone then
      some { s with
        finished := Function.update s.finished task (some result)
        completions := s.completions ++ [(task, result)] }
    else
      none
  | .attach =>
    if s.idx < tasks.length then
      some { s with
        idx := o.next s.idx
        additions := s.additions ++ [⟨s.idx, .attached⟩] }
    else
      none
  | .report j =>
    match s.additions[j]? with
    | some ⟨idx, .attached⟩ =>
      (tasks[idx]?.bind s.finished).bind fun exp =>
        (s.data.enter o idx exp).map fun result =>
          { s with
            data := result.1
            additions := s.additions.set j ⟨idx, if result.2 then .completing else .done⟩
            reports := s.reports ++ [(j, exp)] }
    | _ => none
  | .finish j =>
    match s.additions[j]? with
    | some ⟨idx, .completing⟩ => some
      { s with
        additions := s.additions.set j ⟨idx, .done⟩
        completed := s.completed ++ [s.data.outcome] }
    | _ => none

/-- An error of a task converts to `true`. -/
def Truthful (a : WhenAllAction τ E R) : Prop :=
  ∀ task e, a = .completeTask task (.error e) → ErrorType.toBool e = true

/-- Every error of a task converts to `true`. -/
def Truthy (_ : WhenAllState τ E R) (a : WhenAllAction τ E R) : Prop := Truthful a

/-! ### The steps -/

variable {o : Overload} {tasks : List τ} {s s' : WhenAllState τ E R}

theorem step_completeTask {task : τ} {result : Except E R}
    (h : step o tasks s (.completeTask task result) = some s') :
    s.finished task = none ∧ s' =
      { s with
        finished := Function.update s.finished task (some result)
        completions := s.completions ++ [(task, result)] } := by
  obtain ⟨hnone, hs'⟩ := Option.ite_none_right_eq_some.1 h
  exact ⟨Option.isNone_iff_eq_none.1 hnone, (Option.some.inj hs').symm⟩

theorem step_attach (h : step o tasks s .attach = some s') : s.idx < tasks.length ∧ s' =
    { s with
      idx := o.next s.idx
      additions := s.additions ++ [⟨s.idx, .attached⟩] } := by
  obtain ⟨hlt, hs'⟩ := Option.ite_none_right_eq_some.1 h
  exact ⟨hlt, (Option.some.inj hs').symm⟩

/-- A continuation that runs sees the result of its task. -/
theorem step_report {j : ℕ} (h : step o tasks s (.report j) = some s') :
    ∃ idx task exp pending, s.additions[j]? = some ⟨idx, .attached⟩ ∧ tasks[idx]? = some task ∧
      s.finished task = some exp ∧ o.decrement s.data.pending = some pending ∧ s' =
      { s with
        data :=
          { pending
            error := PendingTaskScope.record s.data.error exp
            results := o.store s.data.results idx exp }
        additions := s.additions.set j ⟨idx, if pending == 0 then .completing else .done⟩
        reports := s.reports ++ [(j, exp)] } := by
  simp only [step] at h
  split at h
  · rename_i idx hj
    obtain ⟨exp, hexp, h⟩ := Option.bind_eq_some_iff.1 h
    obtain ⟨task, htask, hfinished⟩ := Option.bind_eq_some_iff.1 hexp
    obtain ⟨result, henter, rfl⟩ := Option.map_eq_some_iff.1 h
    obtain ⟨pending, hpending, rfl⟩ := Option.map_eq_some_iff.1 henter
    exact ⟨idx, task, exp, pending, hj, htask, hfinished, hpending, rfl⟩
  · cases h

theorem step_finish {j : ℕ} (h : step o tasks s (.finish j) = some s') :
    ∃ idx, s.additions[j]? = some ⟨idx, .completing⟩ ∧ s' =
      { s with
        additions := s.additions.set j ⟨idx, .done⟩
        completed := s.completed ++ [s.data.outcome] } := by
  simp only [step] at h
  split at h
  · rename_i idx hj
    exact ⟨idx, hj, (Option.some.inj h).symm⟩
  · cases h

/-- A continuation that ran has seen the result, whether it is the last one or not. -/
theorem reported_ite (last : Bool) :
    (if last then Progress.completing else .done).reported = true := by
  cases last <;> rfl

/-! ### The invariant -/

/-- The counts of an overload are right for `n` tasks. -/
structure Fits (o : Overload) (n : ℕ) : Prop where
  size : o.size n = n
  decrement : ∀ count : ℤ, 0 < count → count ≤ n → o.decrement count = some (count - 1)
  next : ∀ idx < n, o.next idx = idx + 1

/-- What holds between the steps. The one completion is made, or is up to the one continuation that
is about to make it, when the count is zero. -/
structure Sound (o : Overload) (tasks : List τ) (s : WhenAllState τ E R) : Prop where
  idx_le : s.idx ≤ tasks.length
  length : s.additions.length = s.idx
  captured : ∀ j (x : Addition ℕ), s.additions[j]? = some x → x.task = j ∧ x.progress ≠ .counted
  pending : s.data.pending = (tasks.length - s.idx + ScopeState.unreported s.additions : ℕ)
  once : s.completed.length + ScopeState.completing s.additions =
    if s.data.pending = 0 ∧ (tasks = [] → o.returnsEmpty = true) then 1 else 0
  error : s.data.error = (ScopeState.firstError s.reports).getD ErrorType.default
  outcome : ∀ r ∈ s.completed, r = s.data.outcome
  truthy : ∀ task e, s.finished task = some (.error e) → ErrorType.toBool e = true
  reports : ∀ j exp, (j, exp) ∈ s.reports → ∃ (x : Addition ℕ) (task : τ),
    s.additions[j]? = some x ∧ x.progress.reported = true ∧ tasks[j]? = some task ∧
    s.finished task = some exp
  covered : ∀ j (x : Addition ℕ), s.additions[j]? = some x → x.progress.reported = true →
    ∃ exp, (j, exp) ∈ s.reports
  results : o.values = true → s.data.results.length = tasks.length ∧
    ∀ j value, (j, .ok value) ∈ s.reports → s.data.results[j]? = some value

omit [DecidableEq τ] in
theorem Sound.initial [Inhabited R] (hfits : Fits o tasks.length) :
    Sound o tasks (start o tasks : WhenAllState τ E R) := by
  refine ⟨Nat.zero_le _, rfl, by simp [start], ?_, ?_, rfl, fun r hr => ?_, nofun, nofun,
    by simp [start], fun hvalues => ?_⟩
  · simp [start, hfits.size, ScopeState.unreported]
  · cases tasks with
    | nil =>
      have hsize : o.size 0 = 0 := hfits.size
      cases hempty : o.returnsEmpty <;> simp [start, hsize, ScopeState.completing, hempty]
    | cons t tasks =>
      have hsize : o.size (tasks.length + 1) ≠ 0 := fun e => by
        have hcons := hfits.size
        simp only [List.length_cons, e] at hcons
        omega
      simp [start, hsize, ScopeState.completing]
  · cases tasks with
    | nil =>
      cases hempty : o.returnsEmpty with
      | false => simp [start, hempty] at hr
      | true =>
        obtain rfl : r = .ok [] := by simpa [start, hempty] using hr
        simp [start, WhenAllData.outcome, ErrorType.toBool_default, Overload.resize]
    | cons t tasks => simp [start] at hr
  · simp [start, Overload.resize, hvalues]

omit [DecidableEq τ] in
/-- The errors seen convert to `true`. -/
theorem Sound.truthy_of_firstError (h : Sound o tasks s) {e : E}
    (he : ScopeState.firstError s.reports = some e) : ErrorType.toBool e = true := by
  obtain ⟨⟨j, exp⟩, hmem, hexp⟩ := List.exists_of_findSome?_eq_some he
  obtain ⟨x, task, -, -, -, hfinished⟩ := h.reports j exp hmem
  cases exp with
  | error e' =>
    cases hexp
    exact h.truthy _ _ hfinished
  | ok value => cases hexp

theorem Sound.completeTask (h : Sound o tasks s) {task : τ} {result : Except E R}
    (htruthy : Truthful (.completeTask task result))
    (hstep : step o tasks s (.completeTask task result) = some s') : Sound o tasks s' := by
  obtain ⟨hnone, rfl⟩ := step_completeTask hstep
  refine { h with truthy := fun t e he => ?_, reports := fun j exp hj => ?_ }
  · by_cases ht : t = task
    · subst ht
      simp only [Function.update_self, Option.some.injEq] at he
      exact htruthy t e (he ▸ rfl)
    · simp only [Function.update_of_ne ht] at he
      exact h.truthy t e he
  · obtain ⟨x, t, hx, hreported, ht, hfinished⟩ := h.reports j exp hj
    refine ⟨x, t, hx, hreported, ht, ?_⟩
    have hne : t ≠ task := by
      rintro rfl
      cases hnone.symm.trans hfinished
    exact (Function.update_of_ne hne _ _).trans hfinished

/-- The loop attaches a continuation to the next task. -/
theorem Sound.attach (h : Sound o tasks s) (hfits : Fits o tasks.length)
    (hstep : step o tasks s .attach = some s') : Sound o tasks s' := by
  obtain ⟨hlt, rfl⟩ := step_attach hstep
  have hnext := hfits.next s.idx hlt
  have hpending := h.pending
  refine { h with
    idx_le := ?_, length := ?_, captured := fun j x hx => ?_, pending := ?_, once := ?_,
                  reports := fun j exp hj => ?_, covered := fun j x hx hreported => ?_ }
  · simp only [hnext]
    omega
  · simp [hnext, h.length]
  · rw [List.getElem?_append] at hx
    split_ifs at hx with hj
    · exact h.captured j x hx
    · obtain ⟨hj', rfl⟩ := List.getElem?_eq_some_iff.1 hx
      simp only [List.length_singleton, Nat.lt_one_iff] at hj'
      have hlength := h.length
      simp only [List.getElem_singleton]
      exact ⟨by omega, by simp⟩
  · simp only [hnext, hpending, ScopeState.unreported_append (p := .attached) rfl]
    omega
  · simp only [ScopeState.completing_append (p := .attached) (by simp)]
    exact h.once
  · obtain ⟨x, t, hx, hrest⟩ := h.reports j exp hj
    exact ⟨x, t, (List.getElem?_append_left (List.getElem?_eq_some_iff.1 hx).1).trans hx, hrest⟩
  · rw [List.getElem?_append] at hx
    split_ifs at hx with hj
    · exact h.covered j x hx hreported
    · obtain rfl := List.mem_singleton.1 (List.mem_of_getElem? hx)
      cases hreported

omit [DecidableEq τ] in
/-- A continuation that has not run is counted. -/
theorem Sound.pending_pos (h : Sound o tasks s) {j idx : ℕ}
    (hj : s.additions[j]? = some ⟨idx, .attached⟩) :
    0 < s.data.pending ∧ s.data.pending ≤ tasks.length := by
  have hpos : 0 < ScopeState.unreported s.additions :=
    List.countP_pos_iff.2 ⟨_, List.mem_of_getElem? hj, rfl⟩
  have hle : ScopeState.unreported s.additions ≤ s.additions.length := List.countP_le_length
  have hpending := h.pending
  have hidx := h.idx_le
  rw [h.length] at hle
  omega

/-- **A continuation takes itself from the count**, and the last one sees that nothing is
missing. -/
theorem Sound.report (h : Sound o tasks s) (hfits : Fits o tasks.length) {j : ℕ}
    (hstep : step o tasks s (.report j) = some s') :
    Sound o tasks s' ∧ s'.data.pending = s.data.pending - 1 := by
  obtain ⟨idx, task, exp, pending, hj, htask, hfinished, hdecrement, rfl⟩ := step_report hstep
  obtain ⟨hpos, hle⟩ := h.pending_pos hj
  obtain rfl : s.data.pending - 1 = pending :=
    Option.some.inj ((hfits.decrement _ hpos hle).symm.trans hdecrement)
  obtain rfl : idx = j := (h.captured j _ hj).1
  have hlt : idx < s.additions.length := (List.getElem?_eq_some_iff.1 hj).1
  -- nobody has completed the task so far
  have honce := h.once
  rw [if_neg (by omega)] at honce
  have hcompleted : s.completed = [] := List.length_eq_zero_iff.1 (by omega)
  generalize hq : (if s.data.pending - 1 == 0 then Progress.completing else .done) = q
  have hreported : q.reported = true := hq ▸ reported_ite _
  have hcounted : q ≠ .counted := by
    rw [← hq]
    split_ifs <;> simp
  have hlast : q = .completing ↔ s.data.pending - 1 = 0 := by
    rw [← hq, ite_eq_left_iff]
    simp
  have hunreported := ScopeState.unreported_set hj q
  have hcompleting := ScopeState.completing_set hj q
  have hattached : Progress.reported .attached = false := rfl
  simp only [hreported, hattached, Bool.not_true, Bool.not_false, Bool.toNat_false, Bool.toNat_true,
    Nat.add_zero] at hunreported
  refine ⟨⟨h.idx_le, ?_, fun i x hx => ?_, ?_, ?_, ?_, ?_, h.truthy, fun i e hi => ?_,
    fun i x hx hx' => ?_, fun hvalues => ?_⟩, rfl⟩
  · simp [h.length]
  · rcases of_getElem?_set hx with ⟨rfl, rfl⟩ | ⟨-, hx⟩
    · exact ⟨rfl, hcounted⟩
    · exact h.captured i x hx
  · have hpending := h.pending
    simp only
    omega
  · have hne : tasks ≠ [] := by
      rintro rfl
      cases htask
    simp only [hcompleted, List.length_nil, hne, false_imp_iff, and_true, ← hlast]
    simp only [reduceCtorEq, decide_false, Bool.toNat_false, Nat.add_zero] at hcompleting
    split_ifs with hcase
    · simp only [decide_eq_true hcase, Bool.toNat_true] at hcompleting
      omega
    · simp only [decide_eq_false hcase, Bool.toNat_false] at hcompleting
      omega
  · simp only [h.error]
    exact ScopeState.record_firstError (fun e => h.truthy_of_firstError) idx exp
  · simp [hcompleted]
  · rcases List.mem_append.1 hi with hi | hi
    · obtain ⟨x, t, hx, hx', hrest⟩ := h.reports i e hi
      have hne : idx ≠ i := by
        rintro rfl
        cases hj.symm.trans hx
        cases hx'
      exact ⟨x, t, (List.getElem?_set_ne hne).trans hx, hx', hrest⟩
    · cases List.mem_singleton.1 hi
      exact ⟨_, task, List.getElem?_set_self hlt, hreported, htask, hfinished⟩
  · rcases of_getElem?_set hx with ⟨rfl, -⟩ | ⟨-, hx⟩
    · exact ⟨exp, by simp⟩
    · obtain ⟨e, he⟩ := h.covered i x hx hx'
      exact ⟨e, List.mem_append_left _ he⟩
  · obtain ⟨hresults, hstored⟩ := h.results hvalues
    have hidx : idx < s.data.results.length := hresults ▸ (List.getElem?_eq_some_iff.1 htask).1
    have hother {i : ℕ} {value : R} (hi : (i, .ok value) ∈ s.reports) : idx ≠ i := by
      rintro rfl
      obtain ⟨x, -, hx, hx', -⟩ := h.reports idx _ hi
      cases hj.symm.trans hx
      cases hx'
    cases exp with
    | error e =>
      refine ⟨hresults, fun i value hi => hstored i value ?_⟩
      simpa using hi
    | ok v =>
      simp only [Overload.store, if_pos hvalues]
      refine ⟨by simpa using hresults, fun i value hi => ?_⟩
      rcases List.mem_append.1 hi with hi | hi
      · rw [List.getElem?_set_ne (hother hi)]
        exact hstored i value hi
      · cases List.mem_singleton.1 hi
        exact List.getElem?_set_self hidx

/-- The last continuation completes the task. -/
theorem Sound.finish (h : Sound o tasks s) {j : ℕ} (hstep : step o tasks s (.finish j) = some s') :
    Sound o tasks s' := by
  obtain ⟨idx, hj, rfl⟩ := step_finish hstep
  have hpos : 0 < ScopeState.completing s.additions :=
    List.countP_pos_iff.2 ⟨_, List.mem_of_getElem? hj, decide_eq_true rfl⟩
  have hunreported := ScopeState.unreported_set hj .done
  have hcompleting := ScopeState.completing_set hj .done
  simp only [Progress.reported, Bool.not_true, Bool.toNat_false, Nat.add_zero] at hunreported
  simp only [decide_true, Bool.toNat_true, reduceCtorEq, decide_false,
    Bool.toNat_false] at hcompleting
  refine { h with length := ?_, captured := fun i x hx => ?_, pending := ?_, once := ?_,
                  outcome := fun r hr => ?_, reports := fun i e hi => ?_,
                  covered := fun i x hx hx' => ?_ }
  · simp [h.length]
  · rcases of_getElem?_set hx with ⟨rfl, rfl⟩ | ⟨-, hx⟩
    · exact ⟨(h.captured i _ hj).1, by simp⟩
    · exact h.captured i x hx
  · rw [hunreported]
    exact h.pending
  · have honce := h.once
    simp only [List.length_append, List.length_singleton]
    omega
  · rcases List.mem_append.1 hr with hr | hr
    · exact h.outcome r hr
    · exact List.mem_singleton.1 hr
  · obtain ⟨x, t, hx, hx', hrest⟩ := h.reports i e hi
    by_cases hne : j = i
    · subst hne
      exact ⟨_, t, List.getElem?_set_self (List.getElem?_eq_some_iff.1 hj).1, rfl, hrest⟩
    · exact ⟨x, t, (List.getElem?_set_ne hne).trans hx, hx', hrest⟩
  · rcases of_getElem?_set hx with ⟨rfl, -⟩ | ⟨-, hx⟩
    · exact h.covered i _ hj rfl
    · exact h.covered i x hx hx'

theorem Sound.step (h : Sound o tasks s) (hfits : Fits o tasks.length) {a : WhenAllAction τ E R}
    (htruthy : Truthful a) (hstep : step o tasks s a = some s') : Sound o tasks s' := by
  cases a with
  | completeTask task result => exact h.completeTask htruthy hstep
  | attach => exact h.attach hfits hstep
  | report j => exact (h.report hfits hstep).1
  | finish j => exact h.finish hstep

theorem Sound.of_reach [Inhabited R] (hfits : Fits o tasks.length)
    (h : Reach (WhenAllState.step o tasks) Truthy (start o tasks) s) : Sound o tasks s :=
  h.invariant (.initial hfits) fun _ _ _ ha htruthy hstep => ha.step hfits htruthy hstep

end WhenAllState

end Arcana.Threading
