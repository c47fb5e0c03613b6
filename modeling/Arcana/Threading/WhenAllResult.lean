import Arcana.Threading.WhenAll

/-!
# What `when_all` over a span reports

A `when_all` completes its task once, after all the tasks, with their values or with an error when
one of them failed. The error is that of the first failure that a continuation saw. The
continuations of the tasks that are completed already run inside of the loop, in the order of the
span, so this need not be the task that failed first.

The overload for values indexes the tasks with an `unsigned int`. Over `2 ^ 32` tasks or more its
loop does not end (`attach_ne_none_of_le`), and nothing is said of it beyond.

* `WhenAllState.InOrder`: the tasks complete one after another, once all continuations are attached.
* `WhenAllState.Beforehand`: the tasks are completed before the call.
* `WhenAllState.waits_for_everyone`: what a `when_all` over a span completes its task with, and the
  order of the failures in the two cases.
* `WhenAllState.not_first_completed`: the error need not be that of the task that failed first.
-/

namespace Arcana.Threading

open Foundations

/-- A `gsl::span`, whose size is a `size_t`. -/
structure Span (τ : Type*) where
  tasks : List τ
  size_lt : tasks.length < 2 ^ 64

namespace WhenAllState

variable {τ E R : Type*} [DecidableEq τ] [ErrorType E] {o : Overload} {tasks : List τ}
  {s s' : WhenAllState τ E R}

/-! ## The counts of the overloads -/

theorem fits_ofVoidSpan {n : ℕ} (h : n < 2 ^ 64) : Fits Overload.ofVoidSpan n where
  size := by
    simp only [Overload.ofVoidSpan]
    omega
  decrement count hpos hle := by
    simp only [Overload.ofVoidSpan, Option.some.injEq]
    omega
  next _ _ := rfl

theorem fits_ofSpan {n : ℕ} (h : n < 2 ^ 32) : Fits Overload.ofSpan n where
  size := by
    simp only [Overload.ofSpan]
    omega
  decrement count hpos hle := by
    simp only [Overload.ofSpan, Option.some.injEq]
    omega
  next idx hidx := by
    simp only [Overload.ofSpan]
    omega

/-- From `2 ^ 32` tasks on, the loop of the overload for values goes on for ever. -/
theorem attach_ne_none_of_le [Inhabited R] (hle : 2 ^ 32 ≤ tasks.length)
    (h : Reach (step .ofSpan tasks) anyStep (start .ofSpan tasks) s) :
    step .ofSpan tasks s (.attach : WhenAllAction τ E R) ≠ none := by
  have hidx : s.idx < 2 ^ 32 := by
    refine h.invariant (I := fun s => s.idx < 2 ^ 32) (by simp [start]) fun a l b ha _ hstep => ?_
    cases l with
    | completeTask task result =>
      obtain ⟨-, rfl⟩ := step_completeTask hstep
      exact ha
    | attach =>
      obtain ⟨-, rfl⟩ := step_attach hstep
      exact Nat.mod_lt _ (by decide)
    | report j =>
      obtain ⟨_, _, _, _, -, -, -, -, rfl⟩ := step_report hstep
      exact ha
    | finish j =>
      obtain ⟨_, -, rfl⟩ := step_finish hstep
      exact ha
  simp only [step, if_pos (hidx.trans_le hle), ne_eq, reduceCtorEq, not_false_eq_true]

/-! ## The completion -/

omit [DecidableEq τ] in
theorem Sound.length_le (h : Sound o tasks s) : s.completed.length ≤ 1 := by
  have honce := h.once
  split_ifs at honce <;> omega

omit [DecidableEq τ] in
/-- When nothing is missing, every task was seen by its continuation. -/
theorem Sound.seen (h : Sound o tasks s) (hpending : s.data.pending = 0) {j : ℕ} {task : τ}
    (hj : tasks[j]? = some task) :
    ∃ exp, (j, exp) ∈ s.reports ∧ s.finished task = some exp := by
  have hcount := h.pending
  have hlt := (List.getElem?_eq_some_iff.1 hj).1
  have hidx := h.idx_le
  have hunreported : ScopeState.unreported s.additions = 0 := by omega
  have hj' : j < s.additions.length := by
    rw [h.length]
    omega
  have hmem := List.getElem_mem hj'
  obtain ⟨exp, hexp⟩ := h.covered j _ (List.getElem?_eq_getElem hj')
    (ScopeState.unreported_eq_zero.1 hunreported _ hmem)
  obtain ⟨-, task', -, -, htask', hfinished⟩ := h.reports j exp hexp
  cases hj.symm.trans htask'
  exact ⟨exp, hexp, hfinished⟩

omit [DecidableEq τ] in
theorem Sound.pending_eq_zero (h : Sound o tasks s) (hne : s.completed ≠ []) :
    s.data.pending = 0 := by
  by_contra hpending
  have honce := h.once
  rw [if_neg fun hzero => hpending hzero.1, Nat.add_eq_zero_iff, List.length_eq_zero_iff] at honce
  exact hne honce.1

omit [DecidableEq τ] in
/-- The task is completed with the first error seen. -/
theorem Sound.outcome_eq (h : Sound o tasks s) :
    s.data.outcome = match ScopeState.firstError s.reports with
      | some e => .error e
      | none => .ok s.data.results := by
  rw [WhenAllData.outcome, h.error]
  cases hfirst : ScopeState.firstError s.reports with
  | none => exact if_neg (by simp [ErrorType.toBool_default])
  | some e => exact if_pos (h.truthy_of_firstError hfirst)

omit [DecidableEq τ] in
/-- When nothing is missing, an error was seen exactly if a task failed. -/
theorem Sound.firstError_isSome_iff (h : Sound o tasks s) (hpending : s.data.pending = 0) :
    (ScopeState.firstError s.reports).isSome ↔ ∃ t ∈ tasks, ∃ e, s.finished t = some
    (.error e) := by
  constructor
  · intro hsome
    obtain ⟨e, he⟩ := Option.isSome_iff_exists.1 hsome
    obtain ⟨⟨j, exp⟩, hmem, hexp⟩ := List.exists_of_findSome?_eq_some he
    obtain ⟨-, t, -, -, ht, hfinished⟩ := h.reports j exp hmem
    cases exp with
    | error e' => exact ⟨t, List.mem_of_getElem? ht, e', hfinished⟩
    | ok value => cases hexp
  · rintro ⟨t, ht, e, he⟩
    obtain ⟨j, hj⟩ := List.getElem?_of_mem ht
    obtain ⟨exp, hexp, hfinished⟩ := h.seen hpending hj
    cases he.symm.trans hfinished
    rw [← Option.ne_none_iff_isSome]
    intro hnone
    cases List.findSome?_eq_none_iff.1 hnone _ hexp

/-! ## The steps that are left -/

/-- The steps that the code takes by itself. -/
def Internal (a : WhenAllAction τ E R) : Prop := ∀ task result, a ≠ .completeTask task result

/-- A bound on the number of these steps: three for a task to come, two for a continuation that has
not run and one for the completion. -/
def left (tasks : List τ) (s : WhenAllState τ E R) : ℕ :=
  3 * (tasks.length - s.idx) + 2 * ScopeState.unreported s.additions +
  ScopeState.completing s.additions

/-- Each of these steps is one less. -/
theorem left_lt (hfits : Fits o tasks.length) {a : WhenAllAction τ E R} (ha : Internal a)
    (hstep : WhenAllState.step o tasks s a = some s') :
    left tasks s' < left tasks s := by
  cases a with
  | completeTask task result => exact absurd rfl (ha task result)
  | attach =>
    obtain ⟨hlt, rfl⟩ := step_attach hstep
    have hnext := hfits.next s.idx hlt
    simp only [left, hnext, ScopeState.unreported_append (p := .attached) rfl,
      ScopeState.completing_append (p := .attached) (by simp)]
    omega
  | report j =>
    obtain ⟨idx, task, exp, pending, hj, -, -, -, rfl⟩ := step_report hstep
    generalize hq : (if pending == 0 then Progress.completing else .done) = q
    have hreported : q.reported = true := hq ▸ reported_ite _
    have hattached : Progress.reported .attached = false := rfl
    have hunreported := ScopeState.unreported_set hj q
    have hcompleting := ScopeState.completing_set hj q
    have hle : (decide (q = .completing)).toNat ≤ 1 := Bool.toNat_le _
    simp only [hreported, hattached, Bool.not_true, Bool.not_false, Bool.toNat_false,
      Bool.toNat_true] at hunreported
    simp only [left]
    omega
  | finish j =>
    obtain ⟨idx, hj, rfl⟩ := step_finish hstep
    have hunreported := ScopeState.unreported_set hj .done
    have hcompleting := ScopeState.completing_set hj .done
    simp only [left]
    simp [Progress.reported] at hunreported hcompleting ⊢
    omega

/-- As long as one is left and the tasks are completed, one of them can be taken. -/
theorem Sound.exists_step (h : Sound o tasks s) (hfits : Fits o tasks.length)
    (hall : ∀ t ∈ tasks, (s.finished t).isSome) (hleft : left tasks s ≠ 0) :
    ∃ a, Internal a ∧ WhenAllState.step o tasks s a ≠ none := by
  by_cases hidx : s.idx < tasks.length
  · exact ⟨.attach, by simp [Internal], by simp [WhenAllState.step, hidx]⟩
  · by_cases hunreported : ScopeState.unreported s.additions = 0
    · have hpos : 0 < ScopeState.completing s.additions := by
        simp only [left] at hleft
        omega
      obtain ⟨x, hx, hx'⟩ := List.countP_pos_iff.1 hpos
      obtain ⟨j, hj⟩ := List.getElem?_of_mem hx
      obtain ⟨idx, progress⟩ := x
      obtain rfl : progress = .completing := of_decide_eq_true hx'
      exact ⟨.finish j, by simp [Internal], by simp [WhenAllState.step, hj]⟩
    · obtain ⟨x, hx, hx'⟩ := List.countP_pos_iff.1 (Nat.pos_of_ne_zero hunreported)
      obtain ⟨j, hj⟩ := List.getElem?_of_mem hx
      obtain ⟨hidx', hcounted⟩ := h.captured j x hj
      obtain ⟨idx, progress⟩ := x
      obtain rfl : progress = .attached := by cases progress <;> simp_all [Progress.reported]
      obtain rfl : idx = j := hidx'
      have hlt := (List.getElem?_eq_some_iff.1 hj).1
      rw [h.length] at hlt
      have htask := List.getElem?_eq_getElem (hlt.trans_le h.idx_le)
      obtain ⟨exp, hexp⟩ := Option.isSome_iff_exists.1 (hall _ (List.mem_of_getElem? htask))
      obtain ⟨hpos, hle⟩ := h.pending_pos hj
      have hdecrement := hfits.decrement _ hpos hle
      exact ⟨.report idx, by simp [Internal],
        by simp [WhenAllState.step, hj, htask, hexp, WhenAllData.enter, hdecrement]⟩

omit [DecidableEq τ] in
/-- When none is left, the task is completed. -/
theorem Sound.completed_of_left (h : Sound o tasks s) (hempty : tasks = [] → o.returnsEmpty = true)
    (hleft : left tasks s = 0) : s.completed.length = 1 := by
  have hpending := h.pending
  have honce := h.once
  have hidx := h.idx_le
  simp only [left] at hleft
  rw [if_pos ⟨by omega, hempty⟩] at honce
  omega

/-! ## The order of the failures -/

/-- The error of the task that failed first. -/
def firstFailure (tasks : List τ) (completions : List (τ × Except E R)) : Option E :=
  completions.findSome? fun x => if x.1 ∈ tasks then ScopeState.errorOf x.2 else none

/-- A continuation is attached and has not run. -/
def Waits (s : WhenAllState τ E R) (j : ℕ) : Prop := s.additions[j]? = some ⟨j, .attached⟩

/-- The tasks complete one after another: each when all the continuations are attached and those of
the tasks completed before have run. -/
def InOrder (tasks : List τ) (s : WhenAllState τ E R) (a : WhenAllAction τ E R) : Prop :=
  ∀ task result, a = .completeTask task result → tasks.length ≤ s.idx ∧
    ∀ j t, s.Waits j → tasks[j]? = some t → s.finished t = none

/-- The continuations have seen all the failures, or all but the last one, which some of them are
still to see. -/
structure Follows (tasks : List τ) (s : WhenAllState τ E R) : Prop where
  begun : s.idx < tasks.length → s.completions = []
  finished : ∀ t exp, s.finished t = some exp ↔ (t, exp) ∈ s.completions
  order : ScopeState.firstError s.reports = firstFailure tasks s.completions ∨
    ∃ seen t exp j, s.completions = seen ++ [(t, exp)] ∧ t ∈ tasks ∧
      ScopeState.firstError s.reports = firstFailure tasks seen ∧ s.Waits j ∧ tasks[j]? = some t ∧
      ∀ i t', s.Waits i → tasks[i]? = some t' → s.finished t' ≠ none → t' = t

omit [ErrorType E] in
theorem firstFailure_append (completions : List (τ × Except E R)) (t : τ) (exp : Except E R) :
    firstFailure tasks (completions ++ [(t, exp)]) =
      (firstFailure tasks completions).or (if t ∈ tasks then ScopeState.errorOf exp else none) := by
  rw [firstFailure, List.findSome?_append, List.findSome?_singleton, firstFailure]

theorem Follows.initial [Inhabited R] : Follows tasks (start o tasks : WhenAllState τ E R) :=
  ⟨fun _ => rfl, by simp [start], .inl rfl⟩

theorem Follows.completeTask (h : Follows tasks s) (hs : Sound o tasks s) {task : τ}
    {result : Except E R} (horder : InOrder tasks s (.completeTask task result))
    (hstep : step o tasks s (.completeTask task result) = some s') : Follows tasks s' := by
  obtain ⟨hnone, rfl⟩ := step_completeTask hstep
  obtain ⟨hbegun, hquiet⟩ := horder task result rfl
  have hnew : ∀ exp, (task, exp) ∉ s.completions := fun exp hmem => by
    cases hnone.symm.trans ((h.finished _ _).2 hmem)
  refine ⟨fun hlt => absurd hlt (Nat.not_lt.2 hbegun), fun t exp => ?_, ?_⟩
  · by_cases ht : t = task
    · subst ht
      simp [hnew, eq_comm]
    · simp [ht, h.finished]
  · have hall : ScopeState.firstError s.reports = firstFailure tasks s.completions := by
      refine h.order.resolve_right ?_
      rintro ⟨seen, t, exp, j, hcompletions, -, -, hj, ht, -⟩
      have hfinished := (h.finished t exp).2 (by simp [hcompletions])
      cases hfinished.symm.trans (hquiet j t hj ht)
    by_cases hmem : task ∈ tasks
    · obtain ⟨j, hj⟩ := List.getElem?_of_mem hmem
      have hlt : j < s.additions.length := by
        rw [hs.length]
        exact (List.getElem?_eq_some_iff.1 hj).1.trans_le hbegun
      have hget := List.getElem?_eq_getElem hlt
      obtain ⟨hidx, hcounted⟩ := hs.captured j _ hget
      -- the continuation has not run, since the task is not completed
      have hattached : s.Waits j := by
        have hunseen : s.additions[j].progress.reported ≠ true := fun hreported => by
          obtain ⟨exp, hexp⟩ := hs.covered j _ hget hreported
          obtain ⟨-, t, -, -, ht, hfinished⟩ := hs.reports j exp hexp
          cases hj.symm.trans ht
          cases hnone.symm.trans hfinished
        rw [Waits, hget]
        generalize s.additions[j] = x at hidx hcounted hunseen
        obtain ⟨idx, progress⟩ := x
        obtain rfl : idx = j := hidx
        cases progress <;> simp_all [Progress.reported]
      refine .inr ⟨s.completions, task, result, j, rfl, hmem, hall, hattached, hj, ?_⟩
      intro i t' hi ht' hne
      by_contra hother
      simp only [Function.update_of_ne hother] at hne
      exact hne (hquiet i t' hi ht')
    · left
      simp only [firstFailure_append, if_neg hmem, Option.or_none]
      exact hall

/-- A continuation that runs sees the last failure, or one that was seen already. -/
theorem Follows.report (h : Follows tasks s) (hs : Sound o tasks s) {j : ℕ}
    (hstep : step o tasks s (.report j) = some s') : Follows tasks s' := by
  obtain ⟨idx, task, exp, pending, hj, htask, hfinished, -, rfl⟩ := step_report hstep
  obtain rfl : idx = j := (hs.captured j _ hj).1
  have hmem := (h.finished _ _).1 hfinished
  refine ⟨h.begun, h.finished, .inl ?_⟩
  simp only [ScopeState.firstError_append]
  rcases h.order with hall | ⟨seen, t, last, i, hcompletions, ht, hseen, -, -, honly⟩
  · rw [hall]
    cases exp with
    | ok value => simp [ScopeState.errorOf]
    | error e =>
      have hsome : (firstFailure tasks s.completions).isSome := by
        refine List.findSome?_isSome_iff.2 ⟨_, hmem, ?_⟩
        rw [if_pos (List.mem_of_getElem? htask)]
        rfl
      obtain ⟨e', he'⟩ := Option.isSome_iff_exists.1 hsome
      rw [he', Option.some_or]
  · obtain rfl : task = t := honly idx task hj htask (by simp [hfinished])
    have hlast := (h.finished task last).2 (by simp [hcompletions])
    obtain rfl : exp = last := Option.some.inj (hfinished.symm.trans hlast)
    rw [hseen, hcompletions, firstFailure_append, if_pos ht]

theorem Follows.step (h : Follows tasks s) (hs : Sound o tasks s) (hfits : Fits o tasks.length)
    {a : WhenAllAction τ E R} (horder : InOrder tasks s a)
    (hstep : WhenAllState.step o tasks s a = some s') : Follows tasks s' := by
  cases a with
  | completeTask task result => exact h.completeTask hs horder hstep
  | attach =>
    obtain ⟨hlt, rfl⟩ := step_attach hstep
    have hnone := h.begun hlt
    have hnext := hfits.next s.idx hlt
    refine ⟨fun _ => hnone, h.finished, .inl ?_⟩
    refine h.order.resolve_right ?_
    rintro ⟨seen, t, exp, -, hcompletions, -⟩
    simp [hnone] at hcompletions
  | report j => exact h.report hs hstep
  | finish j =>
    obtain ⟨idx, hj, rfl⟩ := step_finish hstep
    refine ⟨h.begun, h.finished, h.order.imp_right ?_⟩
    rintro ⟨seen, t, exp, i, hcompletions, ht, hseen, hi, hti, honly⟩
    have hne : j ≠ i := by
      rintro rfl
      cases hj.symm.trans hi
    refine ⟨seen, t, exp, i, hcompletions, ht, hseen, (List.getElem?_set_ne hne).trans hi, hti, ?_⟩
    intro k t' hk
    rcases of_getElem?_set hk with ⟨rfl, hx⟩ | ⟨-, hk⟩
    · cases hx
    · exact honly k t' hk

/-! ## Tasks that are completed before the call -/

/-- The tasks are completed before the call, so that the loop runs each continuation when it
attaches it, before it goes on. -/
def Beforehand (tasks : List τ) (s : WhenAllState τ E R) (a : WhenAllAction τ E R) : Prop :=
  a = .attach → (∀ t ∈ tasks, s.finished t ≠ none) ∧ ∀ j, ¬ s.Waits j

theorem findSome?_congr {α β : Type*} {f g : α → Option β} {l : List α} (h : ∀ x ∈ l, f x = g x) :
    l.findSome? f = l.findSome? g := by
  induction l with
  | nil => rfl
  | cons x l ih =>
    obtain ⟨hx, hl⟩ := List.forall_mem_cons.1 h
    rw [List.findSome?_cons, List.findSome?_cons, hx, ih hl]

/-- The error of a task, when it failed. -/
def failure (s : WhenAllState τ E R) (t : τ) : Option E := (s.finished t).bind ScopeState.errorOf

/-- The continuations run in the order of the span, and one at most is attached and has not run. -/
structure InSpan (tasks : List τ) (s : WhenAllState τ E R) : Prop where
  known : s.idx ≠ 0 → ∀ t ∈ tasks, s.finished t ≠ none
  order : ScopeState.firstError s.reports = (tasks.take s.reports.length).findSome? s.failure
  waiting : ∀ j, s.Waits j → s.reports.length = j ∧ s.idx = j + 1
  idle : (∀ j, ¬ s.Waits j) → s.reports.length = s.idx

omit [DecidableEq τ] in
theorem InSpan.initial [Inhabited R] : InSpan tasks (start o tasks : WhenAllState τ E R) where
  known h := absurd rfl h
  order := by simp [start, ScopeState.firstError]
  waiting j hj := by simp [Waits, start] at hj
  idle _ := rfl

theorem InSpan.completeTask (h : InSpan tasks s) (hs : Sound o tasks s) {task : τ}
    {result : Except E R} (hstep : step o tasks s (.completeTask task result) = some s') :
    InSpan tasks s' := by
  obtain ⟨hnone, rfl⟩ := step_completeTask hstep
  refine ⟨fun hidx t ht => ?_, ?_, h.waiting, h.idle⟩
  · by_cases htask : t = task
    · simp [htask]
    · simpa [htask] using h.known hidx t ht
  · by_cases hidx : s.idx = 0
    · -- the loop has not begun, so that no continuation has run
      have hnil : s.additions = [] := List.length_eq_zero_iff.1 (hs.length.trans hidx)
      have hreports : s.reports.length = 0 :=
        (h.idle fun j hj => by simp [Waits, hnil] at hj).trans hidx
      simp [List.length_eq_zero_iff.1 hreports, ScopeState.firstError]
    · simp only [h.order]
      have hsame : ∀ t ∈ tasks, s.failure t = failure { s with
          finished := Function.update s.finished task (some result)
          completions := s.completions ++ [(task, result)] } t := fun t ht => by
        have hne : t ≠ task := by
          rintro rfl
          exact h.known hidx t ht hnone
        simp only [failure, Function.update_of_ne hne]
      exact findSome?_congr fun t ht => hsame t (List.mem_of_mem_take ht)

theorem InSpan.attach (h : InSpan tasks s) (hs : Sound o tasks s) (hfits : Fits o tasks.length)
    (hbefore : Beforehand tasks s .attach) (hstep : step o tasks s .attach = some s') :
    InSpan tasks s' := by
  obtain ⟨hlt, rfl⟩ := step_attach hstep
  obtain ⟨hknown, hquiet⟩ := hbefore rfl
  have hnext := hfits.next s.idx hlt
  have hreports := h.idle hquiet
  have hattached : Waits { s with
      idx := o.next s.idx
      additions := s.additions ++ [⟨s.idx, .attached⟩] } s.idx := by
    rw [Waits, ← hs.length, List.getElem?_concat_length]
  refine ⟨fun _ => hknown, h.order, fun j hj => ?_, fun hidle => absurd hattached (hidle _)⟩
  rw [Waits, List.getElem?_append] at hj
  split_ifs at hj with hlast
  · exact absurd hj (hquiet j)
  · obtain ⟨hj', hx⟩ := List.getElem?_eq_some_iff.1 hj
    simp only [List.getElem_singleton, Addition.mk.injEq, and_true] at hx
    subst hx
    exact ⟨hreports, hnext⟩

/-- The continuation that runs is that of the next task of the span. -/
theorem InSpan.report (h : InSpan tasks s) (hs : Sound o tasks s) {j : ℕ}
    (hstep : step o tasks s (.report j) = some s') : InSpan tasks s' := by
  obtain ⟨idx, task, exp, pending, hj, htask, hfinished, -, rfl⟩ := step_report hstep
  obtain rfl : idx = j := (hs.captured j _ hj).1
  obtain ⟨hlength, hidx⟩ := h.waiting idx hj
  have hran : ∀ i, ¬ Waits { s with
      data :=
        { pending
          error := PendingTaskScope.record s.data.error exp
          results := o.store s.data.results idx exp }
      additions := s.additions.set idx ⟨idx, if pending == 0 then .completing else .done⟩
      reports := s.reports ++ [(idx, exp)] } i := by
    intro i hi
    rcases of_getElem?_set hi with ⟨-, hx⟩ | ⟨hne, hi⟩
    · split_ifs at hx
      all_goals cases hx
    · exact hne ((h.waiting i hi).1.symm.trans hlength)
  refine ⟨h.known, ?_, fun i hi => absurd hi (hran i), fun _ => ?_⟩
  · simp only [ScopeState.firstError_append, h.order, List.length_append, List.length_singleton,
      hlength]
    rw [List.take_add_one, List.findSome?_append, htask, Option.toList_some,
      List.findSome?_singleton, failure, hfinished, Option.bind_some]
    rfl
  · simp [hlength, hidx]

theorem InSpan.step (h : InSpan tasks s) (hs : Sound o tasks s) (hfits : Fits o tasks.length)
    {a : WhenAllAction τ E R} (hbefore : Beforehand tasks s a)
    (hstep : WhenAllState.step o tasks s a = some s') : InSpan tasks s' := by
  cases a with
  | completeTask task result => exact h.completeTask hs hstep
  | attach => exact h.attach hs hfits hbefore hstep
  | report j => exact h.report hs hstep
  | finish j =>
    obtain ⟨idx, hj, rfl⟩ := step_finish hstep
    -- the continuation that completes the task has run
    have hwaits (i : ℕ) : Waits { s with
        additions := s.additions.set j ⟨idx, .done⟩
        completed := s.completed ++ [s.data.outcome] } i ↔ s.Waits i := by
      by_cases hne : j = i
      · subst hne
        rw [Waits, Waits, List.getElem?_set_self (List.getElem?_eq_some_iff.1 hj).1, hj]
        simp
      · rw [Waits, Waits, List.getElem?_set_ne hne]
    exact ⟨h.known, h.order, fun i hi => h.waiting i ((hwaits i).1 hi),
      fun hidle => h.idle fun i hi => hidle i ((hwaits i).2 hi)⟩

omit [DecidableEq τ] in
/-- When nothing is missing, the first error seen is that of the first task of the span that
failed. -/
theorem InSpan.firstError (h : InSpan tasks s) (hs : Sound o tasks s)
    (hpending : s.data.pending = 0) :
    ScopeState.firstError s.reports = tasks.findSome? s.failure := by
  have hidle := h.idle fun j hj => by
    have hpos := (hs.pending_pos hj).1
    omega
  have hcount := hs.pending
  have hidx := hs.idx_le
  rw [h.order, hidle, List.take_of_length_le (by omega)]

/-! ## The result -/

/-- **`when_all` over a span waits for everyone and reports faithfully**, for the overload for
`void`, and for the one for values on fewer than `2 ^ 32` tasks. In every state of a run in which
the errors convert to `true`: the task was completed once at most, and with no task missing; the
count is that of the tasks whose continuation has not run, so that it does not wrap; the steps that
the code takes by itself are bounded in number, one can be taken as long as the tasks are completed
and one is left, and when none is left the task is completed; it is completed with the first error
that a continuation saw, which there is exactly when a task failed, and else with the values in the
places of the tasks; the error is that of the task that failed first when the tasks complete one
after another, and that of the first task of the span that failed when they are completed before the
call. -/
theorem waits_for_everyone [Inhabited R] (span : Span τ)
    (ho : o = .ofVoidSpan ∨ o = .ofSpan ∧ span.tasks.length < 2 ^ 32)
    (h : Reach (step o span.tasks) Truthy (start o span.tasks) s) :
    s.completed.length ≤ 1 ∧
    (s.completed ≠ [] → ∀ t ∈ span.tasks, (s.finished t).isSome) ∧
    s.data.pending =
      (span.tasks.length - s.idx + ScopeState.unreported s.additions : ℕ) ∧
    (∀ a s', Internal a → step o span.tasks s a = some s' →
    left span.tasks s' < left span.tasks s) ∧
    ((∀ t ∈ span.tasks, (s.finished t).isSome) → left span.tasks s ≠ 0 →
      ∃ a, Internal a ∧ step o span.tasks s a ≠ none) ∧
    (left span.tasks s = 0 → s.completed.length = 1) ∧
    (∀ r ∈ s.completed,
      (∀ e, r = .error e ↔ ScopeState.firstError s.reports = some e) ∧
      ((∃ e, r = .error e) ↔ ∃ t ∈ span.tasks, ∃ e, s.finished t = some (.error e)) ∧
      (o = .ofSpan → ∀ values : List R, r = .ok values → values.length = span.tasks.length ∧
        ∀ (j : ℕ) t, span.tasks[j]? = some t →
          ∃ value, s.finished t = some (.ok value) ∧ values[j]? = some value) ∧
      (Reach (step o span.tasks) (fun s a => Truthy s a ∧ InOrder span.tasks s a)
        (start o span.tasks) s →
        ∀ e, r = .error e ↔ firstFailure span.tasks s.completions = some e) ∧
      (Reach (step o span.tasks) (fun s a => Truthy s a ∧ Beforehand span.tasks s a)
        (start o span.tasks) s →
        ∀ e, r = .error e ↔ span.tasks.findSome? s.failure = some e)) := by
  have hfits : Fits o span.tasks.length := by
    rcases ho with rfl | ⟨rfl, hlt⟩
    · exact fits_ofVoidSpan span.size_lt
    · exact fits_ofSpan hlt
  have hempty : o.returnsEmpty = true := by
    rcases ho with rfl | ⟨rfl, -⟩ <;> rfl
  have hs := Sound.of_reach hfits h
  have hzero {r} (hr : r ∈ s.completed) := hs.pending_eq_zero (List.ne_nil_of_mem hr)
  have herror {r} (hr : r ∈ s.completed) (e : E) :
      r = .error e ↔ ScopeState.firstError s.reports = some e := by
    rw [hs.outcome r hr, hs.outcome_eq]
    cases ScopeState.firstError s.reports <;> simp
  refine ⟨hs.length_le, fun hne t ht => ?_, hs.pending, fun a s' ha hstep => left_lt hfits ha hstep,
    hs.exists_step hfits, hs.completed_of_left fun _ => hempty,
    fun r hr => ⟨herror hr, ?_, ?_, ?_, ?_⟩⟩
  · obtain ⟨j, hj⟩ := List.getElem?_of_mem ht
    obtain ⟨exp, -, hfinished⟩ := hs.seen (hs.pending_eq_zero hne) hj
    exact Option.isSome_of_mem hfinished
  · rw [← hs.firstError_isSome_iff (hzero hr), Option.isSome_iff_exists]
    exact exists_congr (herror hr)
  · rintro rfl values rfl
    have hvalues := hs.outcome _ hr
    rw [hs.outcome_eq] at hvalues
    cases hfirst : ScopeState.firstError s.reports with
    | some e => simp [hfirst] at hvalues
    | none =>
      rw [hfirst] at hvalues
      obtain rfl := Except.ok.inj hvalues
      obtain ⟨hlength, hstored⟩ := hs.results rfl
      refine ⟨hlength, fun j t hj => ?_⟩
      obtain ⟨exp, hexp, hfinished⟩ := hs.seen (hzero hr) hj
      cases exp with
      | error e => cases List.findSome?_eq_none_iff.1 hfirst _ hexp
      | ok value => exact ⟨value, hfinished, hstored j value hexp⟩
  · intro horder e
    have hfollows : Sound o span.tasks s ∧ Follows span.tasks s :=
      horder.invariant (I := fun s => Sound o span.tasks s ∧ Follows span.tasks s)
        ⟨.initial hfits, .initial⟩ fun _ _ _ ha hok hstep =>
          ⟨ha.1.step hfits hok.1 hstep, ha.2.step ha.1 hfits hok.2 hstep⟩
    have hall := hfollows.2.order.resolve_right (by
      rintro ⟨-, t, exp, j, -, -, -, hj, -⟩
      have hpos := (hs.pending_pos hj).1
      rw [hzero hr] at hpos
      exact absurd hpos (lt_irrefl _))
    rw [herror hr, hall]
  · intro hbefore e
    have hspan : Sound o span.tasks s ∧ InSpan span.tasks s :=
      hbefore.invariant (I := fun s => Sound o span.tasks s ∧ InSpan span.tasks s)
        ⟨.initial hfits, .initial⟩ fun _ _ _ ha hok hstep =>
          ⟨ha.1.step hfits hok.1 hstep, ha.2.step ha.1 hfits hok.2 hstep⟩
    rw [herror hr, hspan.2.firstError hspan.1 (hzero hr)]

/-- No task fails with 0. -/
def truthyCheck (_ : WhenAllState τ ℤ R) : WhenAllAction τ ℤ R → Bool
  | .completeTask _ (.error e) => e != 0
  | _ => true

omit [DecidableEq τ] in
theorem truthy_of_check (s : WhenAllState τ ℤ R) (a : WhenAllAction τ ℤ R)
    (h : truthyCheck s a = true) : s.Truthy a := by
  rintro task e rfl
  exact h

/-- Three tasks of which one is there twice, and is completed before the call. -/
theorem waits_for_everyone_twice : ∃ s : WhenAllState ℕ ℤ ℕ,
    Reach (step .ofSpan [4, 5, 4]) Truthy (start .ofSpan [4, 5, 4]) s ∧
    s.completed = [.ok [40, 50, 40]] ∧ s.completed.length ≤ 1 := by
  have hrun : (runWhile truthyCheck (step .ofSpan [4, 5, 4])
      (start .ofSpan [4, 5, 4] : WhenAllState ℕ ℤ ℕ) [.completeTask 4 (.ok 40), .attach, .report 0,
        .attach, .attach, .report 2, .completeTask 5 (.ok 50), .report 1, .finish 1]).map
      (fun s => s.completed) = some [.ok [40, 50, 40]] := by decide
  obtain ⟨s, hreach, hcompleted⟩ := exists_reach_of_runWhile truthy_of_check hrun
  have hlength := waits_for_everyone ⟨[4, 5, 4], by decide⟩ (.inr ⟨rfl, by decide⟩) hreach
  exact ⟨s, hreach, hcompleted, hlength.1⟩

/-- **The error need not be that of the task that failed first**: of two tasks that failed before
the call, the one that is first in the span is reported. -/
theorem not_first_completed : ∃ s : WhenAllState ℕ ℤ ℕ,
    Reach (step .ofSpan [4, 5]) Truthy (start .ofSpan [4, 5]) s ∧
    s.completions = [(5, .error 8), (4, .error 7)] ∧ s.completed = [.error 7] := by
  have hrun : (runWhile truthyCheck (step .ofSpan [4, 5])
      (start .ofSpan [4, 5] : WhenAllState ℕ ℤ ℕ) [.completeTask 5 (.error 8),
        .completeTask 4 (.error 7), .attach, .report 0, .attach, .report 1, .finish 1]).map
      (fun s => (s.completions, s.completed)) =
      some ([(5, .error 8), (4, .error 7)], [.error 7]) := by decide
  obtain ⟨s, hreach, hseen⟩ := exists_reach_of_runWhile truthy_of_check hrun
  obtain ⟨hcompletions, hcompleted⟩ := Prod.mk.inj hseen
  exact ⟨s, hreach, hcompletions, hcompleted⟩

end WhenAllState

end Arcana.Threading
