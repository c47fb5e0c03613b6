import Mathlib.Algebra.Group.Int.Defs
import Mathlib.Algebra.Group.Nat.Defs
import Mathlib.Data.List.Count
import Arcana.Foundations.Partition
import Arcana.Foundations.Transition

/-!
# `pending_task_scope`

A scope counts the tasks that were added and completes a task of its own when `when_all` was called
and the count is back to zero. The last task that completes or a `when_all` may make that
completion, which is decided by three flags read and written in different critical sections of
`m_mutex`.

The first part has the critical sections. The second runs them in any order: the calls of `+=` and
`when_all`, the completions of the tasks, and the continuations that the scope attached, which
complete the task of the scope outside the lock. The invariant is `Consistent`; what it says of the
completion is `completes_once`.

* `PendingTaskScope.add`, `PendingTaskScope.report` and `PendingTaskScope.whenAll` are the critical
  sections, and `PendingTaskScope.completeInternal` the completion.
* `ScopeState` is a scope in use with the histories of its run, and `ScopeState.step` a step of it.
* `ScopeState.Truthy` is what is asked of the errors of the tasks.
* `ScopeState.Consistent` is the invariant. `Consistent.add`, `Consistent.report`,
  `Consistent.finish` and `Consistent.whenAll` say that the steps keep it, and `Consistent.step`
  puts these together.
* `ScopeState.completes_once` is the result about runs.
-/

namespace Arcana.Threading

open Foundations

/-- `ErrorT` as the scope uses it: a value that was default constructed is no error. -/
class ErrorType (E : Type*) where
  default : E
  toBool : E → Bool
  toBool_default : toBool default = false

/-- `pending_task_scope`. The completions of `m_completed` are kept as a list, in their order. -/
structure PendingTaskScope (E : Type*) [ErrorType E] where
  pending : ℤ := 0
  disposing : Bool := false
  setcompletion : Bool := false
  completed : List (Except E Unit) := []
  error : E := ErrorType.default

namespace PendingTaskScope

variable {E R : Type*} [ErrorType E]

/-- The critical section of `operator+=`. There is no result when `m_pending`, an `int`,
overflows. -/
def add (s : PendingTaskScope E) : Option (Except String (PendingTaskScope E)) :=
  if s.disposing then
    some (.error "can't add tasks to a pending scope once it starts disposing itself")
  else if s.pending = 2 ^ 31 - 1 then
    none
  else
    some (.ok { s with pending := s.pending + 1 })

/-- `m_error` after a result was seen: the first error is kept. -/
def record (error : E) (result : Except E R) : E :=
  match result with
  | .error e => if ErrorType.toBool error then error else e
  | .ok _ => error

/-- The critical section of the continuation, with the value of `complete`. -/
def report (s : PendingTaskScope E) (result : Except E R) : PendingTaskScope E × Bool :=
  let pending := s.pending - 1
  let complete := s.disposing && pending == 0
  ({ s with
      pending
      error := record s.error result
      setcompletion := s.setcompletion || complete }, complete)

/-- What `complete_internal` completes the task of the scope with. -/
def outcome (error : E) : Except E Unit := if ErrorType.toBool error then .error error else .ok ()

/-- `complete_internal`. -/
def completeInternal (s : PendingTaskScope E) : PendingTaskScope E :=
  { s with completed := s.completed ++ [outcome s.error] }

/-- `when_all`. -/
def whenAll (s : PendingTaskScope E) : PendingTaskScope E :=
  if s.pending = 0 ∧ s.setcompletion = false then
    ({ s with disposing := true, setcompletion := true } : PendingTaskScope E).completeInternal
  else
    { s with disposing := true }

end PendingTaskScope

/-! ## Runs -/

/-- Where a call of `+=` and the continuation it attaches are. -/
inductive Progress
  /-- The task is counted, its `then` is still to come. -/
  | counted
  | attached
  /-- The critical section of the continuation is over, with `complete` set. -/
  | completing
  | done
  deriving DecidableEq

/-- Whether the continuation has seen the result of the task. -/
def Progress.reported : Progress → Bool
  | .counted | .attached => false
  | .completing | .done => true

/-- A task that was added. -/
structure Addition (τ : Type*) where
  task : τ
  progress : Progress

/-- A scope, the results of the tasks that are completed, and the tasks that were added. The results
in the order in which the continuations saw them, each with the addition it is about, and the number
of calls of `when_all` are histories. -/
structure ScopeState (τ E R : Type*) [ErrorType E] where
  scope : PendingTaskScope E := {}
  results : τ → Option (Except E R) := fun _ => none
  additions : List (Addition τ) := []
  reports : List (ℕ × Except E R) := []
  whenAlls : ℕ := 0

inductive ScopeAction (τ E R : Type*)
  | completeTask (task : τ) (result : Except E R)
  | add (task : τ)
  | attach (i : ℕ)
  | report (i : ℕ)
  | finish (i : ℕ)
  | whenAll

namespace ScopeState

variable {τ E R : Type*} [DecidableEq τ] [ErrorType E]

/-- One critical section, or what happens between two of them. -/
def step (s : ScopeState τ E R) : ScopeAction τ E R → Option (ScopeState τ E R)
  | .completeTask task result =>
    if (s.results task).isNone then
      some { s with results := Function.update s.results task (some result) }
    else
      none
  | .add task =>
    match s.scope.add with
    | none => none
    | some (.error _) => some s
    | some (.ok scope) => some { s with scope, additions := s.additions ++ [⟨task, .counted⟩] }
  | .attach i =>
    match s.additions[i]? with
    | some ⟨task, .counted⟩ => some { s with additions := s.additions.set i ⟨task, .attached⟩ }
    | _ => none
  | .report i =>
    match s.additions[i]? with
    | some ⟨task, .attached⟩ => (s.results task).map fun result =>
      { s with
        scope := (s.scope.report result).1
        additions := s.additions.set i
          ⟨task, if (s.scope.report result).2 then .completing else .done⟩
        reports := s.reports ++ [(i, result)] }
    | _ => none
  | .finish i =>
    match s.additions[i]? with
    | some ⟨task, .completing⟩ => some
      { s with
        scope := s.scope.completeInternal
        additions := s.additions.set i ⟨task, .done⟩ }
    | _ => none
  | .whenAll => some { s with scope := s.scope.whenAll, whenAlls := s.whenAlls + 1 }

/-- Every error of a task converts to `true`. -/
def Truthy (_ : ScopeState τ E R) (a : ScopeAction τ E R) : Prop :=
  ∀ task e, a = .completeTask task (.error e) → ErrorType.toBool e = true

/-- The error of a result. -/
def errorOf : Except E R → Option E
  | .error e => some e
  | .ok _ => none

/-- The first error among the results seen. -/
def firstError (reports : List (ℕ × Except E R)) : Option E :=
  reports.findSome? fun x => errorOf x.2

/-- The number of tasks that the scope waits for. -/
def unreported (additions : List (Addition τ)) : ℕ := additions.countP fun x => !x.progress.reported

/-- The number of continuations that are about to complete the task of the scope. -/
def completing (additions : List (Addition τ)) : ℕ :=
  additions.countP fun x => x.progress = .completing

/-- What holds between the critical sections. The one completion of the task of the scope is either
made or up to the one continuation that is about to make it. -/
structure Consistent (s : ScopeState τ E R) : Prop where
  pending : s.scope.pending = unreported s.additions
  disposing : s.scope.disposing = true ↔ 0 < s.whenAlls
  setcompletion : s.scope.setcompletion = true ↔ 0 < s.whenAlls ∧ unreported s.additions = 0
  once : s.scope.completed.length + completing s.additions = if s.scope.setcompletion then 1 else 0
  error : s.scope.error = (firstError s.reports).getD ErrorType.default
  outcome : ∀ r ∈ s.scope.completed, r = PendingTaskScope.outcome s.scope.error
  truthy : ∀ task e, s.results task = some (.error e) → ErrorType.toBool e = true
  reports : ∀ i result, (i, result) ∈ s.reports → ∃ x, s.additions[i]? = some x ∧
    x.progress.reported = true ∧ s.results x.task = some result
  covered : ∀ i x, s.additions[i]? = some x → x.progress.reported = true →
    ∃ result, (i, result) ∈ s.reports
  nodup : (s.reports.map Prod.fst).Nodup

variable {s s' : ScopeState τ E R}

/-! ### The steps -/

theorem step_completeTask {task : τ} {result : Except E R}
    (h : s.step (.completeTask task result) = some s') :
    s.results task = none ∧ s' = { s with
      results := Function.update s.results task (some result) } := by
  obtain ⟨hnone, hs'⟩ := Option.ite_none_right_eq_some.1 h
  exact ⟨Option.isNone_iff_eq_none.1 hnone, (Option.some.inj hs').symm⟩

/-- A call of `+=` is refused once `when_all` was called, and counts the task otherwise. -/
theorem step_add {task : τ} (h : s.step (.add task) = some s') :
    s.scope.disposing = true ∧ s' = s ∨
    s.scope.disposing = false ∧ s' =
      { s with
        scope := { s.scope with pending := s.scope.pending + 1 }
        additions := s.additions ++ [⟨task, .counted⟩] } := by
  simp only [step, PendingTaskScope.add] at h
  split_ifs at h with hd hp
  · exact .inl ⟨hd, (Option.some.inj h).symm⟩
  · exact .inr ⟨Bool.eq_false_iff.2 hd, (Option.some.inj h).symm⟩

theorem step_attach {i : ℕ} (h : s.step (.attach i) = some s') :
    ∃ task, s.additions[i]? = some ⟨task, .counted⟩ ∧
      s' = { s with additions := s.additions.set i ⟨task, .attached⟩ } := by
  simp only [step] at h
  split at h
  · rename_i task hi
    exact ⟨task, hi, (Option.some.inj h).symm⟩
  · cases h

theorem step_report {i : ℕ} (h : s.step (.report i) = some s') :
    ∃ task result, s.additions[i]? = some ⟨task, .attached⟩ ∧ s.results task = some result ∧
      s' = { s with
        scope := (s.scope.report result).1
        additions := s.additions.set i
          ⟨task, if (s.scope.report result).2 then .completing else .done⟩
        reports := s.reports ++ [(i, result)] } := by
  simp only [step] at h
  split at h
  · rename_i task hi
    obtain ⟨result, hresult, rfl⟩ := Option.map_eq_some_iff.1 h
    exact ⟨task, result, hi, hresult, rfl⟩
  · cases h

theorem step_finish {i : ℕ} (h : s.step (.finish i) = some s') :
    ∃ task, s.additions[i]? = some ⟨task, .completing⟩ ∧
      s' = { s with
        scope := s.scope.completeInternal
        additions := s.additions.set i ⟨task, .done⟩ } := by
  simp only [step] at h
  split at h
  · rename_i task hi
    exact ⟨task, hi, (Option.some.inj h).symm⟩
  · cases h

/-! ### The invariant -/

section Additions

omit [DecidableEq τ]

variable {additions : List (Addition τ)} {task : τ} {i : ℕ} {p : Progress}

theorem unreported_append (hp : p.reported = false) :
    unreported (additions ++ [⟨task, p⟩]) = unreported additions + 1 := by
  simp [unreported, hp]

theorem completing_append (hp : p ≠ .completing) :
    completing (additions ++ [⟨task, p⟩]) = completing additions := by
  simp [completing, hp]

omit [ErrorType E] in
theorem toNat_eq_ite (b : Bool) : b.toNat = if b then 1 else 0 := by
  cases b <;> rfl

theorem unreported_set (h : additions[i]? = some ⟨task, p⟩) (q : Progress) :
    unreported (additions.set i ⟨task, q⟩) + (!p.reported).toNat =
      unreported additions + (!q.reported).toNat := by
  have hcount := countP_set_add (fun x : Addition τ => !x.progress.reported) h ⟨task, q⟩
  simpa only [unreported, toNat_eq_ite] using hcount

theorem completing_set (h : additions[i]? = some ⟨task, p⟩) (q : Progress) :
    completing (additions.set i ⟨task, q⟩) + (decide (p = .completing)).toNat =
      completing additions + (decide (q = .completing)).toNat := by
  have hcount :=
    countP_set_add (fun x : Addition τ => decide (x.progress = .completing)) h ⟨task, q⟩
  simpa only [completing, toNat_eq_ite] using hcount

omit [ErrorType E] in
theorem firstError_append (reports : List (ℕ × Except E R)) (x : ℕ × Except E R) :
    firstError (reports ++ [x]) = (firstError reports).or (errorOf x.2) := by
  rw [firstError, List.findSome?_append, List.findSome?_singleton, firstError]

/-- What keeps the first error keeps it when one more result is seen. -/
theorem record_firstError {reports : List (ℕ × Except E R)}
    (htruthy : ∀ e, firstError reports = some e → ErrorType.toBool e = true) (i : ℕ)
    (result : Except E R) :
    PendingTaskScope.record ((firstError reports).getD ErrorType.default) result =
      (firstError (reports ++ [(i, result)])).getD ErrorType.default := by
  rw [firstError_append]
  cases hfirst : firstError reports with
  | none => cases result <;> simp [PendingTaskScope.record, errorOf, ErrorType.toBool_default]
  | some e =>
    have he := htruthy e hfirst
    cases result <;> simp [PendingTaskScope.record, he]

theorem Consistent.initial : ({} : ScopeState τ E R).Consistent where
  pending := rfl
  disposing := by simp
  setcompletion := by simp
  once := rfl
  error := rfl
  outcome := nofun
  truthy := nofun
  reports := nofun
  covered := by simp
  nodup := .nil

/-- What was reported stays so when one addition goes on. -/
theorem Consistent.reports_set (h : s.Consistent) (hi : s.additions[i]? = some ⟨task, p⟩)
    {q : Progress} (hq : p.reported = true → q.reported = true) {j : ℕ} {result : Except E R}
    (hj : (j, result) ∈ s.reports) :
    ∃ x, (s.additions.set i ⟨task, q⟩)[j]? = some x ∧ x.progress.reported = true ∧
      s.results x.task = some result := by
  obtain ⟨x, hx, hreported, hresult⟩ := h.reports j result hj
  by_cases hji : i = j
  · subst hji
    obtain rfl := Option.some.inj (hi.symm.trans hx)
    exact ⟨⟨task, q⟩, List.getElem?_set_self (List.getElem?_eq_some_iff.1 hi).1,
      hq hreported, hresult⟩
  · exact ⟨x, (List.getElem?_set_ne hji).trans hx, hreported, hresult⟩

/-- What is reported when one addition goes on was so before, or is the addition. -/
theorem Consistent.covered_set (h : s.Consistent) {q : Progress} {j : ℕ} {x : Addition τ}
    (hj : (s.additions.set i ⟨task, q⟩)[j]? = some x) (hx : x.progress.reported = true) :
    (∃ result, (j, result) ∈ s.reports) ∨ i = j ∧ q.reported = true := by
  rw [List.getElem?_set] at hj
  split_ifs at hj with hji
  · cases hj
    exact .inr ⟨hji, hx⟩
  · exact .inl (h.covered j x hj hx)

/-- The errors seen convert to `true`. -/
theorem Consistent.truthy_of_firstError (h : s.Consistent) {e : E}
    (he : firstError s.reports = some e) :
    ErrorType.toBool e = true := by
  obtain ⟨⟨i, result⟩, hmem, hresult⟩ := List.exists_of_findSome?_eq_some he
  obtain ⟨x, -, -, hx⟩ := h.reports i result hmem
  cases result with
  | error e' =>
    cases hresult
    exact h.truthy _ _ hx
  | ok r => cases hresult

/-- `m_error` is the first error seen. -/
theorem Consistent.record (h : s.Consistent) (i : ℕ) (result : Except E R) :
    PendingTaskScope.record s.scope.error result =
      (firstError (s.reports ++ [(i, result)])).getD ErrorType.default := by
  rw [h.error]
  exact record_firstError (fun e => h.truthy_of_firstError) i result

/-- As long as the scope waits for a task, nobody has decided to complete. -/
theorem Consistent.undecided (h : s.Consistent) (hpos : 0 < unreported s.additions) :
    s.scope.setcompletion = false ∧ s.scope.completed = [] ∧ completing s.additions = 0 := by
  have hunset : s.scope.setcompletion = false := by
    rw [← Bool.not_eq_true, h.setcompletion]
    omega
  have honce := h.once
  rw [hunset, if_neg Bool.false_ne_true, Nat.add_eq_zero_iff] at honce
  exact ⟨hunset, List.length_eq_zero_iff.1 honce.1, honce.2⟩

theorem Consistent.length_le (h : s.Consistent) : s.scope.completed.length ≤ 1 := by
  have honce := h.once
  split_ifs at honce <;> omega

/-- A completion comes after a `when_all` and after all the tasks. -/
theorem Consistent.completed (h : s.Consistent) (hne : s.scope.completed ≠ []) :
    0 < s.whenAlls ∧ unreported s.additions = 0 := by
  rw [← h.setcompletion]
  by_contra hunset
  have honce := h.once
  rw [if_neg hunset, Nat.add_eq_zero_iff, List.length_eq_zero_iff] at honce
  exact hne honce.1

theorem unreported_eq_zero {additions : List (Addition τ)} :
    unreported additions = 0 ↔ ∀ x ∈ additions, x.progress.reported = true := by
  simp [unreported]

theorem Consistent.isSome_of_reported (h : s.Consistent) {x : Addition τ} (hx : x ∈ s.additions)
    (hreported : x.progress.reported = true) : (s.results x.task).isSome := by
  obtain ⟨i, hi⟩ := List.getElem?_of_mem hx
  obtain ⟨result, hresult⟩ := h.covered i x hi hreported
  obtain ⟨y, hy, -, hresult⟩ := h.reports i result hresult
  obtain rfl := Option.some.inj (hi.symm.trans hy)
  exact Option.isSome_of_mem hresult

/-- The task of the scope is completed with the first error seen. -/
theorem Consistent.outcome_eq (h : s.Consistent) :
    PendingTaskScope.outcome s.scope.error =
      match firstError s.reports with
      | some e => .error e
      | none => .ok () := by
  rw [h.error]
  cases hfirst : firstError s.reports with
  | none => exact if_neg (by simp [ErrorType.toBool_default])
  | some e => exact if_pos (h.truthy_of_firstError hfirst)

/-- When all the tasks are reported, an error was seen exactly if a task failed. -/
theorem Consistent.error_iff (h : s.Consistent)
    (hall : ∀ x ∈ s.additions, x.progress.reported = true) :
    (∃ e, (match firstError s.reports with
      | some e => .error e
      | none => .ok () : Except E Unit) = .error e) ↔
      ∃ x ∈ s.additions, ∃ e, s.results x.task = some (.error e) := by
  constructor
  · rintro ⟨e, he⟩
    cases hfirst : firstError s.reports with
    | none =>
      rw [hfirst] at he
      cases he
    | some e' =>
      obtain ⟨⟨i, result⟩, hmem, hresult⟩ := List.exists_of_findSome?_eq_some hfirst
      obtain ⟨x, hx, -, hx'⟩ := h.reports i result hmem
      cases result with
      | error e'' => exact ⟨x, List.mem_of_getElem? hx, e'', hx'⟩
      | ok r => cases hresult
  · rintro ⟨x, hx, e, he⟩
    obtain ⟨i, hi⟩ := List.getElem?_of_mem hx
    obtain ⟨result, hresult⟩ := h.covered i x hi (hall x hx)
    obtain ⟨y, hy, -, hy'⟩ := h.reports i result hresult
    obtain rfl := Option.some.inj (hi.symm.trans hy)
    obtain rfl := Option.some.inj (he.symm.trans hy')
    cases hfirst : firstError s.reports with
    | none =>
      have hnone := List.findSome?_eq_none_iff.1 hfirst _ hresult
      cases hnone
    | some e' => exact ⟨e', rfl⟩

end Additions

/-- A task that is completed was not reported before. -/
theorem Consistent.completeTask (h : s.Consistent) {task : τ} {result : Except E R}
    (htruthy : s.Truthy (.completeTask task result))
    (hstep : s.step (.completeTask task result) = some s') : s'.Consistent := by
  obtain ⟨hnone, rfl⟩ := step_completeTask hstep
  refine { h with truthy := ?_, reports := ?_ }
  · intro t e he
    dsimp only at he
    by_cases ht : t = task
    · rw [ht, Function.update_self, Option.some.injEq] at he
      exact htruthy task e (he ▸ rfl)
    · rw [Function.update_of_ne ht] at he
      exact h.truthy t e he
  · intro i r hr
    obtain ⟨x, hx, hreported, hresult⟩ := h.reports i r hr
    refine ⟨x, hx, hreported, ?_⟩
    dsimp only
    rw [Function.update_of_ne, hresult]
    rintro rfl
    rw [hnone] at hresult
    cases hresult

/-- No task is added after `when_all`. -/
theorem Consistent.add (h : s.Consistent) {task : τ} (hstep : s.step (.add task) = some s') :
    s'.Consistent := by
  rcases step_add hstep with ⟨-, rfl⟩ | ⟨hd, rfl⟩
  · exact h
  have hcalls : ¬0 < s.whenAlls := fun hlt => by simp [h.disposing.2 hlt] at hd
  have hunset : ¬s.scope.setcompletion = true := fun hset => hcalls (h.setcompletion.1 hset).1
  have hpending := h.pending
  refine { h with pending := ?_, setcompletion := ?_, once := ?_, reports := ?_, covered := ?_ }
  · simp only [unreported_append (p := .counted) rfl]
    omega
  · exact iff_of_false hunset fun hset => hcalls hset.1
  · simp only [completing_append (p := .counted) (by simp)]
    exact h.once
  · intro i r hr
    obtain ⟨x, hx, hreported⟩ := h.reports i r hr
    exact ⟨x, List.getElem?_append_left (List.getElem?_eq_some_iff.1 hx).1 ▸ hx, hreported⟩
  · intro i x hx hreported
    rw [List.getElem?_append] at hx
    split_ifs at hx
    · exact h.covered i x hx hreported
    · obtain rfl := List.mem_singleton.1 (List.mem_of_getElem? hx)
      cases hreported

theorem Consistent.attach (h : s.Consistent) {i : ℕ} (hstep : s.step (.attach i) = some s') :
    s'.Consistent := by
  obtain ⟨task, hi, rfl⟩ := step_attach hstep
  have hunreported : unreported (s.additions.set i ⟨task, .attached⟩) = unreported s.additions :=
    Nat.add_right_cancel (unreported_set hi .attached)
  have hcompleting : completing (s.additions.set i ⟨task, .attached⟩) = completing s.additions :=
    completing_set hi .attached
  refine { h with
    pending := hunreported ▸ h.pending
    setcompletion := hunreported ▸ h.setcompletion
    once := hcompleting ▸ h.once
    reports := fun j r hj => h.reports_set hi nofun hj
    covered := fun j x hx hreported => ?_ }
  rcases h.covered_set hx hreported with hj | ⟨-, hq⟩
  · exact hj
  · cases hq

/-- The section of a continuation that counts down to zero after a `when_all` is the one that
decides to complete. -/
theorem Consistent.report (h : s.Consistent) {i : ℕ} (hstep : s.step (.report i) = some s') :
    s'.Consistent := by
  obtain ⟨task, result, hi, hresult, rfl⟩ := step_report hstep
  set complete := (s.scope.report result).2 with hcomplete
  set q : Progress := if complete then .completing else .done with hq
  have hreported : q.reported = true := by
    rw [hq]
    cases complete <;> rfl
  have hunreported : unreported (s.additions.set i ⟨task, q⟩) + 1 = unreported s.additions := by
    have hset := unreported_set hi q
    rwa [hreported] at hset
  have hcompleting : completing (s.additions.set i ⟨task, q⟩) =
      completing s.additions + complete.toNat := by
    have hdecide : decide (q = .completing) = complete := by
      rw [hq]
      cases complete <;> rfl
    have hset := completing_set hi q
    rwa [hdecide] at hset
  obtain ⟨hunset, hcompleted, hnone⟩ := h.undecided (by omega)
  have hpending := h.pending
  have hdecide : complete = true ↔ 0 < s.whenAlls ∧
      unreported (s.additions.set i ⟨task, q⟩) = 0 := by
    rw [hcomplete, PendingTaskScope.report, Bool.and_eq_true, beq_iff_eq, h.disposing]
    refine and_congr_right fun _ => ?_
    omega
  have hnew : i ∉ s.reports.map Prod.fst := by
    intro hmem
    obtain ⟨⟨j, r⟩, hj, rfl⟩ := List.mem_map.1 hmem
    obtain ⟨x, hx, hx', -⟩ := h.reports j r hj
    obtain rfl := Option.some.inj (hi.symm.trans hx)
    cases hx'
  constructor
  · show s.scope.pending - 1 = _
    dsimp only
    omega
  · exact h.disposing
  · show (s.scope.setcompletion || complete) = true ↔ _
    rw [hunset, Bool.false_or]
    exact hdecide
  · show s.scope.completed.length + _ = if (s.scope.setcompletion || complete) = true then 1 else 0
    dsimp only
    rw [hcompleting, hcompleted, hnone, hunset]
    cases complete <;> rfl
  · exact h.record i result
  · show ∀ r ∈ s.scope.completed, _
    rw [hcompleted]
    nofun
  · exact h.truthy
  · intro j r hj
    rcases List.mem_append.1 hj with hj | hj
    · exact h.reports_set hi nofun hj
    · cases List.mem_singleton.1 hj
      exact ⟨⟨task, q⟩, List.getElem?_set_self (List.getElem?_eq_some_iff.1 hi).1,
        hreported, hresult⟩
  · intro j x hx hx'
    rcases h.covered_set hx hx' with ⟨r, hr⟩ | ⟨rfl, -⟩
    · exact ⟨r, List.mem_append_left _ hr⟩
    · exact ⟨result, by simp⟩
  · rw [List.map_append, List.nodup_append]
    refine ⟨h.nodup, by simp, ?_⟩
    rintro a ha b hb rfl
    obtain rfl : a = i := List.mem_singleton.1 hb
    exact hnew ha

/-- Whoever completes is the one that decided to. -/
theorem Consistent.finish (h : s.Consistent) {i : ℕ} (hstep : s.step (.finish i) = some s') :
    s'.Consistent := by
  obtain ⟨task, hi, rfl⟩ := step_finish hstep
  have hunreported : unreported (s.additions.set i ⟨task, .done⟩) = unreported s.additions :=
    unreported_set hi .done
  have hcompleting : completing (s.additions.set i ⟨task, .done⟩) + 1 = completing s.additions :=
    completing_set hi .done
  have honce := h.once
  refine { h with
    pending := hunreported ▸ h.pending
    setcompletion := hunreported ▸ h.setcompletion
    once := ?_
    outcome := ?_
    reports := fun j r hj => h.reports_set hi (fun _ => rfl) hj
    covered := fun j x hx hreported => ?_ }
  · show (s.scope.completed ++ [_]).length + _ = if s.scope.setcompletion = true then 1 else 0
    rw [List.length_append, List.length_singleton, ← honce]
    dsimp only
    omega
  · intro r hr
    rcases List.mem_append.1 hr with hr | hr
    · exact h.outcome r hr
    · exact List.mem_singleton.1 hr
  · rcases h.covered_set hx hreported with hj | ⟨rfl, -⟩
    · exact hj
    · exact h.covered i ⟨task, .completing⟩ hi rfl

/-- A `when_all` that finds no task to wait for completes, unless that was decided before. -/
theorem Consistent.whenAll (h : s.Consistent) (hstep : s.step .whenAll = some s') :
    s'.Consistent := by
  obtain rfl := Option.some.inj hstep
  have hpending := h.pending
  have honce := h.once
  have hset := h.setcompletion
  simp only [PendingTaskScope.whenAll]
  split_ifs with hzero
  · obtain ⟨hzero, hunset⟩ := hzero
    rw [hunset, if_neg Bool.false_ne_true, Nat.add_eq_zero_iff] at honce
    obtain ⟨hcompleted, hnone⟩ := honce
    refine { h with disposing := ?_, setcompletion := ?_, once := ?_, outcome := ?_ }
    · simp [PendingTaskScope.completeInternal]
    · refine iff_of_true rfl ⟨Nat.succ_pos _, ?_⟩
      dsimp only
      omega
    · simp [PendingTaskScope.completeInternal, hcompleted, hnone]
    · intro r hr
      rw [PendingTaskScope.completeInternal, List.length_eq_zero_iff.1 hcompleted] at hr
      exact List.mem_singleton.1 hr
  · refine { h with disposing := iff_of_true rfl (Nat.succ_pos _), setcompletion := ?_ }
    dsimp only
    rw [hset]
    refine and_congr_left fun hdone => iff_of_true ?_ (Nat.succ_pos _)
    by_contra hcalls
    refine hzero ⟨by omega, ?_⟩
    rw [← Bool.not_eq_true, hset]
    exact fun hset => hcalls hset.1

theorem Consistent.step (h : s.Consistent) {a : ScopeAction τ E R} (htruthy : s.Truthy a)
    (hstep : s.step a = some s') : s'.Consistent := by
  cases a with
  | completeTask task result => exact h.completeTask htruthy hstep
  | add task => exact h.add hstep
  | attach i => exact h.attach hstep
  | report i => exact h.report hstep
  | finish i => exact h.finish hstep
  | whenAll => exact h.whenAll hstep

/-! ### What a run shows -/

/-- Some continuation has a step to take. -/
def Due (s : ScopeState τ E R) : Prop :=
  ∃ i, s.step (.attach i) ≠ none ∨ s.step (.report i) ≠ none ∨ s.step (.finish i) ≠ none

/-- What was completed stays completed. -/
theorem completed_grows {a : ScopeAction τ E R} (h : s.step a = some s') :
    s.scope.completed <+: s'.scope.completed := by
  cases a with
  | completeTask task result =>
    obtain ⟨-, rfl⟩ := step_completeTask h
    exact List.prefix_refl _
  | add task =>
    rcases step_add h with ⟨-, rfl⟩ | ⟨-, rfl⟩
    · exact List.prefix_refl _
    · exact List.prefix_refl _
  | attach i =>
    obtain ⟨task, -, rfl⟩ := step_attach h
    exact List.prefix_refl _
  | report i =>
    obtain ⟨task, result, -, -, rfl⟩ := step_report h
    exact List.prefix_refl _
  | finish i =>
    obtain ⟨task, -, rfl⟩ := step_finish h
    exact List.prefix_append _ _
  | whenAll =>
    obtain rfl := Option.some.inj h
    dsimp only [PendingTaskScope.whenAll]
    split_ifs
    · exact List.prefix_append _ _
    · exact List.prefix_refl _

/-- When the count is zero after a `when_all`, the task of the scope is completed or one
continuation is about to do it. -/
theorem Consistent.decided (h : s.Consistent) (hcalls : 0 < s.whenAlls)
    (hzero : unreported s.additions = 0) :
    s.scope.completed.length = 1 ∨
      ∃ i s', s.step (.finish i) = some s' ∧ s'.scope.completed.length = 1 := by
  have honce := h.once
  rw [if_pos (h.setcompletion.2 ⟨hcalls, hzero⟩)] at honce
  rcases Nat.eq_zero_or_pos (completing s.additions) with hnone | hpos
  · exact .inl (by omega)
  · obtain ⟨⟨task, p⟩, hmem, hp⟩ := List.countP_pos_iff.1 hpos
    obtain rfl : p = .completing := of_decide_eq_true hp
    obtain ⟨i, hi⟩ := List.getElem?_of_mem hmem
    have hstep : s.step (.finish i) = some
        { s with
          scope := s.scope.completeInternal
          additions := s.additions.set i ⟨task, .done⟩ } := by
      simp only [ScopeState.step, hi]
    refine .inr ⟨i, _, hstep, ?_⟩
    simp only [PendingTaskScope.completeInternal, List.length_append, List.length_singleton]
    omega

/-- A continuation of a completed task that has not gone through has a step to take. -/
theorem due_of_mem {x : Addition τ} (hx : x ∈ s.additions) (hreported : x.progress.reported = false)
    (hresult : (s.results x.task).isSome) : s.Due := by
  obtain ⟨i, hi⟩ := List.getElem?_of_mem hx
  obtain ⟨result, hresult⟩ := Option.isSome_iff_exists.1 hresult
  obtain ⟨task, p⟩ := x
  refine ⟨i, ?_⟩
  cases p with
  | counted => exact .inl (by simp [ScopeState.step, hi])
  | attached => exact .inr (.inl (by simp [ScopeState.step, hi, hresult]))
  | completing => cases hreported
  | done => cases hreported

/-- **The scope completes once, at the right moment and with the right result.** In every state of a
run in which the errors of the tasks are truthy: the task of the scope is completed at most once; it
is only completed after a `when_all` and after all the tasks that were added; as soon as both hold
it is completed or one continuation has nothing but that left to do, and as long as it is not
completed after a `when_all` some task is not completed or a continuation has a step to take;
`m_pending` is the number of tasks that were added and not reported, and stays zero after the
completion, which is final; the result is the first error seen under the lock, and an error iff some
task failed; a `+=` after a `when_all` throws and changes nothing, and one before it is defined as
long as the count fits in an `int`. -/
theorem completes_once (h : Reach step Truthy ({} : ScopeState τ E R) s) :
    s.scope.completed.length ≤ 1 ∧
    (s.scope.completed ≠ [] → 0 < s.whenAlls ∧
      ∀ x ∈ s.additions, x.progress.reported = true ∧ (s.results x.task).isSome) ∧
    (0 < s.whenAlls → (∀ x ∈ s.additions, x.progress.reported = true) →
      s.scope.completed.length = 1 ∨
        ∃ i s', s.step (.finish i) = some s' ∧ s'.scope.completed.length = 1) ∧
    (0 < s.whenAlls → (∀ x ∈ s.additions, (s.results x.task).isSome) →
      s.scope.completed.length = 1 ∨ s.Due) ∧
    s.scope.pending = (s.additions.filter fun x => !x.progress.reported).length ∧
    (s.scope.completed ≠ [] → ∀ s', Reach step Truthy s s' →
      s'.scope.pending = 0 ∧ s'.scope.completed = s.scope.completed) ∧
    (∀ r ∈ s.scope.completed,
      r = (match firstError s.reports with
        | some e => .error e
        | none => .ok ()) ∧
      ((∃ e, r = .error e) ↔ ∃ x ∈ s.additions, ∃ e, s.results x.task = some (.error e))) ∧
    (0 < s.whenAlls → ∀ task,
      s.scope.add = some (.error
        "can't add tasks to a pending scope once it starts disposing itself") ∧
      s.step (.add task) = some s) ∧
    (s.whenAlls = 0 → (s.additions.filter fun x => !x.progress.reported).length < 2 ^ 31 - 1 →
      ∀ task, s.step (.add task) ≠ none) := by
  have hs : s.Consistent := h.invariant .initial fun _ _ _ ha htruthy hstep => ha.step htruthy hstep
  have hcount : (s.additions.filter fun x => !x.progress.reported).length =
      unreported s.additions :=
    List.countP_eq_length_filter.symm
  refine ⟨hs.length_le, fun hne => ?_, fun hcalls hall => ?_, fun hcalls hall => ?_, ?_,
    fun hne s' hs' => ?_, fun r hr => ⟨?_, ?_⟩, fun hcalls task => ?_, fun hcalls hlt task => ?_⟩
  · obtain ⟨hcalls, hzero⟩ := hs.completed hne
    refine ⟨hcalls, fun x hx => ?_⟩
    have hreported := unreported_eq_zero.1 hzero x hx
    exact ⟨hreported, hs.isSome_of_reported hx hreported⟩
  · exact hs.decided hcalls (unreported_eq_zero.2 hall)
  · by_cases hreported : ∀ x ∈ s.additions, x.progress.reported = true
    · rcases hs.decided hcalls (unreported_eq_zero.2 hreported) with hdone | ⟨i, s', hi, -⟩
      · exact .inl hdone
      · exact .inr ⟨i, .inr (.inr (by simp [hi]))⟩
    · push Not at hreported
      obtain ⟨x, hx, hx'⟩ := hreported
      exact .inr (due_of_mem hx (Bool.eq_false_iff.2 hx') (hall x hx))
  · rw [hcount]
    exact hs.pending
  · have hpre : s.scope.completed <+: s'.scope.completed :=
      hs'.invariant (I := fun b => s.scope.completed <+: b.scope.completed) (List.prefix_refl _)
        fun _ _ _ ha _ hstep => ha.trans (completed_grows hstep)
    have hs' : s'.Consistent :=
      hs'.invariant hs fun _ _ _ ha htruthy hstep => ha.step htruthy hstep
    have hpos : 0 < s.scope.completed.length := List.length_pos_iff.2 hne
    have hle := hs'.length_le
    have heq : s.scope.completed = s'.scope.completed := hpre.eq_of_length_le (by omega)
    obtain ⟨-, hzero⟩ := hs'.completed (heq ▸ hne)
    exact ⟨by rw [hs'.pending, hzero]; rfl, heq.symm⟩
  · rw [hs.outcome r hr, hs.outcome_eq]
  · rw [hs.outcome r hr, hs.outcome_eq]
    obtain ⟨-, hzero⟩ := hs.completed (List.ne_nil_of_mem hr)
    exact hs.error_iff (unreported_eq_zero.1 hzero)
  · have hadd : s.scope.add = some (.error
        "can't add tasks to a pending scope once it starts disposing itself") :=
      if_pos (hs.disposing.2 hcalls)
    refine ⟨hadd, ?_⟩
    simp only [step, hadd]
  · have hd : ¬s.scope.disposing = true := by
      rw [hs.disposing]
      omega
    have hp : ¬s.scope.pending = 2 ^ 31 - 1 := by
      have hpending := hs.pending
      omega
    rw [step, PendingTaskScope.add, if_neg hd, if_neg hp]
    exact Option.some_ne_none _

/-- Error codes convert to `true` if they are not zero. -/
instance : ErrorType ℤ where
  default := 0
  toBool e := e != 0
  toBool_default := rfl

/-- No task fails with 0. -/
def truthyCheck (_ : ScopeState ℕ ℤ Unit) : ScopeAction ℕ ℤ Unit → Bool
  | .completeTask _ (.error e) => e != 0
  | _ => true

/-- Two tasks of which the first to complete fails with `7`, with the `when_all` in between. -/
theorem completes_once_failed : ∃ s, Reach step Truthy ({} : ScopeState ℕ ℤ Unit) s ∧
    s.scope.completed = [.error 7] ∧ s.scope.completed.length ≤ 1 := by
  have hcheck (s : ScopeState ℕ ℤ Unit) (a : ScopeAction ℕ ℤ Unit) (h : truthyCheck s a = true) :
      s.Truthy a := by
    rintro task e rfl
    exact h
  have hrun : (runWhile truthyCheck step ({} : ScopeState ℕ ℤ Unit) [.add 0, .add 1, .attach 1,
      .completeTask 1 (.error 7), .whenAll, .report 1, .completeTask 0 (.error 8), .attach 0,
      .report 0, .whenAll, .finish 0]).map (fun s => s.scope.completed) = some [.error 7] := by
    decide
  obtain ⟨s, hreach, hcompleted⟩ := exists_reach_of_runWhile hcheck hrun
  exact ⟨s, hreach, hcompleted, (completes_once hreach).1⟩

end ScopeState

end Arcana.Threading
