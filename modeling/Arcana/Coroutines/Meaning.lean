import Arcana.Plans.Outcome
import Arcana.Coroutines.Code
import Arcana.Tasks.Once

/-!
# Coroutines mean what the direct reading says

The code of coroutines follows plans (`discipline_sound`). The promise of a call is planned to hold
the result of the direct reading, and comes, in the order in which payloads are completed, after
every task that the body has at hand or makes: `Activation.Fits` says so of the rest of a body, and
`Counted.tasks` leaves the room for what it still makes. So in every run the task of a coroutine
whose direct reading has a result is completed with it (`coroutines_mean_eval`).

* `bodyPrices` are the prices of what a body does, and `Activation.price`, `Bottom.price` and
  `backPrice` those of the coroutines under way and of the way back to their callers.
* `Activation.Fits` and `BackFits` say that the rest of a body, and those who wait for it, keep to
  the plans; `discipline` is the discipline for user code that comes of them.
* `Runs.follows` says that a body makes only calls that keep to the plans, one case for each
  constructor, and `discipline_sound` that the code of coroutines does.
* `Answers` is what comes of a run, and `coroutines_mean_eval` says it of every run.

As in the code of coroutines, an exception that leaves a body goes to `set_exception`: this is the
branch of the source without `__clang__`.
-/

namespace Arcana.Coroutines

open Function Foundations Plans
open Tasks hiding Tariff

universe u v

variable {V : Type u} {X : Type v}

/-- What is planned for a coroutine's payloads. -/
abbrev PlanList (V : Type u) (X : Type v) := List (Plan (Code V X) V (Error X))

/-- The prices of what a body does. -/
@[simps] def bodyPrices (τ : Tariff) : Coroutine.Counted where
  leaves := 4 * τ.step
  awaits := 9 * τ.step + τ.call
  switches := 6 * τ.step + τ.call
  calls := τ.step
  makes := 6 * τ.step + τ.call
  continues := 9 * τ.step + τ.call

section

variable (ρ : PlanList V X)

/-- The result that is planned for the payload. -/
def wanted (p : ℕ) : Expected V (Error X) := (ρ[p]?.map Plan.result).getD (.ok .void)

/-- The results that are planned for tasks. -/
def values {n : ℕ} (tasks : Fin n → ℕ) (i : Fin n) : Expected V (Error X) := wanted ρ (tasks i)

/-- The tasks are planned to be completed before `rank`. -/
def Before {n : ℕ} (tasks : Fin n → ℕ) (rank : ℕ) : Prop :=
  ∀ i, ∃ pl, ρ[tasks i]? = some pl ∧ pl.rank < rank

/-- The rest of the body comes to what is planned for the promise, and makes its tasks from the rank
`base` on. -/
structure Activation.Fits (a : Activation V X) (base : ℕ) (pl : Plan (Code V X) V (Error X)) :
    Prop where
  tasks : Before ρ a.tasks base
  promise : ρ[a.promise]? = some pl
  source : pl.work = none
  eval : a.body.eval a.kind (values ρ a.tasks) a.held = some pl.result
  rank : base + a.body.count .tasks a.kind (values ρ a.tasks) a.held = pl.rank

/-- What a coroutine that is under way pays for. -/
def Activation.price (τ : Tariff) (a : Activation V X) : ℕ :=
  a.body.count (bodyPrices τ) a.kind (values ρ a.tasks) a.held + τ.completion a.promise

/-- What the way back pays for. -/
def Bottom.price (τ : Tariff) : Bottom → ℕ
  | .resumed => τ.step
  | .main _ _ => 11 * τ.step + τ.call + τ.observation

/-- What the callers and the way back pay for. -/
def backPrice (τ : Tariff) (callers : List (Activation V X)) (bottom : Bottom) : ℕ :=
  (callers.map (Activation.price ρ τ)).sum + bottom.price τ

/-- The callers can go on, and the task that is observed is planned to hold `main`. -/
structure BackFits (main : Expected V (Error X)) (callers : List (Activation V X))
    (bottom : Bottom) : Prop where
  callers : ∀ a ∈ callers, ∃ base pl, a.Fits ρ base pl
  bottom : ∀ scheduler q, bottom = .main scheduler q → ∃ pl, ρ[q]? = some pl ∧ pl.result = main

end

/-- **The discipline of coroutines** of which the outermost comes to `main`. -/
def discipline (main : Expected V (Error X)) : Discipline (Code V X) V (Error X) where
  Fits ρ u := match u with
    | .start kind c _ => c.eval kind Fin.elim0 Fin.elim0 = some main
    | .active a callers bottom => (∃ base pl, a.Fits ρ base pl) ∧ BackFits ρ main callers bottom
    | .attach _ q => ∃ pl, ρ[q]? = some pl ∧ pl.result = main
    | .ret r => ∃ y, outputWrapper r = some y
    | .observe r => r = main
    | .setException .. | .terminate => False
  result u := match u with
    | .ret r => (outputWrapper r).getD (.ok .void)
    | _ => .ok .void
  price τ ρ u := match u with
    | .start kind c scheduler =>
      τ.step + c.count (bodyPrices τ) kind Fin.elim0 Fin.elim0 + (Bottom.main scheduler 0).price τ
    | .active a callers bottom => a.price ρ τ + backPrice ρ τ callers bottom
    | .attach _ _ => 11 * τ.step + τ.call + τ.observation
    | .ret _ => τ.step
    | .observe _ => 2 * τ.step + τ.observation
    | .setException .. | .terminate => 0
  Observable r := r = main

section

variable {ρ : PlanList V X} {main : Expected V (Error X)} {τ : Tariff}

@[simp] theorem price_active (a : Activation V X) (callers : List (Activation V X))
    (bottom : Bottom) : (discipline main).price τ ρ (.active a callers bottom) =
      a.price ρ τ + backPrice ρ τ callers bottom := rfl

@[simp] theorem price_ret (r : Return V (Error X)) :
    (discipline main).price τ ρ (.ret r) = τ.step := rfl

@[simp] theorem backPrice_cons (a : Activation V X) (callers : List (Activation V X))
    (bottom : Bottom) : backPrice ρ τ (a :: callers) bottom =
      a.price ρ τ + backPrice ρ τ callers bottom := by
  simp [backPrice, add_assoc]

@[simp] theorem backPrice_resumed : backPrice ρ τ [] .resumed = τ.step :=
  Nat.zero_add _

end

/-! ## More plans -/

section mono

variable {ρ ρ' : PlanList V X} {main : Expected V (Error X)}

theorem wanted_eq {p : ℕ} {pl : Plan (Code V X) V (Error X)} (h : ρ[p]? = some pl) :
    wanted ρ p = pl.result := by
  simp [wanted, h]

theorem values_mono (hρ : ρ <+: ρ') {n : ℕ} {tasks : Fin n → ℕ} {rank : ℕ}
    (h : Before ρ tasks rank) : values ρ' tasks = values ρ tasks := by
  funext i
  obtain ⟨pl, hpl, -⟩ := h i
  rw [values, values, wanted_eq hpl, wanted_eq (plan_mono hρ hpl)]

theorem Before.mono (hρ : ρ <+: ρ') {n : ℕ} {tasks : Fin n → ℕ} {rank rank' : ℕ}
    (h : Before ρ tasks rank) (hle : rank ≤ rank') : Before ρ' tasks rank' := by
  intro i
  obtain ⟨pl, hpl, hlt⟩ := h i
  exact ⟨pl, plan_mono hρ hpl, hlt.trans_le hle⟩

/-- A task that was made is at hand. -/
theorem Before.push {n : ℕ} {tasks : Fin n → ℕ} {rank rank' : ℕ} (h : Before ρ tasks rank)
    (pl : Plan (Code V X) V (Error X)) (hle : rank ≤ rank') (hlt : pl.rank < rank') :
    Before (ρ ++ [pl]) (Coroutines.push ρ.length tasks) rank' := by
  intro i
  cases i using Fin.cases with
  | zero => exact ⟨pl, List.getElem?_concat_length .., hlt⟩
  | succ i => exact h.mono (List.prefix_append ρ [pl]) hle i

theorem values_push {n : ℕ} {tasks : Fin n → ℕ} {rank : ℕ} (h : Before ρ tasks rank)
    (pl : Plan (Code V X) V (Error X)) :
    values (ρ ++ [pl]) (push ρ.length tasks) = push pl.result (values ρ tasks) := by
  funext i
  cases i using Fin.cases with
  | zero => exact wanted_eq (List.getElem?_concat_length ..)
  | succ i => exact congrFun (values_mono (List.prefix_append ρ [pl]) h) i

theorem Activation.Fits.mono (hρ : ρ <+: ρ') {a : Activation V X} {base : ℕ}
    {pl : Plan (Code V X) V (Error X)} (h : a.Fits ρ base pl) : a.Fits ρ' base pl where
  tasks := h.tasks.mono hρ le_rfl
  promise := plan_mono hρ h.promise
  source := h.source
  eval := by
    rw [values_mono hρ h.tasks]
    exact h.eval
  rank := by
    rw [values_mono hρ h.tasks]
    exact h.rank

theorem Activation.Fits.price_mono (hρ : ρ <+: ρ') {a : Activation V X} {base : ℕ}
    {pl : Plan (Code V X) V (Error X)} (h : a.Fits ρ base pl) (τ : Tariff) :
    a.price ρ' τ = a.price ρ τ := by
  rw [Activation.price, Activation.price, values_mono hρ h.tasks]

theorem BackFits.mono (hρ : ρ <+: ρ') {callers : List (Activation V X)} {bottom : Bottom}
    (h : BackFits ρ main callers bottom) : BackFits ρ' main callers bottom where
  callers a ha := by
    obtain ⟨base, pl, hfits⟩ := h.callers a ha
    exact ⟨base, pl, hfits.mono hρ⟩
  bottom scheduler q hq := by
    obtain ⟨pl, hpl, hresult⟩ := h.bottom scheduler q hq
    exact ⟨pl, plan_mono hρ hpl, hresult⟩

theorem backPrice_mono (hρ : ρ <+: ρ') {callers : List (Activation V X)} {bottom : Bottom}
    (h : BackFits ρ main callers bottom) (τ : Tariff) :
    backPrice ρ' τ callers bottom = backPrice ρ τ callers bottom := by
  rw [backPrice, backPrice, List.map_congr_left fun a ha => ?_]
  obtain ⟨base, pl, hfits⟩ := h.callers a ha
  exact hfits.price_mono hρ τ

end mono

/-! ## What code does -/

section follows

variable {ρ : PlanList V X} {main : Expected V (Error X)} {callers : List (Activation V X)}
  {bottom : Bottom}

theorem resume_fits (h : BackFits ρ main callers bottom) :
    (discipline main).Fits ρ (Code.resume callers bottom) := by
  cases callers with
  | nil =>
    cases bottom with
    | resumed => exact ⟨_, rfl⟩
    | main scheduler q => exact h.bottom scheduler q rfl
  | cons a callers =>
    exact ⟨h.callers a (.head _), fun a' ha' => h.callers a' (.tail _ ha'), h.bottom⟩

theorem resume_result (callers : List (Activation V X)) (bottom : Bottom) :
    (discipline main).result (Code.resume callers bottom) = .ok .void := by
  cases callers with
  | nil => cases bottom <;> rfl
  | cons => rfl

theorem resume_price (τ : Tariff) (callers : List (Activation V X)) (bottom : Bottom) :
    (discipline main).price τ ρ (Code.resume callers bottom) = backPrice ρ τ callers bottom := by
  cases callers with
  | nil => cases bottom <;> simp [Code.resume, discipline, backPrice, Bottom.price]
  | cons a callers => simp [Code.resume]

/-- A body, as the code that runs it. -/
structure Runs (main : Expected V (Error X)) (ρ : PlanList V X) (u : Code V X)
    (a : Activation V X) (callers : List (Activation V X)) (bottom : Bottom) : Prop where
  fits : ∃ base pl, a.Fits ρ base pl
  back : BackFits ρ main callers bottom
  result : (discipline main).result u = .ok .void
  price : ∀ τ, (discipline main).price τ ρ u = a.price ρ τ + backPrice ρ τ callers bottom

/-- A body that is resumed on its own completes nothing but its promise. -/
theorem after_resumed {a : Activation V X} {base rank : ℕ} {pl : Plan (Code V X) V (Error X)}
    (h : a.Fits ρ base pl) (hrank : rank < base) :
    (discipline main).After ρ rank (.active a [] .resumed) := by
  intro q hq
  have hzero : a.body.count (bodyPrices (.completing q)) a.kind (values ρ a.tasks) a.held = 0 :=
    a.body.count_eq_zero a.kind (values ρ a.tasks) a.held
  have e : a.promise = q := by
    by_contra hne
    rw [price_active, Activation.price, hzero] at hq
    simp [hne] at hq
  have hle := h.rank
  exact ⟨pl, e ▸ h.promise, by omega⟩

theorem after_ret (rank : ℕ) (r : Return V (Error X)) :
    (discipline main).After ρ rank (.ret r) := by
  intro q hq
  cases hq

theorem after_observe (rank : ℕ) (r : Expected V (Error X)) :
    (discipline main).After ρ rank (.observe r) := by
  intro q hq
  cases hq

/-- A body that is resumed on its own fits. -/
theorem resumed_fits {a : Activation V X} {base : ℕ} {pl : Plan (Code V X) V (Error X)}
    (h : a.Fits ρ base pl) : (discipline main).Fits ρ (.active a [] .resumed) :=
  ⟨⟨base, pl, h⟩, nofun, nofun⟩

theorem leave_eq {kind : ErrorKind} {promise : ℕ} {held : List (AwaiterResult V X)}
    (h : unwind none held = some none) :
    Code.leave kind promise callers bottom held (.ok ()) = Code.resume callers bottom := by
  simp [Code.leave, h]

/-- The body goes back while it waits. -/
theorem Runs.goesBack {u : Code V X} {a : Activation V X} (h : Runs main ρ u a callers bottom)
    (pl : Plan (Code V X) V (Error X)) :
    (discipline main).GoesOn (ρ ++ [pl]) u (Code.resume callers bottom) where
  fits := resume_fits (h.back.mono (List.prefix_append _ _))
  result := (resume_result callers bottom).trans h.result.symm

/-- The body waits for a task: the callable of `then` resumes the rest `a'` of it. -/
theorem Runs.awaits {u : Code V X} {a : Activation V X} (a' : Activation V X)
    (h : Runs main ρ u a callers bottom) {base p : ℕ} {pl pl' : Plan (Code V X) V (Error X)}
    {scheduler : Scheduler}
    {callable : Expected V (Error X) → Code V X} (hp : ρ[p]? = some pl') (hrank : pl'.rank < base)
    (hcallable : callable pl'.result = .active a' [] .resumed) (hfits : a'.Fits ρ base pl)
    (hprice : ∀ τ, a.price ρ τ = 9 * τ.step + τ.call + a'.price ρ τ) :
    (discipline main).Follows ρ u
      (.thenDo p scheduler false true false callable fun _ => Code.resume callers bottom) := by
  refine .thenDo (pl'.rank + 1) hp (Nat.lt_succ_self _) ?_ ?_ (h.goesBack _) fun τ => ?_
  · rw [hcallable]
    exact resumed_fits hfits
  · rw [hcallable]
    exact after_resumed hfits hrank
  · rw [hcallable, price_active, backPrice_resumed, resume_price, h.price, hprice,
      backPrice_mono (List.prefix_append _ _) h.back]
    omega

/-- What a body does with its results on the way to the rest `a'` of it is no call. -/
theorem Runs.step {u : Code V X} {a a' : Activation V X} (h : Runs main ρ u a callers bottom)
    (fits : ∀ base pl, a.Fits ρ base pl → a'.Fits ρ base pl)
    (price : ∀ τ, a.price ρ τ = a'.price ρ τ) : Runs main ρ u a' callers bottom where
  fits := by
    obtain ⟨base, pl, hfits⟩ := h.fits
    exact ⟨base, pl, fits base pl hfits⟩
  back := h.back
  result := h.result
  price τ := by rw [h.price, price]

variable {u : Code V X} {kind : ErrorKind} {promise n m : ℕ} {tasks : Fin n → ℕ}
  {held : Fin m → AwaiterResult V X}

/-- `co_return` completes the promise, and throws nothing. -/
theorem Runs.coReturn {r : Expected V (Error X)}
    (h : Runs main ρ u ⟨kind, .coReturn r, tasks, held, promise⟩ callers bottom) :
    (discipline main).Follows ρ u
      (Code.run kind promise callers bottom (.coReturn r) tasks held) := by
  obtain ⟨base, ⟨result, rank, _⟩, -, hpromise, rfl, heval, -⟩ := h.fits
  simp only [Coroutine.eval] at heval
  split at heval
  · rename_i hunwind
    cases heval
    refine .complete hpromise rfl ?_ fun τ => ?_
    · rw [leave_eq hunwind]
      exact ⟨resume_fits h.back, (resume_result callers bottom).trans h.result.symm⟩
    · rw [leave_eq hunwind, resume_price, h.price]
      rfl
  · cases heval

/-- An exception that leaves the body completes the promise with an error. -/
theorem Runs.throws {x : Exception X}
    (h : Runs main ρ u ⟨kind, .throws x, tasks, held, promise⟩ callers bottom) :
    (discipline main).Follows ρ u
      (Code.run kind promise callers bottom (.throws x) tasks held) := by
  obtain ⟨base, ⟨result, rank, _⟩, -, hpromise, rfl, heval, -⟩ := h.fits
  simp only [Coroutine.eval] at heval
  split at heval
  · rename_i x' hunwind
    obtain ⟨e, he, rfl⟩ := Option.map_eq_some_iff.1 heval
    simp only [Code.run, hunwind, Code.handle, he]
    refine .complete hpromise rfl ?_ fun τ => ?_
    · exact ⟨resume_fits h.back, (resume_result callers bottom).trans h.result.symm⟩
    · rw [resume_price, h.price]
      rfl
  · cases heval

theorem Runs.coAwait {scheduler : Scheduler} {i : Fin n} {k : Coroutine V X n (m + 1)}
    (h : Runs main ρ u ⟨kind, .coAwait scheduler i k, tasks, held, promise⟩ callers bottom) :
    (discipline main).Follows ρ u
      (Code.run kind promise callers bottom (.coAwait scheduler i k) tasks held) := by
  obtain ⟨base, ⟨result, rank, _⟩, htasks, hpromise, rfl, heval, hrank⟩ := h.fits
  obtain ⟨pl', hpl', hlt⟩ := htasks i
  simp only [Coroutine.count, Coroutine.Counted.tasks_awaits, zero_add] at hrank
  refine Runs.awaits ⟨kind, k, tasks, push ⟨values ρ tasks i, false⟩ held, promise⟩ h hpl' hlt ?_
    ⟨htasks, hpromise, rfl, heval, hrank⟩ fun τ => ?_
  · rw [values, wanted_eq hpl']
  · simp only [Activation.price, Coroutine.count, bodyPrices_awaits]
    omega

theorem Runs.coAwaitValue {scheduler : Scheduler} {i : Fin n}
    {k : Except (Exception X) (Value V) → Coroutine V X n m}
    (h : Runs main ρ u ⟨kind, .coAwaitValue scheduler i k, tasks, held, promise⟩ callers bottom) :
    (discipline main).Follows ρ u
      (Code.run kind promise callers bottom (.coAwaitValue scheduler i k) tasks held) := by
  obtain ⟨base, ⟨result, rank, _⟩, htasks, hpromise, rfl, heval, hrank⟩ := h.fits
  obtain ⟨pl', hpl', hlt⟩ := htasks i
  simp only [Coroutine.count, Coroutine.Counted.tasks_awaits, zero_add] at hrank
  refine Runs.awaits ⟨kind, k ((values ρ tasks i).mapError Error.raise), tasks, held, promise⟩ h
    hpl' hlt ?_ ⟨htasks, hpromise, rfl, heval, hrank⟩ fun τ => ?_
  · rw [values, wanted_eq hpl']
  · simp only [Activation.price, Coroutine.count, bodyPrices_awaits]
    omega

theorem Runs.switchTo {scheduler : Scheduler} {k : Coroutine V X n m}
    (h : Runs main ρ u ⟨kind, .switchTo scheduler k, tasks, held, promise⟩ callers bottom) :
    (discipline main).Follows ρ u
      (Code.run kind promise callers bottom (.switchTo scheduler k) tasks held) := by
  obtain ⟨base, ⟨result, rank, _⟩, htasks, hpromise, rfl, heval, hrank⟩ := h.fits
  simp only [Coroutine.count, Coroutine.Counted.tasks_switches, zero_add] at hrank
  refine .makeTask 0 (resumed_fits ⟨htasks, hpromise, rfl, heval, hrank⟩) (h.goesBack _) fun τ => ?_
  rw [price_active, backPrice_resumed, resume_price, h.price,
    backPrice_mono (List.prefix_append _ _) h.back]
  simp only [Activation.price, Coroutine.count, bodyPrices_switches]
  omega

/-- A body goes on with a task that was made. -/
theorem fits_push {base : ℕ} {k : Coroutine V X (n + 1) m} {pl : Plan (Code V X) V (Error X)}
    (new : Plan (Code V X) V (Error X)) (htasks : Before ρ tasks base) (hle : base ≤ new.rank)
    (hpromise : ρ[promise]? = some pl) (hsource : pl.work = none)
    (heval : k.eval kind (push new.result (values ρ tasks)) held = some pl.result)
    (hrank : new.rank + 1 + k.count .tasks kind (push new.result (values ρ tasks)) held = pl.rank) :
    Activation.Fits (ρ ++ [new]) ⟨kind, k, push ρ.length tasks, held, promise⟩
      (new.rank + 1) pl where
  tasks := htasks.push new (by omega) (Nat.lt_succ_self _)
  promise := plan_mono (List.prefix_append _ _) hpromise
  source := hsource
  eval := by
    rw [values_push htasks]
    exact heval
  rank := by
    rw [values_push htasks]
    exact hrank

/-- The call of a coroutine: its promise is planned to hold what it comes to. -/
theorem Runs.call {kind' : ErrorKind} {c : Coroutine V X n 0} {k : Coroutine V X (n + 1) m}
    (h : Runs main ρ u ⟨kind, .call kind' c k, tasks, held, promise⟩ callers bottom) :
    (discipline main).Follows ρ u
      (Code.run kind promise callers bottom (.call kind' c k) tasks held) := by
  obtain ⟨base, ⟨result, rank, _⟩, htasks, hpromise, rfl, heval, hrank⟩ := h.fits
  obtain ⟨r, hr, hk⟩ := Option.bind_eq_some_iff.1 heval
  simp only [Coroutine.count, Coroutine.Counted.tasks_calls, hr, Option.elim_some] at hrank
  let new : Plan (Code V X) V (Error X) :=
    ⟨r, base + c.count .tasks kind' (values ρ tasks) Fin.elim0, none⟩
  have hρ : ρ <+: ρ ++ [new] := List.prefix_append _ _
  have hvalues := values_mono hρ htasks
  refine .source new rfl ⟨⟨⟨base, new, ?_⟩, ?_, (h.back.mono hρ).bottom⟩, h.result.symm⟩ fun τ => ?_
  · exact ⟨htasks.mono hρ le_rfl, List.getElem?_concat_length .., rfl, by rw [hvalues]; exact hr,
      by rw [hvalues]⟩
  · have hcaller := fits_push new htasks (Nat.le_add_right _ _) hpromise rfl hk
      (by simp only [new]; omega)
    exact List.forall_mem_cons.2 ⟨⟨_, _, hcaller⟩, (h.back.mono hρ).callers⟩
  · have hpush : values (ρ ++ [new]) (push ρ.length tasks) = push r (values ρ tasks) :=
      values_push htasks new
    rw [h.price, price_active, backPrice_cons, backPrice_mono hρ h.back]
    simp only [Activation.price, Coroutine.count, hr, hvalues, hpush, bodyPrices_calls,
      Option.elim_some]
    omega

/-- A body that makes a task goes on with it. -/
theorem Runs.makes {base : ℕ} {k : Coroutine V X (n + 1) m} {a : Activation V X}
    {pl : Plan (Code V X) V (Error X)} (new : Plan (Code V X) V (Error X))
    (h : Runs main ρ u a callers bottom)
    (hfits : Activation.Fits (ρ ++ [new]) ⟨kind, k, push ρ.length tasks, held, promise⟩ base pl) :
    (discipline main).GoesOn (ρ ++ [new]) u
      (.active ⟨kind, k, push ρ.length tasks, held, promise⟩ callers bottom) where
  fits := ⟨⟨base, pl, hfits⟩, h.back.mono (List.prefix_append _ _)⟩
  result := h.result.symm

theorem Runs.makeTask {scheduler : Scheduler} {r : Expected V (Error X)}
    {k : Coroutine V X (n + 1) m}
    (h : Runs main ρ u ⟨kind, .makeTask scheduler r k, tasks, held, promise⟩ callers bottom) :
    (discipline main).Follows ρ u
      (Code.run kind promise callers bottom (.makeTask scheduler r k) tasks held) := by
  obtain ⟨base, ⟨result, rank, _⟩, htasks, hpromise, rfl, heval, hrank⟩ := h.fits
  simp only [Coroutine.count, Coroutine.Counted.tasks_makes] at hrank
  have hnew := fits_push ((discipline main).task base none (.ret (.expected r))) htasks le_rfl
    hpromise rfl heval ((Nat.add_assoc ..).trans hrank)
  have hpush : values (ρ ++ [(discipline main).task base none (.ret (.expected r))])
      (push ρ.length tasks) = push r (values ρ tasks) := values_push htasks _
  refine .makeTask base ⟨r, rfl⟩ (h.makes _ hnew) fun τ => ?_
  rw [h.price, price_ret, price_active, backPrice_mono (List.prefix_append ..) h.back]
  simp only [Activation.price, Coroutine.count, hpush, bodyPrices_makes]
  omega

theorem Runs.thenDo {i : Fin n} {scheduler : Scheduler}
    {callable : Expected V (Error X) → Expected V (Error X)} {k : Coroutine V X (n + 1) m}
    (h : Runs main ρ u ⟨kind, .thenDo i scheduler callable k, tasks, held, promise⟩ callers
      bottom) :
    (discipline main).Follows ρ u
      (Code.run kind promise callers bottom (.thenDo i scheduler callable k) tasks held) := by
  obtain ⟨base, ⟨result, rank, _⟩, htasks, hpromise, rfl, heval, hrank⟩ := h.fits
  obtain ⟨pl', hpl', hlt⟩ := htasks i
  have hvalue : values ρ tasks i = pl'.result := wanted_eq hpl'
  simp only [Coroutine.count, Coroutine.Counted.tasks_continues, hvalue] at hrank
  simp only [Coroutine.eval, hvalue] at heval
  have hnew := fits_push ((discipline main).task base (some (tasks i))
    (.ret (.expected (callable pl'.result)))) htasks le_rfl hpromise rfl heval
    ((Nat.add_assoc ..).trans hrank)
  have hpush : values (ρ ++ [(discipline main).task base (some (tasks i))
      (.ret (.expected (callable pl'.result)))]) (push ρ.length tasks) =
      push (callable pl'.result) (values ρ tasks) := values_push htasks _
  refine .thenDo base hpl' hlt ⟨_, rfl⟩ (after_ret _ _) (h.makes _ hnew) fun τ => ?_
  rw [h.price, price_ret, price_active, backPrice_mono (List.prefix_append ..) h.back]
  simp only [Activation.price, Coroutine.count, hvalue, hpush, bodyPrices_continues]
  omega

/-- A result is converted: the rest `c'` of the body is read as the body is. -/
theorem Runs.converts {c c' : Coroutine V X n m} {held' : Fin m → AwaiterResult V X}
    (h : Runs main ρ u ⟨kind, c, tasks, held, promise⟩ callers bottom)
    (heval : ∀ values, c.eval kind values held = c'.eval kind values held')
    (hcount : ∀ w values, c.count w kind values held = c'.count w kind values held') :
    Runs main ρ u ⟨kind, c', tasks, held', promise⟩ callers bottom := by
  refine h.step (fun base pl hfits => ?_) fun τ => ?_
  · exact ⟨hfits.tasks, hfits.promise, hfits.source, (heval _).symm.trans hfits.eval,
      hcount _ _ ▸ hfits.rank⟩
  · rw [Activation.price, Activation.price, hcount]

/-- A scope ends. -/
theorem Runs.leaveScope {unwinding : Bool} {held : Fin (m + 1) → AwaiterResult V X}
    {k : Except (Exception X) Unit → Coroutine V X n m}
    (h : Runs main ρ u ⟨kind, .leaveScope unwinding k, tasks, held, promise⟩ callers bottom)
    (ih : ∀ r, Runs main ρ u ⟨kind, k r, tasks, Fin.tail held, promise⟩ callers bottom →
      (discipline main).Follows ρ u
        (Code.run kind promise callers bottom (k r) tasks (Fin.tail held))) :
    (discipline main).Follows ρ u
      (Code.run kind promise callers bottom (.leaveScope unwinding k) tasks held) := by
  obtain ⟨_, _, hfits⟩ := h.fits
  obtain ⟨r, hleave, -⟩ := Option.bind_eq_some_iff.1 hfits.eval
  have hrun : Code.run kind promise callers bottom (.leaveScope unwinding k) tasks held =
      Code.run kind promise callers bottom (k r) tasks (Fin.tail held) := by
    simp only [Code.run, hleave, Option.elim_some]
  rw [hrun]
  refine ih r (h.step (fun base pl hfits => ?_) fun τ => ?_)
  · obtain ⟨htasks, hpromise, hsource, heval, hrank⟩ := hfits
    simp only [Coroutine.eval, hleave, Option.bind_some] at heval
    simp only [Coroutine.count, hleave, Option.elim_some] at hrank
    exact ⟨htasks, hpromise, hsource, heval, hrank⟩
  · simp only [Activation.price, Coroutine.count, hleave, Option.elim_some]

/-- **A body makes the calls that keep to the plans.** -/
theorem Runs.follows {n m : ℕ} (c : Coroutine V X n m) (tasks : Fin n → ℕ)
    (held : Fin m → AwaiterResult V X)
    (h : Runs main ρ u ⟨kind, c, tasks, held, promise⟩ callers bottom) :
    (discipline main).Follows ρ u (Code.run kind promise callers bottom c tasks held) := by
  induction c with
  | coReturn r => exact h.coReturn
  | throws x => exact h.throws
  | coAwait scheduler i k => exact h.coAwait
  | coAwaitValue scheduler i k => exact h.coAwaitValue
  | toExpected j k ih => exact ih _ _ _ (h.converts (fun _ => rfl) fun _ _ => rfl)
  | toValue j k ih => exact ih _ _ _ (h.converts (fun _ => rfl) fun _ _ => rfl)
  | leaveScope unwinding k ih => exact h.leaveScope fun r => ih r tasks _
  | switchTo scheduler k => exact h.switchTo
  | call kind' c k => exact h.call
  | makeTask scheduler r k => exact h.makeTask
  | thenDo i scheduler callable k => exact h.thenDo

theorem Runs.of_fits {a : Activation V X} (h : ∃ base pl, a.Fits ρ base pl)
    (hback : BackFits ρ main callers bottom) :
    Runs main ρ (.active a callers bottom) a callers bottom :=
  ⟨h, hback, rfl, fun _ => rfl⟩

theorem follows_start {c : Coroutine V X 0 0} {scheduler : Scheduler}
    (h : (discipline main).Fits ρ (.start kind c scheduler)) :
    (discipline main).Follows ρ (.start kind c scheduler)
    (Code.act (.start kind c scheduler) ()) := by
  let new : Plan (Code V X) V (Error X) := ⟨main, c.count .tasks kind Fin.elim0 Fin.elim0, none⟩
  have hvalues : values (ρ ++ [new]) Fin.elim0 = Fin.elim0 := Subsingleton.elim _ _
  refine .source new rfl ⟨⟨⟨0, new, ?_⟩, nofun, ?_⟩, rfl⟩ fun τ => ?_
  · exact ⟨nofun, List.getElem?_concat_length .., rfl, hvalues ▸ h,
      (Nat.zero_add _).trans (hvalues ▸ rfl)⟩
  · intro scheduler' q hq
    cases hq
    exact ⟨new, List.getElem?_concat_length .., rfl⟩
  · rw [price_active]
    simp only [discipline, Activation.price, hvalues, backPrice, Bottom.price]
    simp only [List.map_nil, List.sum_nil]
    omega

theorem follows_attach {scheduler : Scheduler} {q : ℕ}
    (h : (discipline main).Fits ρ (.attach scheduler q)) :
    (discipline main).Follows ρ (.attach scheduler q) (Code.act (.attach scheduler q) ()) := by
  obtain ⟨pl, hpl, rfl⟩ := h
  refine .thenDo (pl.rank + 1) hpl (Nat.lt_succ_self _) rfl (after_observe _ _) ⟨⟨_, rfl⟩, rfl⟩
    fun τ => ?_
  simp only [discipline]
  omega

/-- **The code of coroutines follows plans.** -/
theorem discipline_sound (main : Expected V (Error X)) : (discipline main).Sound Code.act where
  fits_mono {ρ ρ' u} hρ h := by
    cases u with
    | start | ret | observe => exact h
    | active a callers bottom =>
      obtain ⟨⟨base, pl, hfits⟩, hback⟩ := h
      exact ⟨⟨base, pl, hfits.mono hρ⟩, hback.mono hρ⟩
    | attach scheduler q =>
      obtain ⟨pl, hpl, hresult⟩ := h
      exact ⟨pl, plan_mono hρ hpl, hresult⟩
    | setException | terminate => exact h
  price_mono {ρ ρ' u} τ hρ h := by
    cases u with
    | active a callers bottom =>
      obtain ⟨⟨base, pl, hfits⟩, hback⟩ := h
      rw [price_active, price_active, hfits.price_mono hρ, backPrice_mono hρ hback]
    | start | attach | ret | observe | setException | terminate => rfl
  follows {ρ u} h := by
    cases u with
    | start kind c scheduler => exact follows_start h
    | active a callers bottom => exact (Runs.of_fits h.1 h.2).follows a.body a.tasks a.held
    | attach scheduler q => exact follows_attach h
    | ret r =>
      obtain ⟨y, hy⟩ := h
      exact .ret (by simp [discipline, hy]) fun _ => rfl
    | observe r =>
      refine .emit h ⟨⟨_, rfl⟩, rfl⟩ fun τ => ?_
      simp only [discipline]
      omega
    | setException | terminate => cases h

end follows

/-! ## What comes of a coroutine -/

section

variable {T : Type*} [DecidableEq T] {t₀ : T} {kind : ErrorKind} {c : Coroutine V X 0 0}
  {scheduler : Scheduler} {r : Expected V (Error X)}

/-- What each thread begins with. -/
theorem threads_launches (hr : c.eval kind Fin.elim0 Fin.elim0 = some r) (t : T) :
    (discipline r).Launches (threads t₀ kind c scheduler t) := by
  unfold threads
  split
  · exact ⟨hr, fun q => (Nat.zero_add _).trans (c.count_eq_zero kind Fin.elim0 Fin.elim0)⟩
  · exact ⟨⟨_, rfl⟩, fun q => rfl⟩

/-- The calls of `act` on code that fits terminate nothing. -/
theorem act_ne_terminates {ρ : PlanList V X} {u : Code V X} (h : (discipline r).Fits ρ u) :
    Code.act u () ≠ Code.terminates := by
  intro heq
  have hfollows := (discipline_sound r).follows h
  rw [heq] at hfollows
  cases hfollows with
  | ret hreturns => cases hreturns

variable [Fintype T]

/-- The threads pay for what the body does, and for the continuation that observes its task. -/
theorem budget_threads (τ : Tariff) (hstep : τ.step = 0) :
    (discipline r).budget (threads t₀ kind c scheduler) τ =
      c.count (bodyPrices τ) kind Fin.elim0 Fin.elim0 + τ.call + τ.observation := by
  rw [Discipline.budget, Finset.sum_eq_single t₀]
  · simp [threads, discipline, Bottom.price, hstep, Nat.add_assoc]
  · intro t _ ht
    rw [threads, if_neg ht, price_ret, hstep]
  · simp

theorem observations_threads :
    (discipline r).budget (threads t₀ kind c scheduler) (.free .observations) = 1 := by
  rw [budget_threads _ rfl]
  exact congrArg (· + 0 + 1) (c.count_eq_zero kind Fin.elim0 Fin.elim0)

theorem calls_threads : (discipline r).budget (threads t₀ kind c scheduler) (.free .calls) =
    c.count .invocations kind Fin.elim0 Fin.elim0 + 1 :=
  budget_threads _ rfl

/-- What comes of a coroutine with the result `r`, in a state `s` of a run. -/
structure Answers (r : Expected V (Error X)) (s : State T (Code V X) V (Error X)) : Prop where
  safe : ∀ t u, .user u ∈ s.stack t → Code.act u () ≠ Code.terminates
  seen : s.emitted = [] ∨ s.emitted = [r]
  terminates : Acc (fun b a => ∃ l, step Code.act a l = some b) s
  finished : (∀ l, step Code.act s l = none) → (∀ t, s.stack t = []) ∧ s.queue = [] ∧
    s.emitted = [r] ∧ ∀ p < s.next, (s.heap p).completed = true

/-- What comes of the discipline comes of the coroutine. -/
theorem answers_of_outcome {s : State T (Code V X) V (Error X)}
    (h : (discipline r).Outcome Code.act (threads t₀ kind c scheduler) s) : Answers r s := by
  obtain ⟨⟨ρ, hfits⟩, hemitted, hobservations, -, hends, hfinished⟩ := h
  rw [observations_threads] at hobservations hfinished
  have hseen : s.emitted = List.replicate s.emitted.length r := List.eq_replicate_length.2 hemitted
  refine ⟨fun t u hu => act_ne_terminates (hfits t u hu), ?_, hends, fun hstuck => ?_⟩
  · obtain hzero | hone := Nat.le_one_iff_eq_zero_or_eq_one.1 hobservations
    · exact .inl (List.length_eq_zero_iff.1 hzero)
    · rw [hone] at hseen
      exact .inr hseen
  · obtain ⟨hstack, hqueue, hcompleted, hlength, -⟩ := hfinished hstuck
    rw [hlength] at hseen
    exact ⟨hstack, hqueue, hseen, hcompleted⟩

/-- **Coroutines mean what the direct reading says, whatever the schedulers do.** In every state of
every run of a coroutine that the direct reading gives a result, with any number of threads that run
what is queued in any order: no destructor and no handler of exceptions terminates the program; no
callable was invoked twice, and no more of them than are counted, with the continuation that
observes the task; this one has seen nothing yet, or the result. No run goes on for ever; and where
it ends nothing is under way or queued, the result was seen, every task is completed, and every
callable that is counted was invoked. -/
theorem coroutines_mean_eval (hr : c.eval kind Fin.elim0 Fin.elim0 = some r)
    {s : State T (Code V X) V (Error X)}
    (h : Reach (step Code.act) anyStep (launch t₀ kind c scheduler) s) :
    (∀ t u, .user u ∈ s.stack t → Code.act u () ≠ Code.terminates) ∧
      s.invoked.Nodup ∧ s.invoked.length ≤ c.count .invocations kind Fin.elim0 Fin.elim0 + 1 ∧
      (s.emitted = [] ∨ s.emitted = [r]) ∧
      Acc (fun b a => ∃ l, step Code.act a l = some b) s ∧
      ((∀ l, step Code.act s l = none) → (∀ t, s.stack t = []) ∧ s.queue = [] ∧
        s.emitted = [r] ∧ (∀ p < s.next, (s.heap p).completed = true) ∧
        s.invoked.length = c.count .invocations kind Fin.elim0 Fin.elim0 + 1) := by
  have : Nonempty T := ⟨t₀⟩
  have hout := (discipline_sound r).outcome (threads_launches hr) h
  obtain ⟨hsafe, hseen, hends, hfinished⟩ := answers_of_outcome hout
  refine ⟨hsafe, invoked_nodup h, hout.calls.trans_eq calls_threads, hseen, hends, fun hstuck => ?_⟩
  obtain ⟨hstack, hqueue, hemitted, hcompleted⟩ := hfinished hstuck
  exact ⟨hstack, hqueue, hemitted, hcompleted, (hout.finished hstuck).2.2.2.2.trans calls_threads⟩

end

/-- A coroutine that discards the failure of a task, called by one that discards its failure. -/
def failing : Coroutine ℕ Empty 0 0 :=
  .call .errorCode
    (.makeTask .dispatcher (.error (.errorCode .operationCanceled))
      (.coAwaitDiscarded .inlineScheduler 0 (.coReturn (.ok (.val 1)))))
    (.coAwaitDiscarded .dispatcher 0 (.coReturn (.ok (.val 2))))

/-- The run of `failing` on one thread: the error comes to the caller of both. -/
theorem coroutines_mean_eval_failing :
    ∃ s : State Unit (Code ℕ Empty) ℕ (Error Empty),
      Reach (step Code.act) anyStep (launch () .exceptionPtr failing .inlineScheduler) s ∧
        (∀ l, step Code.act s l = none) ∧ s.invoked.length = 4 ∧
        s.emitted = [.error (.exceptionPtr (.unobservedError .operationCanceled))] := by
  have hrun : (run (step Code.act) (launch () .exceptionPtr failing .inlineScheduler)
      (List.replicate 40 ⟨(), (), 0⟩)).map (fun s => ((s.stack ()).length, s.queue)) =
      some (0, []) := by decide
  obtain ⟨s, hreach, h⟩ := exists_reach_of_run hrun
  have hstack : s.stack () = [] := List.length_eq_zero_iff.1 (Prod.mk.inj h).1
  have hqueue : s.queue = [] := (Prod.mk.inj h).2
  have hstuck (l : Label Unit Unit) : step Code.act s l = none := by
    simp [step, hstack, stepThread, stepIdle, hqueue]
  have heval : failing.eval .exceptionPtr Fin.elim0 Fin.elim0 =
      some (.error (.exceptionPtr (.unobservedError .operationCanceled))) := by decide
  obtain ⟨-, -, hemitted, -, hinvoked⟩ := (coroutines_mean_eval heval hreach).2.2.2.2.2 hstuck
  exact ⟨s, hreach, hstuck, hinvoked, hemitted⟩

end Arcana.Coroutines
