import Mathlib.Data.Option.Basic
import Mathlib.Order.WellFounded

/-!
# Partial transition systems

A system is given by its step function `step : σ → ℓ → Option σ`: the label says which of the
enabled steps is taken, and `none` that the label is not enabled. `run` executes a list of labels,
which is what a concrete trace is evaluated with. `Reach step ok s s'` says that `s'` is reached
from `s` by a run all of whose steps satisfy the guard `ok`; with the guard `anyStep` it is plain
reachability.

* `run`, `runWhile`: execute a list of labels, in the second case as long as a check admits them.
* `Reach`: reachability by admitted steps.
* `images`: the labels of another system that a run stands for.
* `Reach.invariant`, `invariant_of_run`: what every admitted step keeps holds of a run.
* `rel_run`, `simulates_runWhile`, `simulates_images`: a relation that is kept in every step is kept
  by a run, in lockstep, one way, and when a step of one system is several of the other.
* `acc_of_decreasing`: runs end when something decreases.
-/

namespace Arcana.Foundations

variable {σ ℓ : Type*}

/-- Execute a list of labels; `none` as soon as one of them is not enabled. -/
def run (step : σ → ℓ → Option σ) : σ → List ℓ → Option σ
  | s, [] => some s
  | s, l :: ls => (step s l).bind fun s' => run step s' ls

/-- The guard that admits every step. -/
def anyStep : σ → ℓ → Prop := fun _ _ => True

/-- `s'` is reached from `s` by a run all of whose steps satisfy `ok` in the state before them. -/
inductive Reach (step : σ → ℓ → Option σ) (ok : σ → ℓ → Prop) (s : σ) : σ → Prop
  | refl : Reach step ok s s
  | tail {a b : σ} {l : ℓ} : Reach step ok s a → ok a l → step a l = some b → Reach step ok s b

namespace Reach

variable {step : σ → ℓ → Option σ} {ok ok' : σ → ℓ → Prop} {s a b : σ}

theorem trans (h₁ : Reach step ok s a) (h₂ : Reach step ok a b) : Reach step ok s b := by
  induction h₂ with
  | refl => exact h₁
  | tail _ hok hstep ih => exact ih.tail hok hstep

theorem mono (hok : ∀ s l, ok s l → ok' s l) (h : Reach step ok s a) : Reach step ok' s a := by
  induction h with
  | refl => exact .refl
  | tail _ h hstep ih => exact ih.tail (hok _ _ h) hstep

theorem any (h : Reach step ok s a) : Reach step anyStep s a := h.mono fun _ _ _ => trivial

/-- **The invariant rule**: what holds at the start and is kept by every admitted step holds in
every state reached. -/
theorem invariant {I : σ → Prop} (h : Reach step ok s a) (init : I s)
    (keep : ∀ a l b, I a → ok a l → step a l = some b → I b) : I a := by
  induction h with
  | refl => exact init
  | tail _ hok hstep ih => exact keep _ _ _ ih hok hstep

end Reach

/-- A concrete trace is a run. -/
theorem reach_of_run {step : σ → ℓ → Option σ} {s s' : σ} {ls : List ℓ}
    (h : run step s ls = some s') : Reach step anyStep s s' := by
  induction ls generalizing s with
  | nil => cases h; exact .refl
  | cons l ls ih =>
    obtain ⟨a, ha, h⟩ := Option.bind_eq_some_iff.1 h
    exact (Reach.refl.tail trivial ha).trans (ih h)

/-- What a concrete trace ends with is seen in a state that is reached. -/
theorem exists_reach_of_run {β : Type*} {step : σ → ℓ → Option σ} {s : σ} {ls : List ℓ} {f : σ → β}
    {x : β} (h : (run step s ls).map f = some x) : ∃ s', Reach step anyStep s s' ∧ f s' = x := by
  obtain ⟨s', hs', hx⟩ := Option.map_eq_some_iff.1 h
  exact ⟨s', reach_of_run hs', hx⟩

theorem run_append (step : σ → ℓ → Option σ) (s : σ) (ls ls' : List ℓ) :
    run step s (ls ++ ls') = (run step s ls).bind fun s' => run step s' ls' := by
  induction ls generalizing s with
  | nil => rfl
  | cons l ls ih =>
    rw [List.cons_append, run, run, Option.bind_assoc]
    exact congrArg _ (funext ih)

/-- What every admitted step keeps holds at the end of a run of admitted steps. -/
theorem invariant_of_run {step : σ → ℓ → Option σ} {ok : ℓ → Prop} {I : σ → Prop}
    (keep : ∀ a l b, I a → ok l → step a l = some b → I b) {ls : List ℓ} (hls : ∀ l ∈ ls, ok l)
    {s s' : σ} (init : I s) (h : run step s ls = some s') : I s' := by
  induction ls generalizing s with
  | nil =>
    cases h
    exact init
  | cons l ls ih =>
    obtain ⟨hl, hls⟩ := List.forall_mem_cons.1 hls
    obtain ⟨a, ha, h⟩ := Option.bind_eq_some_iff.1 h
    exact ih hls (keep _ _ _ init hl ha) h

/-- Two partial results are related if the first one has a partner, and the second one is not
alone. -/
theorem rel_of_isSome {σ' : Type*} {R : σ → σ' → Prop} {x : Option σ} {y : Option σ'}
    (hx : ∀ a, x = some a → ∃ b, y = some b ∧ R a b) (hy : ∀ b, y = some b → x ≠ none) :
    Option.Rel R x y := by
  cases x with
  | none =>
    cases y with
    | none => exact .none
    | some b => exact absurd rfl (hy b rfl)
  | some a =>
    obtain ⟨b, rfl, hab⟩ := hx a rfl
    exact .some hab

theorem cases_of_rel {σ' : Type*} {R : σ → σ' → Prop} {x : Option σ} {y : Option σ'}
    (h : Option.Rel R x y) : (x = none ∧ y = none) ∨ ∃ a b, x = some a ∧ y = some b ∧ R a b := by
  cases h with
  | none => exact .inl ⟨rfl, rfl⟩
  | some hab => exact .inr ⟨_, _, rfl, rfl, hab⟩

/-- **The lockstep rule**: two systems that keep a relation in every step, with the same steps
enabled, keep it over a run. -/
theorem rel_run {σ' : Type*} {step : σ → ℓ → Option σ} {step' : σ' → ℓ → Option σ'} {ok : ℓ → Prop}
    {R : σ → σ' → Prop}
    (keep : ∀ a b l, R a b → ok l → Option.Rel R (step a l) (step' b l)) {ls : List ℓ}
    (hls : ∀ l ∈ ls, ok l) {s : σ} {s' : σ'} (h : R s s') :
    Option.Rel R (run step s ls) (run step' s' ls) := by
  induction ls generalizing s s' with
  | nil => exact .some h
  | cons l ls ih =>
    obtain ⟨hl, hls⟩ := List.forall_mem_cons.1 hls
    rw [run, run]
    rcases cases_of_rel (keep s s' l h hl) with ⟨hstep, hstep'⟩ | ⟨a, b, hstep, hstep', hab⟩
    · rw [hstep, hstep']
      exact .none
    · rw [hstep, hstep']
      exact ih hls hab

/-- Execute a list of labels while `check` admits them. -/
def runWhile (check : σ → ℓ → Bool) (step : σ → ℓ → Option σ) : σ → List ℓ → Option σ :=
  run fun s l => if check s l then step s l else none

/-- A concrete trace whose labels pass a check is a guarded run. -/
theorem reach_of_runWhile {check : σ → ℓ → Bool} {step : σ → ℓ → Option σ} {ok : σ → ℓ → Prop}
    (hok : ∀ s l, check s l = true → ok s l) {s s' : σ} {ls : List ℓ}
    (h : runWhile check step s ls = some s') : Reach step ok s s' := by
  refine (reach_of_run h).invariant .refl fun a l b ha _ hstep => ?_
  obtain ⟨hcheck, hstep⟩ := Option.ite_none_right_eq_some.1 hstep
  exact ha.tail (hok a l hcheck) hstep

theorem exists_reach_of_runWhile {β : Type*} {check : σ → ℓ → Bool} {step : σ → ℓ → Option σ}
    {ok : σ → ℓ → Prop} (hok : ∀ s l, check s l = true → ok s l) {s : σ} {ls : List ℓ} {f : σ → β}
    {x : β}
    (h : (runWhile check step s ls).map f = some x) : ∃ s', Reach step ok s s' ∧ f s' = x := by
  obtain ⟨s', hs', hx⟩ := Option.map_eq_some_iff.1 h
  exact ⟨s', reach_of_runWhile hok hs', hx⟩

/-- **The simulation rule**: when every admitted step is one of the other system, with the same
label, so is a run of them. -/
theorem simulates_runWhile {σ' : Type*} {check : σ → ℓ → Bool} {step : σ → ℓ → Option σ}
    {step' : σ' → ℓ → Option σ'} {R : σ → σ' → Prop}
    (keep : ∀ a b l a', R a b → check a l = true → step a l = some a' →
      ∃ b', step' b l = some b' ∧ R a' b')
    {ls : List ℓ} {s s' : σ} {t : σ'} (init : R s t) (h : runWhile check step s ls = some s') :
    ∃ t', run step' t ls = some t' ∧ R s' t' := by
  induction ls generalizing s t with
  | nil =>
    cases h
    exact ⟨t, rfl, init⟩
  | cons l ls ih =>
    obtain ⟨a, ha, h⟩ := Option.bind_eq_some_iff.1 h
    obtain ⟨hcheck, ha⟩ := Option.ite_none_right_eq_some.1 ha
    obtain ⟨b, hb, hab⟩ := keep s t l a init hcheck ha
    obtain ⟨t', ht', hR⟩ := ih hab h
    exact ⟨t', by rw [run, hb]; exact ht', hR⟩

/-- What another system does in a run, when each step is some steps of its own. -/
def images {ℓ' : Type*} (image : σ → ℓ → List ℓ') (step : σ → ℓ → Option σ) : σ → List ℓ → List ℓ'
  | _, [] => []
  | s, l :: ls => image s l ++ (step s l).elim [] fun s' => images image step s' ls

/-- **The simulation rule for several steps**: when every admitted step is a run of the other
system, of the labels that are its image, so is a run of them. -/
theorem simulates_images {σ' ℓ' : Type*} {check : σ → ℓ → Bool} {step : σ → ℓ → Option σ}
    {step' : σ' → ℓ' → Option σ'} {image : σ → ℓ → List ℓ'} {R : σ → σ' → Prop}
    (keep : ∀ a b l a', R a b → check a l = true → step a l = some a' →
      ∃ b', run step' b (image a l) = some b' ∧ R a' b')
    {ls : List ℓ} {s s' : σ} {t : σ'} (init : R s t) (h : runWhile check step s ls = some s') :
    ∃ t', run step' t (images image step s ls) = some t' ∧ R s' t' := by
  induction ls generalizing s t with
  | nil =>
    cases h
    exact ⟨t, rfl, init⟩
  | cons l ls ih =>
    obtain ⟨a, ha, h⟩ := Option.bind_eq_some_iff.1 h
    obtain ⟨hcheck, ha⟩ := Option.ite_none_right_eq_some.1 ha
    obtain ⟨b, hb, hab⟩ := keep s t l a init hcheck ha
    obtain ⟨t', ht', hR⟩ := ih hab h
    refine ⟨t', ?_, hR⟩
    rw [images, ha, Option.elim_some, run_append, hb]
    exact ht'

/-- **The termination rule**: if every state of the invariant `I n` steps into one of `I m` with `m`
below `n`, then no run from it goes on for ever. -/
theorem acc_of_decreasing {α : Type*} {lt : α → α → Prop} (wf : WellFounded lt)
    {step : σ → ℓ → Option σ} {I : α → σ → Prop}
    (keep : ∀ n a l b, I n a → step a l = some b → ∃ m, lt m n ∧ I m b) {n : α} {s : σ}
    (h : I n s) : Acc (fun b a => ∃ l, step a l = some b) s := by
  induction n using wf.induction generalizing s with
  | _ n ih =>
    refine ⟨s, fun b hb => ?_⟩
    obtain ⟨l, hl⟩ := hb
    obtain ⟨m, hm, hI⟩ := keep n s l b h hl
    exact ih m hm hI

end Arcana.Foundations
