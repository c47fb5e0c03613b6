import Mathlib.Data.List.Range
import Arcana.Foundations.Partition
import Arcana.Foundations.Transition
import Arcana.Threading.BlockingConcurrentQueue

/-!
# `dispatcher`

Works are pushed from any thread, and from the works that are executed, and wait in `m_work`. A tick
moves all of them to `m_workload` and executes them one after another. The steps are the critical
sections of the queue and the starts of the works, which is where another thread or the running work
can come in.

Each work carries its place in the order of the pushes, so that a work is told from the others. The
works that `clear` did not drop (`DispatcherState.live`) are in three parts at any time: executed,
in `m_workload` from the current one on, and queued (`Consistent`). That gives `executes_in_order`.

* `DispatcherState.step` is a step of the dispatcher, with the histories of what was pushed, cleared
  and executed.
* `DispatcherState.step_queue`, `step_clear`, `step_tick` and `step_next` say what each of the steps
  does, and `histories_eq` what is added to the histories.
* `DispatcherState.Consistent` is the invariant, with a lemma for each step.
* `DispatcherState.executes_in_order` is the result about runs.
-/

namespace Arcana.Threading

open Foundations

variable {W : Type*}

/-- `affinity::check`, on the given thread. -/
def checkAffinity {T : Type*} [DecidableEq T] (affinity : Option T) (thread : T) : Bool :=
  affinity.all (· = thread)

/-- A dispatcher, with `ticking` the position of the loop of `internal_tick` when it runs. The works
in the order in which they were pushed, the places of those that were cleared and the works that
were executed are histories. -/
structure DispatcherState (W : Type*) where
  work : List (ℕ × W) := []
  workload : List (ℕ × W) := []
  ticking : Option ℕ := none
  pushed : List (ℕ × W) := []
  cleared : List ℕ := []
  executed : List (ℕ × W) := []

inductive DispatcherAction (W : Type*)
  | queue (work : W)
  | clear
  | tick (block : Bool)
  /-- The loop goes on to the next work, or ends. -/
  | next

namespace DispatcherState

/-- One critical section of the queue, or one round of the loop of `internal_tick`. The token of a
tick is not cancelled. A blocking tick waits as long as nothing is queued. -/
def step (s : DispatcherState W) : DispatcherAction W → Option (DispatcherState W)
  | .queue work =>
    let item := (s.pushed.length, work)
    some { s with
      work := (BlockingConcurrentQueue.push none s.work item).1
      pushed := s.pushed ++ [item] }
  | .clear => some { s with work := [], cleared := s.cleared ++ s.work.map Prod.fst }
  | .tick block =>
    match s.ticking with
    | some _ => none
    | none =>
      match BlockingConcurrentQueue.take true false s.work with
      | none => if block then none else some s
      | some (taken, rest) => some
        { s with
          work := rest
          workload := s.workload ++ taken
          ticking := some 0 }
  | .next =>
    match s.ticking with
    | none => none
    | some i =>
      match s.workload[i]? with
      | none => some { s with workload := [], ticking := none }
      | some item => some { s with executed := s.executed ++ [item], ticking := some (i + 1) }

/-- The works that were not cleared, in the order of their pushes. -/
def live (s : DispatcherState W) : List (ℕ × W) := s.pushed.filter fun x => x.1 ∉ s.cleared

/-- The works that the running tick has still to execute. -/
def remaining (s : DispatcherState W) : List (ℕ × W) := s.workload.drop (s.ticking.getD 0)

/-- What holds between the steps. -/
structure Consistent (s : DispatcherState W) : Prop where
  places : s.pushed.map Prod.fst = List.range s.pushed.length
  cleared : ∀ n ∈ s.cleared, n < s.pushed.length
  idle : s.ticking = none → s.workload = []
  live : s.executed ++ s.remaining ++ s.work = s.live

variable {s s' : DispatcherState W}

/-! ### The steps -/

theorem step_queue {work : W} (h : s.step (.queue work) = some s') :
    s' = { s with
      work := s.work ++ [(s.pushed.length, work)]
      pushed := s.pushed ++ [(s.pushed.length, work)] } := by
  simp only [step, BlockingConcurrentQueue.push, BlockingConcurrentQueue.trim_none] at h
  exact (Option.some.inj h).symm

/-- A tick takes what is queued, or finds nothing and returns. -/
theorem step_tick {block : Bool} (h : s.step (.tick block) = some s') :
    s.ticking = none ∧ (s.work = [] ∧ s' = s ∨
      s' = { s with work := [], workload := s.workload ++ s.work, ticking := some 0 }) := by
  simp only [step] at h
  split at h
  · cases h
  · rename_i hticking
    refine ⟨hticking, ?_⟩
    split at h
    · rename_i hnone
      obtain ⟨-, hs'⟩ := Option.ite_none_left_eq_some.1 h
      have hwork := BlockingConcurrentQueue.take_eq_none.1 hnone
      simp only [Bool.false_eq_true, or_false] at hwork
      exact .inl ⟨hwork, (Option.some.inj hs').symm⟩
    · rename_i taken rest htaken
      obtain ⟨hwork, -, hrest⟩ := BlockingConcurrentQueue.take_eq htaken
      obtain rfl := hrest rfl
      rw [hwork, List.append_nil]
      exact .inr (Option.some.inj h).symm

/-- The loop executes the first work that remains, or ends. -/
theorem step_next (h : s.step .next = some s') :
    (∃ i item, s.ticking = some i ∧ s.remaining = item :: s.workload.drop (i + 1) ∧
      s' = { s with executed := s.executed ++ [item], ticking := some (i + 1) }) ∨
    s.remaining = [] ∧ s' = { s with workload := [], ticking := none } := by
  simp only [step] at h
  split at h
  · cases h
  · rename_i i hticking
    rw [remaining, hticking, Option.getD_some]
    split at h
    · rename_i hnone
      exact .inr ⟨List.drop_eq_nil_of_le (List.getElem?_eq_none_iff.1 hnone),
        (Option.some.inj h).symm⟩
    · rename_i item hitem
      obtain ⟨hi, rfl⟩ := List.getElem?_eq_some_iff.1 hitem
      exact .inl ⟨i, _, rfl, List.drop_eq_getElem_cons hi, (Option.some.inj h).symm⟩

/-- What a tick has executed and has still to execute together changes only when a tick begins. -/
theorem executed_remaining {a : DispatcherAction W} (ha : ∀ block, a ≠ .tick block)
    (h : s.step a = some s') : s'.executed ++ s'.remaining = s.executed ++ s.remaining := by
  cases a with
  | queue work =>
    rw [step_queue h]
    rfl
  | clear => exact Option.some.inj h ▸ rfl
  | tick block => exact absurd rfl (ha block)
  | next =>
    rcases step_next h with ⟨i, item, hticking, hitem, rfl⟩ | ⟨hnil, rfl⟩
    · rw [hitem]
      exact List.append_assoc s.executed [item] _
    · rw [hnil]
      rfl

theorem step_clear (h : s.step .clear = some s') :
    s' = { s with work := [], cleared := s.cleared ++ s.work.map Prod.fst } :=
  (Option.some.inj h).symm

/-- The histories of what was pushed and cleared are written by `queue` and `clear` alone. -/
theorem histories_eq {a : DispatcherAction W} (hqueue : ∀ work, a ≠ .queue work)
    (hclear : a ≠ .clear)
    (h : s.step a = some s') : s'.pushed = s.pushed ∧ s'.cleared = s.cleared := by
  cases a with
  | queue work => exact absurd rfl (hqueue work)
  | clear => exact absurd rfl hclear
  | tick block =>
    obtain ⟨-, ⟨-, rfl⟩ | rfl⟩ := step_tick h
    · exact ⟨rfl, rfl⟩
    · exact ⟨rfl, rfl⟩
  | next =>
    rcases step_next h with ⟨i, item, -, -, rfl⟩ | ⟨-, rfl⟩
    · exact ⟨rfl, rfl⟩
    · exact ⟨rfl, rfl⟩

/-! ### The invariant -/

theorem Consistent.initial : ({} : DispatcherState W).Consistent where
  places := rfl
  cleared := nofun
  idle _ := rfl
  live := rfl

theorem Consistent.queue (h : s.Consistent) {work : W} (hstep : s.step (.queue work) = some s') :
    s'.Consistent := by
  obtain rfl := step_queue hstep
  refine ⟨?_, fun n hn => ?_, h.idle, ?_⟩
  · simp [h.places, List.range_succ]
  · have hlt := h.cleared n hn
    simp only [List.length_append, List.length_singleton]
    omega
  · have hnew : s.pushed.length ∉ s.cleared := fun hmem => Nat.lt_irrefl _ (h.cleared _ hmem)
    have hlive := h.live
    simp only [DispatcherState.live, remaining] at hlive ⊢
    rw [List.filter_append, ← hlive]
    simp [hnew]

/-- The works are told apart by their places. -/
theorem Consistent.nodup (h : s.Consistent) : (s.live.map Prod.fst).Nodup := by
  have hplaces : (s.pushed.map Prod.fst).Nodup := h.places ▸ List.nodup_range
  exact hplaces.sublist (List.filter_sublist.map _)

/-- What is cleared is what was queued. -/
theorem Consistent.clear (h : s.Consistent) (hstep : s.step .clear = some s') : s'.Consistent := by
  obtain rfl := Option.some.inj hstep
  have hnodup := h.nodup
  rw [← h.live, List.map_append, List.nodup_append] at hnodup
  obtain ⟨-, -, hdisjoint⟩ := hnodup
  refine ⟨h.places, fun n hn => ?_, h.idle, ?_⟩
  · rcases List.mem_append.1 hn with hn | hn
    · exact h.cleared n hn
    · obtain ⟨x, hx, rfl⟩ := List.mem_map.1 hn
      have hmem : x ∈ s.live := h.live ▸ List.mem_append_right _ hx
      have hplace := List.mem_map_of_mem (f := Prod.fst) (List.mem_filter.1 hmem).1
      rw [h.places] at hplace
      exact List.mem_range.1 hplace
  · have hkept : (s.executed ++ s.remaining).filter (fun x => x.1 ∉ s.work.map Prod.fst) =
        s.executed ++ s.remaining := by
      refine List.filter_eq_self.2 fun x hx => decide_eq_true fun hmem => ?_
      exact hdisjoint _ (List.mem_map_of_mem hx) _ hmem rfl
    have hdropped : s.work.filter (fun x => x.1 ∉ s.work.map Prod.fst) = [] :=
      List.filter_eq_nil_iff.2 fun x hx => by simpa using ⟨x.2, hx⟩
    calc s.executed ++ s.remaining ++ []
      _ = (s.executed ++ s.remaining ++ s.work).filter (fun x => x.1 ∉ s.work.map Prod.fst) := by
        rw [List.filter_append, hkept, hdropped]
      _ = s.live.filter (fun x => x.1 ∉ s.work.map Prod.fst) := by rw [h.live]
      _ = s.pushed.filter (fun x => x.1 ∉ s.cleared ++ s.work.map Prod.fst) := by
        rw [DispatcherState.live, List.filter_filter]
        refine List.filter_congr fun x _ => ?_
        rw [← Bool.decide_and]
        exact decide_eq_decide.2 (by rw [List.mem_append, not_or, and_comm])

/-- A tick begins with everything that is queued. -/
theorem Consistent.tick (h : s.Consistent) {block : Bool} (hstep : s.step (.tick block) = some s') :
    s'.Consistent ∧ s'.executed = s.executed ∧ s'.executed ++ s'.remaining = s.live := by
  obtain ⟨hticking, hs'⟩ := step_tick hstep
  have hidle := h.idle hticking
  have hlive := h.live
  have hnone : s.remaining = [] := by
    rw [remaining, hidle, List.drop_nil]
  rw [hnone, List.append_nil] at hlive
  rcases hs' with ⟨hwork, rfl⟩ | rfl
  · refine ⟨h, rfl, ?_⟩
    rw [hnone, ← hlive, hwork]
  · refine ⟨⟨h.places, h.cleared, nofun, ?_⟩, rfl, ?_⟩
    · rw [hidle]
      exact (List.append_nil _).trans hlive
    · rw [hidle]
      exact hlive

theorem Consistent.next (h : s.Consistent) (hstep : s.step .next = some s') : s'.Consistent := by
  have hkeep := executed_remaining (fun _ h => by cases h) hstep
  have hlive := h.live
  rw [← hkeep] at hlive
  rcases step_next hstep with ⟨i, item, -, -, rfl⟩ | ⟨-, rfl⟩
  · exact ⟨h.places, h.cleared, nofun, hlive⟩
  · exact ⟨h.places, h.cleared, fun _ => rfl, hlive⟩

theorem Consistent.step (h : s.Consistent) {a : DispatcherAction W} (hstep : s.step a = some s') :
    s'.Consistent := by
  cases a with
  | queue work => exact h.queue hstep
  | clear => exact h.clear hstep
  | tick block => exact (h.tick hstep).1
  | next => exact h.next hstep

/-- **A dispatcher executes each work once, in order, and never in the tick that queued it.** In
every state of a run: the works executed are the first ones of those that were pushed and not
cleared, in the order of their pushes, and each was executed once; `m_workload` is empty between the
ticks; and a tick executes the works that were pushed before its drain, were not cleared and were
not executed before: until the next one begins, no others are executed, and when it ends all of them
are. What counts as pushed is what `queue` was called with, and as cleared what was queued when
`clear` was called. -/
theorem executes_in_order (h : Reach step anyStep ({} : DispatcherState W) s) :
    s.executed <+: s.live ∧ (s.executed.map Prod.fst).Nodup ∧
    (s.ticking = none → s.workload = []) ∧
    (∀ block s₁ s', s.step (.tick block) = some s₁ →
      Reach step (fun _ a => ∀ block, a ≠ .tick block) s₁ s' →
      s'.executed <+: s.live ∧ (s'.ticking = none → s'.executed = s.live)) ∧
    (∀ work s', s.step (.queue work) = some s' →
      s'.pushed = s.pushed ++ [(s.pushed.length, work)] ∧ s'.cleared = s.cleared) ∧
    (∀ s', s.step .clear = some s' →
      s'.pushed = s.pushed ∧ s'.cleared = s.cleared ++ s.work.map Prod.fst ∧ s'.work = []) ∧
    ∀ a s', (∀ work, a ≠ .queue work) → a ≠ .clear → s.step a = some s' →
      s'.pushed = s.pushed ∧ s'.cleared = s.cleared := by
  have hs : s.Consistent := h.invariant .initial fun _ _ _ ha _ hstep => ha.step hstep
  have hpre : s.executed <+: s.live := ⟨s.remaining ++ s.work, by rw [← List.append_assoc, hs.live]⟩
  refine ⟨hpre, hs.nodup.sublist (hpre.sublist.map _), hs.idle, fun block s₁ s' htick hs' => ?_,
    fun work s' hstep => ?_, fun s' hstep => ?_, fun a s' => histories_eq⟩
  · obtain ⟨hs₁, -, hbegin⟩ := hs.tick htick
    have hkeep : s'.Consistent ∧ s'.executed ++ s'.remaining = s.live :=
      hs'.invariant (I := fun b => b.Consistent ∧ b.executed ++ b.remaining = s.live) ⟨hs₁, hbegin⟩
        fun a l b ha hl hstep => ⟨ha.1.step hstep, (executed_remaining hl hstep).trans ha.2⟩
    obtain ⟨hs', hparts⟩ := hkeep
    refine ⟨⟨s'.remaining, hparts⟩, fun hticking => ?_⟩
    rw [remaining, hs'.idle hticking, List.drop_nil, List.append_nil] at hparts
    exact hparts
  · rw [step_queue hstep]
    exact ⟨rfl, rfl⟩
  · rw [step_clear hstep]
    exact ⟨rfl, rfl, rfl⟩

/-- A work that queues another one, which is executed by the second tick, while a third one is
cleared. -/
theorem executes_in_order_recursive : ∃ s, Reach step anyStep ({} : DispatcherState ℕ) s ∧
    s.executed = [(0, 10), (1, 20)] ∧ s.executed <+: s.live := by
  have hrun : (run step ({} : DispatcherState ℕ) [.queue 10, .tick false, .next, .queue 20, .next,
      .tick true, .next, .queue 30, .clear, .next]).map (fun s => s.executed) =
      some [(0, 10), (1, 20)] := by decide
  obtain ⟨s, hreach, hexecuted⟩ := exists_reach_of_run hrun
  exact ⟨s, hreach, hexecuted, (executes_in_order hreach).1⟩

end DispatcherState

end Arcana.Threading
