import Mathlib.Algebra.Order.Group.Multiset
import Mathlib.Data.List.Range
import Mathlib.Tactic.Abel
import Mathlib.Logic.Function.Basic
import Arcana.Foundations.Transition
import Arcana.Threading.BlockingConcurrentQueue

/-!
# What a bounded `blocking_concurrent_queue` loses

A queue with a `max_size` drops its oldest items when a push makes it too large. The steps are the
critical sections of the operations, by any threads and in any order; a blocking call that finds
nothing, and is not cancelled, has none. Each item carries the number of its push, so that the items
are told apart, and every item is in one of four parts at any time: delivered, queued, cleared or
dropped.

* `BoundedState`: a queue, the destinations of the threads and the histories.
* `BoundedState.step`: the critical sections.
* `BoundedState.Accounted`: every item is in one of the four parts.
* `BoundedState.Accounted.step`: every critical section keeps account.
* `BoundedState.loses_only`: what a bounded queue loses in a run, and what each operation does to
  the queue, the destinations and the account.
-/

namespace Arcana.Threading

open Foundations

namespace BlockingConcurrentQueue

variable {T : Type*} {maxSize : Option ℕ} {data : List T}

/-- The loop of `push` drops items from the front. -/
theorem trim_some (m : ℕ) (data : List T) : trim (some m) data = data.drop (data.length - m) := by
  induction data with
  | nil => rw [trim, List.drop_nil]
  | cons x data ih =>
    rw [trim, ih, List.length_cons]
    by_cases hexceeds : m < data.length + 1
    · rw [if_pos (by simpa [exceeds] using hexceeds), Nat.succ_sub (Nat.le_of_lt_succ hexceeds),
        List.drop_succ_cons]
    · rw [if_neg (by simpa [exceeds] using hexceeds),
        Nat.sub_eq_zero_of_le (Nat.le_of_not_lt hexceeds), List.drop_zero]

theorem length_trim_le {m : ℕ} (data : List T) : (trim (some m) data).length ≤ m := by
  rw [trim_some, List.length_drop]
  omega

/-- When it drops something, the queue is left with its largest size. -/
theorem exists_trim (maxSize : Option ℕ) (data : List T) :
    ∃ dropped, data = dropped ++ trim maxSize data ∧
      (dropped ≠ [] → maxSize = some (trim maxSize data).length) := by
  cases maxSize with
  | none => exact ⟨[], by rw [trim_none, List.nil_append], fun h => absurd rfl h⟩
  | some m =>
    refine ⟨data.take (data.length - m), ?_, fun hne => ?_⟩
    · rw [trim_some, List.take_append_drop]
    · have hlt : 0 < data.length - m := by
        refine Nat.pos_of_ne_zero fun hzero => hne ?_
        rw [hzero, List.take_zero]
      rw [trim_some, List.length_drop]
      congr 1
      omega

end BlockingConcurrentQueue

/-- A queue and the destinations of the threads. The items in the order of their pushes, those that
were delivered, in this order, those that were removed by a `clear` and those that were dropped,
each with what its push left in the queue, are histories. -/
structure BoundedState (ι T : Type*) where
  data : List (ℕ × T) := []
  dest : ι → List (ℕ × T) := fun _ => []
  pushed : List (ℕ × T) := []
  delivered : List (ℕ × T) := []
  cleared : List (ℕ × T) := []
  dropped : List ((ℕ × T) × List (ℕ × T)) := []

inductive BoundedAction (ι T : Type*)
  | push (x : T)
  | clear
  /-- `try_pop`, `blocking_pop`, `try_drain` or `blocking_drain`, by a thread whose token is or is
  not cancelled. -/
  | receive (i : ι) (drain block cancelled : Bool)

namespace BoundedState

variable {ι T : Type*} [DecidableEq ι]

/-- A pop or a drain, with the value that it returns. A pop overwrites its destination, a drain
appends. -/
def receive (s : BoundedState ι T) (i : ι) (drain block cancelled : Bool) :
    Option (BoundedState ι T × Bool) :=
  match BlockingConcurrentQueue.take drain cancelled s.data with
  | none => if block && !cancelled then none else some (s, false)
  | some (taken, rest) => some
    ({ s with
      data := rest
      dest := Function.update s.dest i (if drain then s.dest i ++ taken else taken)
      delivered := s.delivered ++ taken }, true)

/-- One critical section. -/
def step (maxSize : Option ℕ) (s : BoundedState ι T) : BoundedAction ι T → Option (BoundedState ι T)
  | .push x =>
    let item := (s.pushed.length, x)
    let data := (BlockingConcurrentQueue.push maxSize s.data item).1
    some { s with
      data
      pushed := s.pushed ++ [item]
      dropped := s.dropped ++
        ((s.data ++ [item]).take (s.data.length + 1 - data.length)).map fun y => (y, data) }
  | .clear => some { s with data := [], cleared := s.cleared ++ s.data }
  | .receive i drain block cancelled => (s.receive i drain block cancelled).map Prod.fst

variable {maxSize : Option ℕ} {s s' : BoundedState ι T}

/-! ### The steps -/

/-- A push drops what is too much from the front, and then leaves the queue full. -/
theorem step_push {x : T} (h : s.step maxSize (.push x) = some s') :
    ∃ dropped data, s.data ++ [(s.pushed.length, x)] = dropped ++ data ∧
      (∀ m, maxSize = some m → data.length ≤ m) ∧ (dropped ≠ [] → maxSize = some data.length) ∧ s' =
      { s with
        data
        pushed := s.pushed ++ [(s.pushed.length, x)]
        dropped := s.dropped ++ dropped.map fun y => (y, data) } := by
  obtain ⟨dropped, hdata, hsize⟩ :=
    BlockingConcurrentQueue.exists_trim maxSize (s.data ++ [(s.pushed.length, x)])
  obtain rfl := Option.some.inj h
  refine ⟨dropped, _, hdata, fun m hm => ?_, hsize, ?_⟩
  · subst hm
    exact BlockingConcurrentQueue.length_trim_le _
  · have htake : (s.data ++ [(s.pushed.length, x)]).take dropped.length = dropped := by
      rw [hdata]
      exact List.take_left
    have hlength := congrArg List.length hdata
    rw [List.length_append, List.length_singleton, List.length_append] at hlength
    simp only [BlockingConcurrentQueue.push, hlength, Nat.add_sub_cancel, htake]

/-- A pop or a drain takes items from the front, or returns `false` and does nothing. -/
theorem receive_eq {i : ι} {drain block cancelled returned : Bool}
    (h : s.receive i drain block cancelled = some (s', returned)) :
    returned = false ∧ s' = s ∧ (s.data = [] ∨ cancelled = true) ∨
    returned = true ∧ cancelled = false ∧ ∃ taken rest, s.data = taken ++ rest ∧ taken ≠ [] ∧
      (if drain then rest = [] else taken.length = 1) ∧ s' =
      { s with
        data := rest
        dest := Function.update s.dest i (if drain then s.dest i ++ taken else taken)
        delivered := s.delivered ++ taken } := by
  simp only [receive] at h
  split at h
  · rename_i hnone
    obtain ⟨-, hs'⟩ := Option.ite_none_left_eq_some.1 h
    cases hs'
    exact .inl ⟨rfl, rfl, BlockingConcurrentQueue.take_eq_none.1 hnone⟩
  · rename_i taken rest htaken
    obtain ⟨hdata, hne, hrest⟩ := BlockingConcurrentQueue.take_eq htaken
    have hcancelled : cancelled = false := by
      by_contra hcancelled
      have hnone : BlockingConcurrentQueue.take drain cancelled s.data = none :=
        BlockingConcurrentQueue.take_eq_none.2 (.inr (by simpa using hcancelled))
      cases htaken.symm.trans hnone
    cases h
    refine .inr ⟨rfl, hcancelled, taken, rest, hdata, hne, ?_, rfl⟩
    cases drain with
    | true => exact hrest rfl
    | false => exact BlockingConcurrentQueue.length_eq_one_of_take htaken

/-- A call waits only in an empty queue, and until it is cancelled. -/
theorem receive_eq_none {i : ι} {drain block cancelled : Bool} :
    s.receive i drain block cancelled = none ↔
      block = true ∧ cancelled = false ∧ s.data = [] := by
  simp only [receive]
  split
  · rename_i hnone
    rw [BlockingConcurrentQueue.take_eq_none] at hnone
    cases block <;> cases cancelled <;> simp_all
  · rename_i taken rest htaken
    obtain ⟨hdata, hne, -⟩ := BlockingConcurrentQueue.take_eq htaken
    simp [hdata, hne]

/-! ### The invariant -/

/-- Every item is in one of the four parts. -/
structure Accounted (maxSize : Option ℕ) (s : BoundedState ι T) : Prop where
  numbers : s.pushed.map Prod.fst = List.range s.pushed.length
  bound : ∀ m, maxSize = some m → s.data.length ≤ m
  order : List.Sublist (s.delivered ++ s.data) s.pushed
  parts : List.Perm (s.delivered ++ s.data ++ s.cleared ++ s.dropped.map Prod.fst) s.pushed
  dropped : ∀ x data, (x, data) ∈ s.dropped → maxSize = some data.length ∧ ∀ y ∈ data, x.1 < y.1

omit [DecidableEq ι] in
theorem Accounted.initial : ({} : BoundedState ι T).Accounted maxSize where
  numbers := rfl
  bound _ _ := Nat.zero_le _
  order := .slnil
  parts := .nil
  dropped := nofun

omit [DecidableEq ι] in
/-- The items that were delivered or are queued, and one that is pushed. -/
theorem Accounted.sublist_concat (h : s.Accounted maxSize) (x : T) :
    List.Sublist (s.delivered ++ (s.data ++ [(s.pushed.length, x)]))
      (s.pushed ++ [(s.pushed.length, x)]) := by
  rw [← List.append_assoc]
  exact h.order.append_right _

omit [DecidableEq ι] in
theorem Accounted.numbers_concat (h : s.Accounted maxSize) (x : T) :
    (s.pushed ++ [(s.pushed.length, x)]).map Prod.fst = List.range (s.pushed.length + 1) := by
  rw [List.map_append, h.numbers, List.range_succ]
  rfl

theorem Accounted.push (h : s.Accounted maxSize) {x : T}
    (hstep : s.step maxSize (.push x) = some s') :
    s'.Accounted maxSize := by
  obtain ⟨dropped, data, hdata, hbound, hfull, rfl⟩ := step_push hstep
  have hsublist := h.sublist_concat x
  rw [hdata] at hsublist
  refine ⟨?_, hbound, ?_, ?_, fun y left hy => ?_⟩
  · simpa using h.numbers_concat x
  · exact ((List.sublist_append_right _ _).append_left _).trans hsublist
  · have hparts := Multiset.coe_eq_coe.2 h.parts
    have hcoe := congrArg (fun l : List (ℕ × T) => (l : Multiset (ℕ × T))) hdata
    simp only [← Multiset.coe_add] at hparts hcoe
    refine Multiset.coe_eq_coe.1 ?_
    simp only [List.map_append, List.map_map, Function.comp_def, List.map_id', ← Multiset.coe_add,
      ← hparts]
    calc (s.delivered + data + s.cleared + (s.dropped.map Prod.fst + dropped) : Multiset (ℕ × T))
      _ = s.delivered + s.cleared + s.dropped.map Prod.fst + (dropped + data) := by abel
      _ = s.delivered + s.cleared + s.dropped.map Prod.fst + (s.data + [(s.pushed.length, x)]) := by
        rw [hcoe]
      _ = s.delivered + s.data + s.cleared + s.dropped.map Prod.fst + [(s.pushed.length, x)] := by
        abel
  · rcases List.mem_append.1 hy with hy | hy
    · exact h.dropped y left hy
    · obtain ⟨y', hy', he⟩ := List.mem_map.1 hy
      cases he
      refine ⟨hfull (List.ne_nil_of_mem hy'), fun z hz => ?_⟩
      -- the items are in the order of their pushes
      have hpairwise : ((dropped ++ data).map Prod.fst).Pairwise (· < ·) := by
        refine List.Pairwise.sublist (((List.sublist_append_right _ _).trans hsublist).map _) ?_
        rw [h.numbers_concat]
        exact List.pairwise_lt_range
      rw [List.map_append, List.pairwise_append] at hpairwise
      exact hpairwise.2.2 _ (List.mem_map_of_mem hy') _ (List.mem_map_of_mem hz)

theorem Accounted.clear (h : s.Accounted maxSize) (hstep : s.step maxSize .clear = some s') :
    s'.Accounted maxSize := by
  obtain rfl := Option.some.inj hstep
  refine ⟨h.numbers, fun m _ => Nat.zero_le m, ?_, ?_, h.dropped⟩
  · exact ((List.nil_sublist _).append_left _).trans h.order
  · refine List.Perm.trans ?_ h.parts
    refine List.Perm.append_right _ ?_
    rw [List.append_nil, List.append_assoc]
    exact List.perm_append_comm.append_left _

theorem Accounted.receive (h : s.Accounted maxSize) {i : ι} {drain block cancelled returned : Bool}
    (hstep : s.receive i drain block cancelled = some (s', returned)) : s'.Accounted maxSize := by
  rcases receive_eq hstep with ⟨-, rfl, -⟩ | ⟨-, -, taken, rest, hdata, -, -, rfl⟩
  · exact h
  · have hmove : s.delivered ++ taken ++ rest = s.delivered ++ s.data := by
      rw [hdata, List.append_assoc]
    refine ⟨h.numbers, fun m hm => ?_, hmove ▸ h.order, hmove ▸ h.parts, h.dropped⟩
    have hbound := h.bound m hm
    rw [hdata, List.length_append] at hbound
    exact (Nat.le_add_left _ _).trans hbound

theorem Accounted.step (h : s.Accounted maxSize) {a : BoundedAction ι T}
    (hstep : s.step maxSize a = some s') : s'.Accounted maxSize := by
  cases a with
  | push x => exact h.push hstep
  | clear => exact h.clear hstep
  | receive i drain block cancelled =>
    obtain ⟨⟨s', returned⟩, hreceive, rfl⟩ := Option.map_eq_some_iff.1 hstep
    exact h.receive hreceive

/-- What a pop or a drain that returns `true` does: it takes one item, or all of them, from the
front of the queue, delivers them, and stores them in its destination, where a pop overwrites and a
drain appends. -/
structure Delivers (s s' : BoundedState ι T) (i : ι) (drain : Bool) (taken : List (ℕ × T)) :
    Prop where
  nonempty : taken ≠ []
  data : s.data = taken ++ s'.data
  amount : if drain then s'.data = [] else taken.length = 1
  delivered : s'.delivered = s.delivered ++ taken
  dest : s'.dest i = if drain then s.dest i ++ taken else taken
  others : ∀ j ≠ i, s'.dest j = s.dest j
  pushed : s'.pushed = s.pushed
  cleared : s'.cleared = s.cleared
  dropped : s'.dropped = s.dropped

theorem delivers_of_receive {i : ι} {drain block cancelled : Bool}
    (h : s.receive i drain block cancelled = some (s', true)) :
    cancelled = false ∧ ∃ taken, s.Delivers s' i drain taken := by
  rcases receive_eq h with ⟨hfalse, -⟩ | ⟨-, hcancelled, taken, rest, hdata, hne, hamount, rfl⟩
  · cases hfalse
  · exact ⟨hcancelled, taken, hne, hdata, hamount, rfl, Function.update_self ..,
      fun j hj => Function.update_of_ne hj _ _, rfl, rfl, rfl⟩

/-- **A bounded queue loses only what it says it loses**, for every `max_size` and in every state of
a run:

* it never holds more than `max_size` items;
* what was delivered is in the order of the pushes, with no item twice;
* every item that was pushed was delivered, is queued, was removed by a `clear` or was dropped, each
  once, and when one was dropped its push left `max_size` items in the queue, all of them newer;
* a push counts its item, a `clear` counts what it removes, and neither touches a destination;
* a pop or a drain waits only while the queue is empty and it is not cancelled; it changes nothing
  when it returns `false`, which is when the queue is empty or it is cancelled, and otherwise stores
  what it delivers in its destination. -/
theorem loses_only (h : Reach (step maxSize) anyStep ({} : BoundedState ι T) s) :
    (∀ m, maxSize = some m → s.data.length ≤ m) ∧
    (List.Sublist s.delivered s.pushed ∧ (s.delivered.map Prod.fst).Nodup) ∧
    ((s.pushed.map Prod.fst).Nodup ∧
      List.Perm (s.delivered ++ s.data ++ s.cleared ++ s.dropped.map Prod.fst) s.pushed) ∧
    (∀ x data, (x, data) ∈ s.dropped → maxSize = some data.length ∧ ∀ y ∈ data, x.1 < y.1) ∧
    (∀ x, ∃ s', s.step maxSize (.push x) = some s' ∧
      s'.pushed = s.pushed ++ [(s.pushed.length, x)] ∧ s'.delivered = s.delivered ∧
      s'.cleared = s.cleared ∧ s'.dest = s.dest) ∧
    s.step maxSize .clear = some { s with data := [], cleared := s.cleared ++ s.data } ∧
    ∀ i drain block cancelled,
      (s.receive i drain block cancelled = none ↔
        block = true ∧ cancelled = false ∧ s.data = []) ∧
      (∀ s', s.receive i drain block cancelled = some (s', false) →
        s' = s ∧ (s.data = [] ∨ cancelled = true)) ∧
      ∀ s', s.receive i drain block cancelled = some (s', true) →
        cancelled = false ∧ ∃ taken, s.Delivers s' i drain taken := by
  have hs : s.Accounted maxSize := h.invariant .initial fun _ _ _ ha _ hstep => ha.step hstep
  have hdelivered := (List.sublist_append_left _ _).trans hs.order
  have hnodup : (s.pushed.map Prod.fst).Nodup := hs.numbers ▸ List.nodup_range
  refine ⟨hs.bound, ⟨hdelivered, hnodup.sublist (hdelivered.map _)⟩, ⟨hnodup, hs.parts⟩, hs.dropped,
    fun x => ⟨_, rfl, rfl, rfl, rfl, rfl⟩, rfl, fun i drain block cancelled => ⟨receive_eq_none,
      fun s' hreceive => ?_, fun s' hreceive => delivers_of_receive hreceive⟩⟩
  rcases receive_eq hreceive with ⟨-, hs', hnone⟩ | ⟨htrue, -⟩
  · exact ⟨hs', hnone⟩
  · cases htrue

/-- A queue of two items: of four that are pushed one is dropped, one popped, one cleared and one
drained, and the destinations hold what was popped and drained. -/
theorem loses_only_two : ∃ s, Reach (step (some 2)) anyStep ({} : BoundedState ℕ ℕ) s ∧
    s.delivered = [(1, 20), (3, 40)] ∧ s.dropped = [((0, 10), [(1, 20), (2, 30)])] ∧
    s.dest 0 = [(1, 20)] ∧ s.dest 1 = [(3, 40)] ∧ s.data.length ≤ 2 := by
  have hrun : (run (step (some 2)) ({} : BoundedState ℕ ℕ) [.push 10, .push 20, .push 30,
      .receive 0 false true false, .receive 1 false false true, .clear, .push 40,
      .receive 1 true false false]).map (fun s => decide (s.delivered = [(1, 20), (3, 40)] ∧
        s.dropped = [((0, 10), [(1, 20), (2, 30)])] ∧ s.dest 0 = [(1, 20)] ∧
        s.dest 1 = [(3, 40)])) = some true := by decide
  obtain ⟨s, hreach, hparts⟩ := exists_reach_of_run hrun
  obtain ⟨hdelivered, hdropped, hpop, hdrain⟩ := of_decide_eq_true hparts
  exact ⟨s, hreach, hdelivered, hdropped, hpop, hdrain, (loses_only hreach).1 2 rfl⟩

end BoundedState

end Arcana.Threading
