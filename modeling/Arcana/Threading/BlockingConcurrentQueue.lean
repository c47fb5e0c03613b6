import Mathlib.Data.List.Basic

/-!
# The critical sections of `blocking_concurrent_queue`

What `push`, `clear` and the last part of `internal_pop` and `internal_drain` do to `m_data` while
they hold `m_mutex`. The waiting is a matter of several sections and stands with the threads.
-/

namespace Arcana.Threading.BlockingConcurrentQueue

variable {T : Type*}

/-- Whether a queue is larger than `max_size`. There is `none` for the largest `size_t`, which the
size of a queue does not exceed. -/
def exceeds (maxSize : Option ℕ) (size : ℕ) : Bool := maxSize.any (· < size)

/-- The loop at the end of `push`. -/
def trim (maxSize : Option ℕ) : List T → List T
  | [] => []
  | x :: data => if exceeds maxSize (data.length + 1) then trim maxSize data else x :: data

/-- The critical section of `push`, with the value of `notify`. -/
def push (maxSize : Option ℕ) (data : List T) (x : T) : List T × Bool :=
  (trim maxSize (data ++ [x]), data.isEmpty)

/-- The end of `internal_pop` (`drain = false`) and of `internal_drain` (`drain = true`): the
elements that are stored in `dest` and those that stay, or nothing when `false` is returned. -/
def take (drain cancelled : Bool) (data : List T) : Option (List T × List T) :=
  match data with
  | [] => none
  | x :: rest =>
    if cancelled then
      none
    else if drain then
      some (x :: rest, [])
    else
      some ([x], rest)

variable {data : List T} {drain cancelled : Bool}

theorem trim_none (data : List T) : trim none data = data := by
  cases data with
  | nil => rfl
  | cons x data => exact if_neg Bool.false_ne_true

/-- What is taken comes from the front. -/
theorem take_eq {taken rest : List T} (h : take drain cancelled data = some (taken, rest)) :
    data = taken ++ rest ∧ taken ≠ [] ∧ (drain = true → rest = []) := by
  cases data with
  | nil => cases h
  | cons x data =>
    rw [take] at h
    split_ifs at h with hcancelled hdrain
    · cases h
      simp
    · cases h
      simp [hdrain]

/-- A pop takes one element. -/
theorem length_eq_one_of_take {taken rest : List T}
    (h : take false cancelled data = some (taken, rest)) : taken.length = 1 := by
  cases data with
  | nil => cases h
  | cons x data =>
    cases cancelled with
    | true => cases h
    | false =>
      cases h
      rfl

/-- Nothing is taken from an empty queue or by a caller that is cancelled. -/
theorem take_eq_none : take drain cancelled data = none ↔ data = [] ∨ cancelled = true := by
  cases data with
  | nil => simp [take]
  | cons x data => cases cancelled <;> cases drain <;> simp [take]

theorem take_of_ne_nil (h : data ≠ []) : take true false data = some (data, []) := by
  cases data with
  | nil => exact absurd rfl h
  | cons x data => rfl

end Arcana.Threading.BlockingConcurrentQueue
