import Mathlib.Algebra.Group.Int.Defs
import Mathlib.Algebra.Group.Nat.Defs
import Mathlib.Data.Int.Order.Basic

/-!
# A signed 64-bit counter

Identifiers that come from `m_seed++` on an `int64_t`. A signed overflow is undefined behaviour, so
that the increment of the largest value has no result. The values a counter takes are strictly
increasing, and with that different from each other.
-/

namespace Arcana.Foundations

/-- The value of the counter after `n++`. -/
def increment (n : Int64) : Option Int64 := if n = Int64.maxValue then none else some (n + 1)

variable {n m : Int64}

theorem toInt_increment (h : increment n = some m) : m.toInt = n.toInt + 1 := by
  obtain ⟨hne, hm⟩ := Option.ite_none_left_eq_some.1 h
  obtain rfl := Option.some.inj hm
  have hlt : n.toInt < 2 ^ 63 - 1 := by
    have hle := n.toInt_le
    rw [Int64.toInt_maxValue] at hle
    have hne' : n.toInt ≠ 2 ^ 63 - 1 := fun e => hne (Int64.toInt_inj.1 e)
    omega
  have hge := n.le_toInt
  rw [Int64.toInt_add, Int64.toInt_one]
  exact Int.bmod_eq_of_le (by omega) (by omega)

theorem lt_increment (h : increment n = some m) : n < m := by
  rw [Int64.lt_iff_toInt_lt, toInt_increment h]
  omega

/-- What is below the old value, or is the old value, is below the new one. -/
theorem lt_increment_of_le (h : increment n = some m) {k : Int64} (hk : k < n ∨ k = n) : k < m := by
  rcases hk with hk | rfl
  · exact Int64.lt_trans hk (lt_increment h)
  · exact lt_increment h

/-- The counter goes on as long as it is below the largest value. -/
theorem increment_ne_none (h : n.toInt < 2 ^ 63 - 1) : increment n ≠ none := by
  rw [increment, if_neg]
  · exact Option.some_ne_none _
  · rintro rfl
    rw [Int64.toInt_maxValue] at h
    omega

end Arcana.Foundations
