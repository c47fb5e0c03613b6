import Mathlib.Data.List.Perm.Basic
import Mathlib.Data.Nat.Basic

/-!
# Shared ownership

An object that is owned by `shared_ptr`s has a use count. The objects are numbered in the order in
which they are made, so that a pointer is a number or null, and the counts are a list. When the
counts agree with the owners (`Counted`), a release destroys the object exactly when there is no
other owner (`Counted.release`). A pointer that is moved has the same number of owners.
-/

namespace Arcana.Foundations

/-- `make_shared`: the counts, and the number of the new object. -/
def makeShared (counts : List ℕ) : List ℕ × ℕ := (counts ++ [1], counts.length)

/-- A pointer is copied. -/
def copyShared (counts : List ℕ) : Option ℕ → List ℕ
  | none => counts
  | some object => counts.modify object (· + 1)

/-- A pointer is destroyed or reset: the counts, and whether the object is destroyed. -/
def releaseShared (counts : List ℕ) : Option ℕ → List ℕ × Bool
  | none => (counts, false)
  | some object => (counts.modify object (· - 1), counts[object]? == some 1)

/-- The use count of an object is the number of its owners. -/
def Counted (counts owners : List ℕ) : Prop :=
  ∀ object, counts[object]?.getD 0 = owners.count object

namespace Counted

variable {counts owners : List ℕ} {object : ℕ} {pointer : Option ℕ}

theorem nil : Counted [] [] := fun _ => rfl

theorem of_perm {owners' : List ℕ} (h : Counted counts owners) (hperm : owners.Perm owners') :
    Counted counts owners' := fun object => (h object).trans (hperm.count_eq object)

/-- An object that has an owner has been made. -/
theorem lt_length (h : Counted counts owners) (hmem : object ∈ owners) :
    object < counts.length := by
  by_contra hlt
  have hcount := h object
  rw [List.getElem?_eq_none (by omega)] at hcount
  exact Nat.ne_of_lt (List.count_pos_iff.2 hmem) hcount

theorem make (h : Counted counts owners) :
    Counted (makeShared counts).1 ((makeShared counts).2 :: owners) := by
  intro object
  change (counts ++ [1])[object]?.getD 0 = (counts.length :: owners).count object
  rw [List.count_cons, ← h object]
  by_cases hlt : object < counts.length
  · have hne : ¬ counts.length = object := by omega
    rw [List.getElem?_append_left hlt]
    simp [hne]
  · by_cases heq : counts.length = object
    · subst heq
      simp
    · rw [List.getElem?_eq_none (by simp; omega), List.getElem?_eq_none (by omega)]
      simp [heq]

/-- A copy is one owner more. -/
theorem copy (h : Counted counts owners) (hmem : ∀ object ∈ pointer, object ∈ owners) :
    Counted (copyShared counts pointer) (pointer.toList ++ owners) := by
  cases pointer with
  | none => exact h
  | some object =>
    intro other
    have hlt := h.lt_length (hmem object rfl)
    change (counts.modify object (· + 1))[other]?.getD 0 = (object :: owners).count other
    rw [List.getElem?_modify, List.count_cons, ← h other]
    by_cases heq : object = other
    · subst heq
      simp [hlt]
    · simp [heq]

/-- **A release destroys the object exactly when there is no other owner.** -/
theorem release (h : Counted counts (pointer.toList ++ owners)) :
    Counted (releaseShared counts pointer).1 owners ∧
      ((releaseShared counts pointer).2 = true ↔ ∃ object ∈ pointer, object ∉ owners) := by
  cases pointer with
  | none => exact ⟨h, by simp [releaseShared]⟩
  | some object =>
    have hlt : object < counts.length := h.lt_length (by simp)
    have hcount (other : ℕ) : counts[other]?.getD 0 = (object :: owners).count other := h other
    constructor
    · intro other
      change (counts.modify object (· - 1))[other]?.getD 0 = owners.count other
      have hother := hcount other
      rw [List.count_cons] at hother
      rw [List.getElem?_modify]
      by_cases heq : object = other
      · subst heq
        simp [hlt] at hother ⊢
        omega
      · simpa [heq] using hother
    · have hself := hcount object
      rw [List.count_cons_self, List.getElem?_eq_getElem hlt, Option.getD_some] at hself
      change (counts[object]? == some 1) = true ↔ _
      rw [List.getElem?_eq_getElem hlt, hself]
      simp [List.count_eq_zero]

end Counted

end Arcana.Foundations
