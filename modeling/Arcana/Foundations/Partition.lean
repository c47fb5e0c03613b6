import Mathlib.Data.List.Basic
import Mathlib.Data.List.InsertIdx

/-!
# The partition point of a list

`std::partition_point` finds the end of the initial segment whose elements satisfy a predicate by
halving: in every round it looks at the middle of what is left. On a list that is not partitioned it
still returns some position; on one that is (`Partitioned`), it is the end of the first of its two
parts (`Partitioned.split`, `partitionPoint_append`).
-/

namespace Arcana.Foundations

variable {α : Type*} {p : α → Bool} {l l₁ l₂ : List α}

/-- The rounds of `std::partition_point` on the `len` elements from `first` on. Each one leaves
fewer of them, so that `rounds` of them are enough when `len` is not larger. -/
def partitionRounds (p : α → Bool) (l : List α) : (rounds first len : ℕ) → ℕ
  | 0, first, _ => first
  | rounds + 1, first, len =>
    if len = 0 then first
    else
      match l[first + len / 2]? with
      | none => first
      | some middle =>
        if p middle then partitionRounds p l rounds (first + len / 2 + 1) (len - len / 2 - 1)
        else partitionRounds p l rounds first (len / 2)

/-- `std::partition_point`, as an index. -/
def partitionPoint (p : α → Bool) (l : List α) : ℕ := partitionRounds p l l.length 0 l.length

example : partitionPoint (fun n => n < 4) [1, 2, 3, 4, 5] = 3 := by decide

/-- The elements that satisfy `p` come first. -/
def Partitioned (p : α → Bool) (l : List α) : Prop := l.Pairwise fun a b => p b = true → p a = true

/-- The rounds close in on the end of `l₁`, between `first` and `first + len`. -/
theorem partitionRounds_append (h₁ : ∀ x ∈ l₁, p x = true) (h₂ : ∀ x ∈ l₂, p x = false)
    {rounds first len : ℕ} (hrounds : len ≤ rounds) (hfirst : first ≤ l₁.length)
    (hlast : l₁.length ≤ first + len) (hlen : first + len ≤ (l₁ ++ l₂).length) :
    partitionRounds p (l₁ ++ l₂) rounds first len = l₁.length := by
  induction rounds generalizing first len with
  | zero =>
    rw [partitionRounds]
    omega
  | succ rounds ih =>
    rw [partitionRounds]
    split
    · omega
    · have hmid : first + len / 2 < (l₁ ++ l₂).length := by omega
      rw [List.getElem?_eq_getElem hmid]
      simp only
      by_cases hlt : first + len / 2 < l₁.length
      · have hp : p (l₁ ++ l₂)[first + len / 2] = true := by
          rw [List.getElem_append_left hlt]
          exact h₁ _ (List.getElem_mem hlt)
        rw [if_pos hp]
        exact ih (by omega) (by omega) (by omega) (by omega)
      · have hp : p (l₁ ++ l₂)[first + len / 2] = false := by
          rw [List.getElem_append_right (by omega)]
          exact h₂ _ (List.getElem_mem _)
        rw [if_neg (by simp [hp])]
        exact ih (by omega) (by omega) (by omega) (by omega)

/-- **On a partitioned list the rounds find the end of the first part.** -/
theorem partitionPoint_append (h₁ : ∀ x ∈ l₁, p x = true) (h₂ : ∀ x ∈ l₂, p x = false) :
    partitionPoint p (l₁ ++ l₂) = l₁.length :=
  partitionRounds_append h₁ h₂ (Nat.le_refl _) (Nat.zero_le _) (by simp) (by simp)

/-- A partitioned list has two parts. -/
theorem Partitioned.exists_append (h : Partitioned p l) :
    ∃ l₁ l₂, l = l₁ ++ l₂ ∧ (∀ x ∈ l₁, p x = true) ∧ ∀ x ∈ l₂, p x = false := by
  induction l with
  | nil => exact ⟨[], [], rfl, nofun, nofun⟩
  | cons a l ih =>
    obtain ⟨ha, hl⟩ := List.pairwise_cons.1 h
    by_cases hp : p a = true
    · obtain ⟨l₁, l₂, rfl, h₁, h₂⟩ := ih hl
      exact ⟨a :: l₁, l₂, rfl, List.forall_mem_cons.2 ⟨hp, h₁⟩, h₂⟩
    · have hall : ∀ x ∈ l, p x = false := fun x hx => by
        by_contra hx'
        exact hp (ha x hx (by simpa using hx'))
      exact ⟨[], a :: l, rfl, nofun, List.forall_mem_cons.2 ⟨by simpa using hp, hall⟩⟩

/-- The parts, and what the rounds find. -/
theorem Partitioned.split (h : Partitioned p l) :
    ∃ l₁ l₂, l = l₁ ++ l₂ ∧ (∀ x ∈ l₁, p x = true) ∧ (∀ x ∈ l₂, p x = false) ∧
      partitionPoint p l = l₁.length := by
  obtain ⟨l₁, l₂, rfl, h₁, h₂⟩ := h.exists_append
  exact ⟨l₁, l₂, rfl, h₁, h₂, partitionPoint_append h₁ h₂⟩

/-! ## Positions at the end of an initial segment -/

theorem insertIdx_append (l₁ l₂ : List α) (x : α) :
    (l₁ ++ l₂).insertIdx l₁.length x = l₁ ++ x :: l₂ := by
  induction l₁ with
  | nil => rfl
  | cons a l₁ ih => simp [ih]

theorem eraseIdx_append_cons (l₁ l₂ : List α) (x : α) :
    (l₁ ++ x :: l₂).eraseIdx l₁.length = l₁ ++ l₂ := by
  rw [List.eraseIdx_append_of_length_le (Nat.le_refl _)]
  simp

theorem getElem?_append_cons (l₁ l₂ : List α) (x : α) : (l₁ ++ x :: l₂)[l₁.length]? = some x := by
  simp

theorem set_append_cons (l₁ l₂ : List α) (x y : α) :
    (l₁ ++ x :: l₂).set l₁.length y = l₁ ++ y :: l₂ := by
  simp

theorem modify_append_cons (l₁ l₂ : List α) (x : α) (f : α → α) :
    (l₁ ++ x :: l₂).modify l₁.length f = l₁ ++ f x :: l₂ := by
  induction l₁ with
  | nil => rfl
  | cons a l₁ ih => simp [ih]

/-- A position splits the list. -/
theorem exists_append_of_getElem? {x : α} {i : ℕ} (h : l[i]? = some x) :
    ∃ l₁ l₂, l = l₁ ++ x :: l₂ ∧ l₁.length = i := by
  obtain ⟨hi, rfl⟩ := List.getElem?_eq_some_iff.1 h
  refine ⟨l.take i, l.drop (i + 1), ?_, by simp; omega⟩
  rw [List.getElem_cons_drop, List.take_append_drop]

/-- An element of a list in which one was replaced is that one, or another one that was there. -/
theorem of_getElem?_set {x y : α} {i j : ℕ} (h : (l.set i y)[j]? = some x) :
    j = i ∧ x = y ∨ j ≠ i ∧ l[j]? = some x := by
  by_cases hij : i = j
  · subst hij
    have hlt : i < l.length := by simpa using (List.getElem?_eq_some_iff.1 h).1
    rw [List.getElem?_set_self hlt] at h
    exact .inl ⟨rfl, (Option.some.inj h).symm⟩
  · rw [List.getElem?_set_ne hij] at h
    exact .inr ⟨Ne.symm hij, h⟩

/-- Replacing one element changes a count by what the two elements count. -/
theorem countP_set_add (p : α → Bool) {x : α} {i : ℕ} (h : l[i]? = some x) (y : α) :
    (l.set i y).countP p + (if p x then 1 else 0) = l.countP p + if p y then 1 else 0 := by
  obtain ⟨l₁, l₂, rfl, rfl⟩ := exists_append_of_getElem? h
  rw [set_append_cons]
  simp only [List.countP_append, List.countP_cons]
  omega

/-- And what is collected by what is collected from them. -/
theorem perm_filterMap_set {β : Type*} (f : α → Option β) {x : α} {i : ℕ} (h : l[i]? = some x)
    (y : α) :
    ((f x).toList ++ (l.set i y).filterMap f).Perm ((f y).toList ++ l.filterMap f) := by
  obtain ⟨l₁, l₂, rfl, rfl⟩ := exists_append_of_getElem? h
  have hsplit (z : α) : ((l₁ ++ z :: l₂).filterMap f).Perm
      ((f z).toList ++ (l₁ ++ l₂).filterMap f) := by
    have hcons : (z :: (l₁ ++ l₂)).filterMap f = (f z).toList ++ (l₁ ++ l₂).filterMap f := by
      rw [List.filterMap_cons]
      cases f z with
      | none => rfl
      | some b => rfl
    exact hcons ▸ List.perm_middle.filterMap f
  rw [set_append_cons]
  refine ((hsplit y).append_left _).trans (.trans ?_ ((hsplit x).symm.append_left _))
  rw [← List.append_assoc, ← List.append_assoc]
  exact List.perm_append_comm.append_right _

end Arcana.Foundations
