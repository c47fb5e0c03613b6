import Mathlib.Data.Finset.Card
import Mathlib.Data.List.Lex
import Mathlib.Data.List.Perm.Basic
import Mathlib.Data.List.Permutation
import Mathlib.Order.Lattice

/-!
# The previous permutation

`std::prev_permutation` looks for the last element that is larger than its successor, exchanges it
with the last smaller one behind it and reverses what is behind it. Read from the end of the list
this is a recursion: a tail that is not the smallest of its permutations is stepped itself, and
otherwise the element in front of it is exchanged. The result is the greatest of the permutations
that are smaller in the lexicographic order (`prevPermutation_eq_some`), and there is none exactly
for the smallest one (`prevPermutation_eq_none`). So a loop that steps down from a list (`Descent`)
comes to an end and visits every permutation that is not greater once.
-/

namespace Arcana.Foundations

variable {α : Type*} [LinearOrder α]

/-- Exchange `x` with the last element that is smaller: that element, and the list with `x` in its
place. -/
def exchangeLast (x : α) : List α → Option (α × List α)
  | [] => none
  | y :: l =>
    match exchangeLast x l with
    | some (z, l') => some (z, y :: l')
    | none => if y < x then some (y, x :: l) else none

/-- `std::prev_permutation`; there is none after the smallest permutation. -/
def prevPermutation : List α → Option (List α)
  | [] => none
  | x :: l =>
    match prevPermutation l with
    | some l' => some (x :: l')
    | none => (exchangeLast x l).map fun exchanged => exchanged.1 :: exchanged.2.reverse

example : prevPermutation [2, 1, 3] = some [1, 3, 2] := by decide

variable {x y : α} {l l' m : List α}

theorem exchangeLast_eq_none (h : exchangeLast x l = none) : ∀ y ∈ l, x ≤ y := by
  induction l with
  | nil => simp
  | cons y l ih =>
    rw [exchangeLast] at h
    cases htail : exchangeLast x l with
    | some exchanged =>
      rw [htail] at h
      cases h
    | none =>
      rw [htail] at h
      simp only at h
      have hy : ¬ y < x := fun hlt => by
        rw [if_pos hlt] at h
        cases h
      exact List.forall_mem_cons.2 ⟨not_lt.1 hy, ih htail⟩

theorem exchangeLast_eq_some (h : exchangeLast x l = some (y, l')) :
    y < x ∧ ∃ l₁ l₂, l = l₁ ++ y :: l₂ ∧ l' = l₁ ++ x :: l₂ ∧ ∀ z ∈ l₂, x ≤ z := by
  induction l generalizing l' with
  | nil => cases h
  | cons z l ih =>
    rw [exchangeLast] at h
    cases htail : exchangeLast x l with
    | some exchanged =>
      rw [htail] at h
      cases h
      obtain ⟨hlt, l₁, l₂, rfl, hl', hl₂⟩ := ih htail
      exact ⟨hlt, z :: l₁, l₂, rfl, congrArg (z :: ·) hl', hl₂⟩
    | none =>
      rw [htail] at h
      obtain ⟨hlt, hsome⟩ := Option.ite_none_right_eq_some.1 h
      cases hsome
      exact ⟨hlt, [], l, rfl, rfl, exchangeLast_eq_none htail⟩

/-! ## The smallest and the greatest permutation -/

theorem cons_lt_cons (h : x < y) (l m : List α) : x :: l < y :: m :=
  List.cons_lt_cons_iff.2 (.inl h)

/-- A permutation begins with the same element, or with another one. -/
theorem exists_cons_of_perm (h : m.Perm (x :: l)) :
    ∃ a m', m = a :: m' ∧ (a = x ∧ m'.Perm l ∨ a ≠ x ∧ a ∈ l) := by
  cases m with
  | nil => exact absurd h.symm.eq_nil (List.cons_ne_nil x l)
  | cons a m =>
    refine ⟨a, m, rfl, ?_⟩
    by_cases heq : a = x
    · subst heq
      exact .inl ⟨rfl, h.cons_inv⟩
    · exact .inr ⟨heq, (List.mem_cons.1 (h.subset List.mem_cons_self)).resolve_left heq⟩

/-- A list in ascending order is the smallest of its permutations. -/
theorem le_of_perm_of_ascending (hl : l.Pairwise (· ≤ ·)) (h : m.Perm l) : l ≤ m := by
  induction l generalizing m with
  | nil => exact h.eq_nil.ge
  | cons x l ih =>
    obtain ⟨hx, htail⟩ := List.pairwise_cons.1 hl
    obtain ⟨a, m, rfl, ⟨rfl, hm⟩ | ⟨hne, hmem⟩⟩ := exists_cons_of_perm h
    · exact List.cons_le_cons a (ih htail hm)
    · exact (cons_lt_cons (lt_of_le_of_ne (hx a hmem) hne.symm) l m).le

/-- A list in descending order is the greatest of its permutations. -/
theorem le_of_perm_of_descending (hl : l.Pairwise (· ≥ ·)) (h : m.Perm l) : m ≤ l := by
  induction l generalizing m with
  | nil => exact h.eq_nil.le
  | cons x l ih =>
    obtain ⟨hx, htail⟩ := List.pairwise_cons.1 hl
    obtain ⟨a, m, rfl, ⟨rfl, hm⟩ | ⟨hne, hmem⟩⟩ := exists_cons_of_perm h
    · exact List.cons_le_cons a (ih htail hm)
    · exact (cons_lt_cons (lt_of_le_of_ne (hx a hmem) hne) m l).le

/-! ## What a step does -/

/-- **There is no previous permutation of a list in ascending order only.** -/
theorem prevPermutation_eq_none (h : prevPermutation l = none) : l.Pairwise (· ≤ ·) := by
  induction l with
  | nil => exact .nil
  | cons x l ih =>
    rw [prevPermutation] at h
    cases htail : prevPermutation l with
    | some l' =>
      rw [htail] at h
      cases h
    | none =>
      rw [htail] at h
      exact List.pairwise_cons.2 ⟨exchangeLast_eq_none (Option.map_eq_none_iff.1 h), ih htail⟩

/-- What an exchange makes of an element and an ascending tail: the greatest permutation with a
smaller head. -/
theorem exchange_spec (hl : l.Pairwise (· ≤ ·)) (h : exchangeLast x l = some (y, l')) :
    (y :: l'.reverse).Perm (x :: l) ∧ y < x ∧
      ∀ m, m.Perm (x :: l) → m < x :: l → m ≤ y :: l'.reverse := by
  obtain ⟨hlt, l₁, l₂, rfl, rfl, hl₂⟩ := exchangeLast_eq_some h
  have hperm : (y :: (l₁ ++ x :: l₂)).Perm (x :: (l₁ ++ y :: l₂)) := by
    calc (y :: (l₁ ++ x :: l₂)).Perm (y :: x :: (l₁ ++ l₂)) := List.perm_middle.cons y
      _ |>.Perm (x :: y :: (l₁ ++ l₂)) := .swap ..
      _ |>.Perm (x :: (l₁ ++ y :: l₂)) := List.perm_middle.symm.cons x
  obtain ⟨hl₁, hyl₂, hl₁₂⟩ := List.pairwise_append.1 hl
  obtain ⟨hy, hl₂'⟩ := List.pairwise_cons.1 hyl₂
  have hascending : (l₁ ++ x :: l₂).Pairwise (· ≤ ·) := by
    refine List.pairwise_append.2 ⟨hl₁, List.pairwise_cons.2 ⟨hl₂, hl₂'⟩, fun a ha b hb => ?_⟩
    rcases List.mem_cons.1 hb with rfl | hb
    · exact (hl₁₂ a ha y List.mem_cons_self).trans hlt.le
    · exact hl₁₂ a ha b (.tail _ hb)
  refine ⟨((List.reverse_perm _).cons y).trans hperm, hlt, fun m hm hless => ?_⟩
  obtain ⟨a, m, rfl, ⟨rfl, hm'⟩ | ⟨hne, hmem⟩⟩ := exists_cons_of_perm hm
  · -- the tail is the smallest of its permutations
    have htail := (List.cons_lt_cons_iff.1 hless).resolve_left (lt_irrefl a)
    exact absurd htail.2 (not_lt.2 (le_of_perm_of_ascending hl hm'))
  · have hax : a < x := (List.cons_lt_cons_iff.1 hless).resolve_right fun h => hne h.1
    -- the head is one of the elements up to `y`
    have hay : a ≤ y := by
      rcases List.mem_append.1 hmem with hmem | hmem
      · exact hl₁₂ a hmem y List.mem_cons_self
      · rcases List.mem_cons.1 hmem with rfl | hmem
        · exact le_rfl
        · exact absurd hax (not_lt.2 (hl₂ a hmem))
    rcases hay.lt_or_eq with hlt' | rfl
    · exact (cons_lt_cons hlt' _ _).le
    · have htail : m.Perm (l₁ ++ x :: l₂) := (hm.trans hperm.symm).cons_inv
      refine List.cons_le_cons a (le_of_perm_of_descending ?_
        (htail.trans (List.reverse_perm _).symm))
      exact List.pairwise_reverse.2 hascending

/-- **The previous permutation is the greatest one that is smaller.** -/
theorem prevPermutation_eq_some (h : prevPermutation l = some l') :
    l'.Perm l ∧ l' < l ∧ ∀ m, m.Perm l → m < l → m ≤ l' := by
  induction l generalizing l' with
  | nil => cases h
  | cons x l ih =>
    rw [prevPermutation] at h
    cases htail : prevPermutation l with
    | some tail =>
      rw [htail] at h
      cases h
      obtain ⟨hperm, hlt, hgreatest⟩ := ih htail
      refine ⟨hperm.cons x, List.cons_lt_cons_iff.2 (.inr ⟨rfl, hlt⟩), fun m hm hless => ?_⟩
      obtain ⟨a, m, rfl, ⟨rfl, hm'⟩ | ⟨hne, -⟩⟩ := exists_cons_of_perm hm
      · have hless' := (List.cons_lt_cons_iff.1 hless).resolve_left (lt_irrefl a)
        exact List.cons_le_cons a (hgreatest m hm' hless'.2)
      · have hax : a < x := (List.cons_lt_cons_iff.1 hless).resolve_right fun h => hne h.1
        exact (cons_lt_cons hax _ _).le
    | none =>
      rw [htail] at h
      obtain ⟨⟨y, exchanged⟩, hexchange, rfl⟩ := Option.map_eq_some_iff.1 h
      obtain ⟨hperm, hlt, hgreatest⟩ := exchange_spec (prevPermutation_eq_none htail) hexchange
      exact ⟨hperm, cons_lt_cons hlt _ _, hgreatest⟩

/-! ## The permutations from one down -/

/-- The lists that are visited from `l` on. -/
inductive Descent : List α → List (List α) → Prop
  | last {l : List α} : prevPermutation l = none → Descent l [l]
  | step {l l' : List α} {ls : List (List α)} : prevPermutation l = some l' → Descent l' ls →
    Descent l (l :: ls)

/-- There is an end, since the permutations that are not greater get fewer. -/
theorem exists_descent (l : List α) : ∃ ls, Descent l ls := by
  induction hk : (l.permutations.toFinset.filter (· ≤ l)).card using Nat.strong_induction_on
    generalizing l with
  | _ k ih =>
    cases hprev : prevPermutation l with
    | none => exact ⟨[l], .last hprev⟩
    | some l' =>
      obtain ⟨hperm, hlt, -⟩ := prevPermutation_eq_some hprev
      have hsub : l'.permutations.toFinset.filter (· ≤ l') ⊆
          l.permutations.toFinset.filter (· ≤ l) := by
        intro m hm
        simp only [Finset.mem_filter, List.mem_toFinset, List.mem_permutations] at hm ⊢
        exact ⟨hm.1.trans hperm, hm.2.trans hlt.le⟩
      have hfewer : (l'.permutations.toFinset.filter (· ≤ l')).card < k := by
        rw [← hk]
        apply Finset.card_lt_card
        apply (Finset.ssubset_iff_of_subset hsub).2
        exact ⟨l, by simp, by simp [hlt]⟩
      obtain ⟨ls, hls⟩ := ih _ hfewer l' rfl
      exact ⟨l :: ls, .step hprev hls⟩

/-- **The permutations that are not greater are visited**, and nothing else. -/
theorem Descent.mem_iff {ls : List (List α)} (h : Descent l ls) : m ∈ ls ↔ m.Perm l ∧ m ≤ l := by
  induction h with
  | last hprev =>
    rename_i l
    rw [List.mem_singleton]
    constructor
    · rintro rfl
      exact ⟨.refl _, le_rfl⟩
    · rintro ⟨hm, hle⟩
      exact le_antisymm hle (le_of_perm_of_ascending (prevPermutation_eq_none hprev) hm)
  | step hprev _ ih =>
    obtain ⟨hperm, hlt, hgreatest⟩ := prevPermutation_eq_some hprev
    rw [List.mem_cons, ih]
    constructor
    · rintro (rfl | ⟨hm, hle⟩)
      · exact ⟨.refl _, le_rfl⟩
      · exact ⟨hm.trans hperm, hle.trans hlt.le⟩
    · rintro ⟨hm, hle⟩
      rcases hle.eq_or_lt with heq | hless
      · exact .inl heq
      · exact .inr ⟨hm.trans hperm.symm, hgreatest m hm hless⟩

/-- **None of them is visited twice.** -/
theorem Descent.nodup {ls : List (List α)} (h : Descent l ls) : ls.Nodup := by
  induction h with
  | last => exact List.nodup_singleton _
  | step hprev htail ih =>
    refine List.nodup_cons.2 ⟨fun hmem => ?_, ih⟩
    have hle := (htail.mem_iff.1 hmem).2
    exact absurd (prevPermutation_eq_some hprev).2.1 (not_lt.2 hle)

end Arcana.Foundations
