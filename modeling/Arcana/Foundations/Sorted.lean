import Mathlib.Data.List.Nodup
import Mathlib.Data.List.Sort
import Mathlib.Order.Lattice

/-!
# Sorted lists

A strictly increasing list whose elements form an initial segment of another one is a prefix of it
(`prefix_of_pairwise_lt`): how "the `k`-th of these is the `k`-th of those" is proved of two
histories that are ordered by the same stamps. A list that is sorted by any transitive relation is
so when it is continued behind its last element (`pairwise_concat`). The sorted list of a list is
unique (`eq_sorted`), so that it can be put together from those of two parts (`sorted_append`).
-/

namespace Arcana.Foundations

variable {α : Type*}

/-- A strictly increasing list that holds an initial segment of another one is a prefix of it. -/
theorem prefix_of_pairwise_lt [LinearOrder α] {l₁ l₂ : List α} (h₁ : l₁.Pairwise (· < ·))
    (h₂ : l₂.Pairwise (· < ·)) (sub : ∀ x ∈ l₁, x ∈ l₂)
    (down : ∀ x ∈ l₂, ∀ y ∈ l₁, x < y → x ∈ l₁) : l₁ <+: l₂ := by
  induction l₁ generalizing l₂ with
  | nil => exact List.nil_prefix
  | cons x l₁ ih =>
    obtain ⟨hx, hl₁⟩ := List.pairwise_cons.1 h₁
    cases l₂ with
    | nil => cases sub x List.mem_cons_self
    | cons y l₂ =>
      obtain ⟨hy, hl₂⟩ := List.pairwise_cons.1 h₂
      -- the least elements agree: each is in the other list
      have hxy : x = y := by
        rcases List.mem_cons.1 (sub x List.mem_cons_self) with e | hmem
        · exact e
        · have hlt := hy x hmem
          rcases List.mem_cons.1 (down y List.mem_cons_self x List.mem_cons_self hlt) with e | hmem'
          · exact e.symm
          · exact absurd (lt_trans hlt (hx y hmem')) (lt_irrefl y)
      subst hxy
      refine (List.prefix_cons_inj x).2 (ih hl₁ hl₂ (fun z hz => ?_) fun z hz y hmem hlt => ?_)
      · exact (List.mem_cons.1 (sub z (.tail _ hz))).resolve_left (ne_of_gt (hx z hz))
      · have hdown := down z (.tail _ hz) y (.tail _ hmem) hlt
        exact (List.mem_cons.1 hdown).resolve_left (ne_of_gt (hy z hz))

/-- An element that the last one is related to goes to the end. -/
theorem pairwise_concat {R : α → α → Prop} (trans : ∀ {a b c}, R a b → R b c → R a c) {l : List α}
    {x : α} (h : l.Pairwise R) (hlast : ∀ last ∈ l.getLast?, R last x) : (l ++ [x]).Pairwise R := by
  refine List.pairwise_append.2 ⟨h, List.pairwise_singleton _ _, fun y hy b hb => ?_⟩
  obtain rfl := List.mem_singleton.1 hb
  rcases List.eq_nil_or_concat l with rfl | ⟨l', last, rfl⟩
  · cases hy
  · rw [List.concat_eq_append] at h hy hlast
    have hrel : R last b := hlast last (by simp)
    rcases List.mem_append.1 hy with hy | hy
    · exact trans ((List.pairwise_append.1 h).2.2 y hy last (.head _)) hrel
    · exact List.mem_singleton.1 hy ▸ hrel

/-- A list without repetition whose elements are all `x`, and that holds `x`. -/
theorem eq_singleton_of_nodup {l : List α} {x : α} (h : l.Nodup) (hx : x ∈ l)
    (all : ∀ y ∈ l, y = x) : l = [x] := by
  cases l with
  | nil => cases hx
  | cons y l =>
    obtain rfl := all y List.mem_cons_self
    cases l with
    | nil => rfl
    | cons z l =>
      obtain rfl := all z (.tail _ List.mem_cons_self)
      simp at h

/-! ## Sorting -/

section sorted

variable [LinearOrder α] {l l' l₁ l₂ : List α}

/-- The list in ascending order. -/
def sorted (l : List α) : List α := l.insertionSort (· ≤ ·)

theorem sorted_perm (l : List α) : (sorted l).Perm l := List.perm_insertionSort _ l

theorem pairwise_sorted (l : List α) : (sorted l).Pairwise (· ≤ ·) :=
  List.pairwise_insertionSort _ l

/-- A permutation that is in ascending order is the sorted list. -/
theorem eq_sorted (hl : l'.Pairwise (· ≤ ·)) (h : l'.Perm l) : l' = sorted l :=
  (h.trans (sorted_perm l).symm).eq_of_pairwise' hl (pairwise_sorted l)

theorem sorted_congr (h : l'.Perm l) : sorted l' = sorted l :=
  eq_sorted (pairwise_sorted l') ((sorted_perm l').trans h)

/-- **A list whose first part is not above its second one is sorted by sorting its parts.** -/
theorem sorted_append (h : ∀ x ∈ l₁, ∀ y ∈ l₂, x ≤ y) :
    sorted (l₁ ++ l₂) = sorted l₁ ++ sorted l₂ := by
  symm
  apply eq_sorted
  · refine List.pairwise_append.2 ⟨pairwise_sorted l₁, pairwise_sorted l₂, fun x hx y hy => ?_⟩
    exact h x ((sorted_perm l₁).mem_iff.1 hx) y ((sorted_perm l₂).mem_iff.1 hy)
  · exact (sorted_perm l₁).append (sorted_perm l₂)

/-- A monotone function can be applied before or after sorting. -/
theorem sorted_map {β : Type*} [LinearOrder β] {f : α → β} (hf : Monotone f) (l : List α) :
    sorted (l.map f) = (sorted l).map f := by
  symm
  apply eq_sorted
  · exact (pairwise_sorted l).map f fun _ _ hle => hf hle
  · exact (sorted_perm l).map f

end sorted

end Arcana.Foundations
