import Mathlib.Algebra.Field.Rat
import Mathlib.Algebra.Order.Field.Basic
import Mathlib.Algebra.Order.Ring.Rat
import Mathlib.Data.Nat.Cast.Order.Basic
import Arcana.Foundations.Sorted

/-!
# The median

`median` lets `std::nth_element` put the middle element of the sorted order into its place. When the
length is even it also needs the element below, which is the largest one of the front half, in
whatever order the algorithm left it: a list that is split into two parts, of which no element of
the first is above one of the second, is sorted by sorting its parts (`sorted_append`). A modifier
that is monotone does not change the order, so that what is returned is the median of the modified
values (`median_spec`).
-/

namespace Arcana.Algorithms

open Foundations

variable {α T : Type*}

/-! ## `median` -/

section median

variable [LinearOrder α]

/-- `std::max_element`, with what its iterator points to. -/
def maxElement : List α → Option α
  | [] => none
  | x :: l => some (l.foldl (fun largest x => if largest < x then x else largest) x)

/-- What `std::nth_element` may make of a list: a permutation that has the element of the sorted
list at `n`, and nothing in front of it that is larger than something from there on. -/
structure NthElement (n : ℕ) (l l' : List α) : Prop where
  perm : l'.Perm l
  nth : l'[n]? = (sorted l)[n]?
  partition : ∀ x ∈ l'.take n, ∀ y ∈ l'.drop n, x ≤ y

/-- `median`, with the list that it leaves behind; there is no result when the assertion fails.
`nthElement` stands for `std::nth_element`. -/
def median [Field T] (nthElement : ℕ → List α → List α) (modifier : α → T) (l : List α) :
    Option (T × List α) :=
  let length := l.length
  if length = 0 then none
  else if length % 2 = 1 then
    let idx := length / 2
    let l := nthElement idx l
    l[idx]?.map fun nth => (modifier nth, l)
  else
    let idx := length / 2
    let l := nthElement idx l
    (l[idx]?).bind fun nth =>
      (maxElement (l.take idx)).map fun nthMinusOne =>
        ((modifier nthMinusOne + modifier nth) / 2, l)

/-- The median of a list of values: the middle element of the sorted list, or the mean of the
two. -/
def middle [Field T] [LinearOrder T] (values : List T) : T :=
  if values.length % 2 = 1 then (sorted values).getD (values.length / 2) 0
  else ((sorted values).getD (values.length / 2 - 1) 0 +
    (sorted values).getD (values.length / 2) 0) / 2

variable {l l' : List α} {x : α} {n : ℕ}

/-- The largest element that was met so far. -/
theorem foldl_max (l : List α) (x : α) :
    let largest := l.foldl (fun largest x => if largest < x then x else largest) x
    largest ∈ x :: l ∧ ∀ y ∈ x :: l, y ≤ largest := by
  induction l generalizing x with
  | nil => simp
  | cons a l ih =>
    rw [List.foldl_cons]
    split_ifs with hlt
    · obtain ⟨hmem, hle⟩ := ih a
      refine ⟨.tail _ hmem, List.forall_mem_cons.2 ⟨?_, hle⟩⟩
      exact hlt.le.trans (hle a List.mem_cons_self)
    · obtain ⟨hmem, hle⟩ := ih x
      obtain ⟨hx, hl⟩ := List.forall_mem_cons.1 hle
      refine ⟨?_, List.forall_mem_cons.2 ⟨hx, List.forall_mem_cons.2 ⟨(not_lt.1 hlt).trans hx, hl⟩⟩⟩
      rcases List.mem_cons.1 hmem with heq | hmem
      · exact List.mem_cons.2 (.inl heq)
      · exact .tail _ (.tail _ hmem)

/-- **The largest element is the last one of the sorted list.** -/
theorem maxElement_eq (l : List α) : maxElement l = (sorted l)[l.length - 1]? := by
  cases l with
  | nil => rfl
  | cons x l =>
    obtain ⟨hmem, hle⟩ := foldl_max l x
    have hlength : (sorted (x :: l)).length = l.length + 1 := (sorted_perm (x :: l)).length_eq
    have hlast : l.length < (sorted (x :: l)).length := by omega
    change some _ = (sorted (x :: l))[l.length]?
    rw [List.getElem?_eq_getElem hlast, Option.some_inj]
    apply le_antisymm
    · obtain ⟨i, hi, heq⟩ := List.mem_iff_getElem.1 ((sorted_perm (x :: l)).mem_iff.2 hmem)
      rw [← heq]
      exact List.sortedLE_insertionSort.getElem_le_getElem_of_le (by omega)
    · exact hle _ ((sorted_perm (x :: l)).mem_iff.1 (List.getElem_mem hlast))

/-- **The element below the middle is the largest one of the front half**, whatever its order. -/
theorem NthElement.maxElement_take (h : NthElement n l l') (hn : 0 < n) (hlt : n < l.length) :
    maxElement (l'.take n) = (sorted l)[n - 1]? := by
  have hlength : l'.length = l.length := h.perm.length_eq
  have htake : (l'.take n).length = n := by
    rw [List.length_take]
    omega
  have hsorted : sorted l = sorted (l'.take n) ++ sorted (l'.drop n) := by
    rw [← sorted_append h.partition, List.take_append_drop]
    exact (sorted_congr h.perm).symm
  have hfirst : n - 1 < (sorted (l'.take n)).length := by
    rw [(sorted_perm _).length_eq, htake]
    omega
  rw [maxElement_eq, htake, hsorted, List.getElem?_append_left hfirst]

section field

variable [Field T] [LinearOrder T] {nthElement : ℕ → List α → List α} {modifier : α → T}

theorem middle_congr {values values' : List T} (h : values'.Perm values) :
    middle values' = middle values := by
  rw [middle, middle, h.length_eq, sorted_congr h]

/-- What `median` returns after any rearrangement that `std::nth_element` may make. -/
theorem median_eq (hne : l ≠ []) (hmono : Monotone modifier)
    (hnth : NthElement (l.length / 2) l (nthElement (l.length / 2) l)) :
    median nthElement modifier l = some (middle (l.map modifier), nthElement (l.length / 2) l) := by
  have hpos : 0 < l.length := List.length_pos_iff.2 hne
  have hlt : l.length / 2 < (sorted l).length := by
    rw [(sorted_perm l).length_eq]
    omega
  have hnth' : (nthElement (l.length / 2) l)[l.length / 2]? = some (sorted l)[l.length / 2] := by
    rw [hnth.nth, List.getElem?_eq_getElem hlt]
  have hvalues (i : ℕ) (hi : i < (sorted l).length) :
      (sorted (l.map modifier)).getD i 0 = modifier (sorted l)[i] := by
    rw [sorted_map hmono, List.getD_eq_getElem?_getD, List.getElem?_map,
      List.getElem?_eq_getElem hi]
    rfl
  rw [median, if_neg (by omega), middle, List.length_map, hvalues _ hlt]
  by_cases hodd : l.length % 2 = 1
  · rw [if_pos hodd, if_pos hodd]
    simp only [hnth', Option.map_some]
  · have hlt' : l.length / 2 - 1 < (sorted l).length := by omega
    have hmax : maxElement ((nthElement (l.length / 2) l).take (l.length / 2)) =
        some (sorted l)[l.length / 2 - 1] := by
      rw [hnth.maxElement_take (by omega) (by omega), List.getElem?_eq_getElem hlt']
    rw [if_neg hodd, if_neg hodd, hvalues _ hlt']
    simp only [hnth', hmax, Option.bind_some, Option.map_some]

/-- **`median` returns the median of the modified values**, for every rearrangement that
`std::nth_element` may make: so it depends on the elements only, not on their order, and it leaves a
permutation of the list. -/
theorem median_spec (nthElement : ℕ → List α → List α) (modifier : α → T) (hne : l ≠ [])
    (hmono : Monotone modifier) (hnth : NthElement (l.length / 2) l (nthElement (l.length / 2) l)) :
    (∃ l', median nthElement modifier l = some (middle (l.map modifier), l') ∧ l'.Perm l) ∧
      ∀ (nthElement' : ℕ → List α → List α) (l₁ : List α), l₁.Perm l →
        NthElement (l₁.length / 2) l₁ (nthElement' (l₁.length / 2) l₁) →
        (median nthElement' modifier l₁).map Prod.fst =
        (median nthElement modifier l).map Prod.fst := by
  have heq := median_eq hne hmono hnth
  refine ⟨⟨_, heq, hnth.perm⟩, fun nthElement' l₁ hperm hnth' => ?_⟩
  have hne₁ : l₁ ≠ [] := fun hnil => by
    rw [hnil] at hperm
    exact hne hperm.symm.eq_nil
  rw [heq, median_eq hne₁ hmono hnth', middle_congr (hperm.map modifier)]
  rfl

end field

/-- A partial partition of four numbers. -/
theorem median_spec_four :
    ∃ l', median (fun _ _ => [2, 1, 3, 4]) (fun n : ℕ => (n : ℚ)) [3, 1, 4, 2] =
    some (middle [3, 1, 4, 2], l') ∧ l'.Perm [3, 1, 4, 2] := by
  have hnth : NthElement ([3, 1, 4, 2].length / 2) [3, 1, 4, 2] [2, 1, 3, 4] :=
    { perm := by decide
      nth := by decide
      partition := by decide }
  have hspec := (median_spec (fun _ _ => [2, 1, 3, 4]) (fun n : ℕ => (n : ℚ))
    (l := [3, 1, 4, 2]) (by decide) Nat.mono_cast hnth).1
  simpa using hspec

end median

end Arcana.Algorithms
