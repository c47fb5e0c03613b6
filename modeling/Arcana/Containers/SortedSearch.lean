import Arcana.Containers.SortedVector

/-!
# Searches among equivalent elements

`sorted_vector::find` looks at one element only: the first that is not before the key. When it is
equivalent to the key it is the first one of those that are (`find_cases`), and a search for another
one of them comes back with `end()`. Which of them is the first depends on the history of the
vector, since an insertion puts the new element in front of them. So a search misses nothing exactly
when the first equivalent element satisfies the predicate, or none does (`finds_iff`).

A transparent comparator compares elements and keys of two types: it is an order on what they stand
for.
-/

namespace Arcana.Containers.SortedVector

open Foundations

variable {α κ Ω : Type*}

/-- What is expected of a search: `end()` when no element satisfies the predicate, and otherwise an
iterator to one that does. -/
def Finds (equal : α → κ → Bool) (data : List α) (k : κ) (found : Option ℕ) : Prop :=
  (found = none ↔ ∀ x ∈ data, equal x k = false) ∧
  ∀ i ∈ found, ∃ x, data[i]? = some x ∧ equal x k = true

-- `CompareT`, what an element and what a key stands for in its order, and the predicate
variable (comp : Ω → Ω → Bool) (el : α → Ω) (key : κ → Ω) (equal : α → κ → Bool)

/-- Of the elements that are equivalent to the key the first one satisfies the predicate, or none
does. -/
def FirstDecides (data : List α) (k : κ) : Prop :=
  ∀ x ∈ data.find? fun x => Incomparable comp (el x) (key k),
    equal x k = true ∨ ∀ y ∈ data, equal y k = false

instance (data : List α) (k : κ) : Decidable (FirstDecides comp el key equal data k) :=
  inferInstanceAs (Decidable (∀ x ∈ data.find? _, _ ∨ _))

variable {comp el key equal} [IsStrictWeakOrder Ω fun a b => comp a b = true]
  {data : List α} {k : κ}

/-- **A search decides from the first element that is equivalent to the key**, and finds nothing
when there is none. -/
theorem find_cases (h : Sorted (fun a b => comp (el a) (el b)) data)
    (refines : ∀ x, equal x k = true → Incomparable comp (el x) (key k)) :
    (∀ x ∈ data, ¬ Incomparable comp (el x) (key k)) ∧
        find (fun x k => comp (el x) (key k)) equal data k = none ∨
      ∃ l₁ x l₂, data = l₁ ++ x :: l₂ ∧ (∀ y ∈ l₁, ¬ Incomparable comp (el y) (key k)) ∧
        Incomparable comp (el x) (key k) ∧
        find (fun x k => comp (el x) (key k)) equal data k =
          if equal x k then some l₁.length else none := by
  obtain ⟨l₁, l₂, rfl, h₁, h₂, hpart⟩ := (Partitioned.of_sorted el h (key k)).split
  have hbefore : ∀ y ∈ l₁, ¬ Incomparable comp (el y) (key k) := by
    intro y hy hequiv
    cases (h₁ y hy).symm.trans hequiv.1
  rw [find, partitionPoint, hpart]
  cases l₂ with
  | nil =>
    left
    rw [List.append_nil, List.getElem?_eq_none le_rfl]
    exact ⟨hbefore, rfl⟩
  | cons x l₃ =>
    rw [getElem?_append_cons]
    have hx := h₂ x (.head _)
    by_cases hkey : comp (key k) (el x) = true
    · -- the key is before what is left
      left
      have hafter : ∀ y ∈ x :: l₃, ¬ Incomparable comp (el y) (key k) := by
        intro y hy hequiv
        have hyx : comp (el y) (el x) = true := comp_of_incomparable hequiv hkey
        rcases List.mem_cons.1 hy with rfl | hy
        · cases hyx.symm.trans (comp_irrefl (el y))
        · have hsorted := (List.pairwise_cons.1 (List.pairwise_append.1 h).2.1).1 y hy
          cases hyx.symm.trans hsorted
      have hequal : equal x k = false := by
        by_contra hequal
        exact hafter x (.head _) (refines x (by simpa using hequal))
      refine ⟨fun y hy => ?_, by simp [hequal]⟩
      rcases List.mem_append.1 hy with hy | hy
      · exact hbefore y hy
      · exact hafter y hy
    · right
      exact ⟨l₁, x, l₃, rfl, hbefore, ⟨hx, by simpa using hkey⟩, rfl⟩

/-- **A search misses nothing exactly when the first equivalent element satisfies the predicate, or
none does.** `find(key)` is the case in which the predicate is `==`. -/
theorem finds_iff (h : Sorted (fun a b => comp (el a) (el b)) data)
    (refines : ∀ x, equal x k = true → Incomparable comp (el x) (key k)) :
    Finds equal data k (find (fun x k => comp (el x) (key k)) equal data k) ↔
      FirstDecides comp el key equal data k := by
  rcases find_cases h refines with ⟨hnone, hfind⟩ | ⟨l₁, x, l₂, rfl, hbefore, hx, hfind⟩
  · have hequal : ∀ x ∈ data, equal x k = false := by
      intro x hx
      by_contra hequal
      exact hnone x hx (refines x (by simpa using hequal))
    have hfirst : data.find? (fun x => Incomparable comp (el x) (key k)) = none := by
      simpa using hnone
    rw [hfind, FirstDecides, hfirst]
    exact iff_of_true ⟨iff_of_true rfl hequal, nofun⟩ nofun
  · have hfirst : (l₁ ++ x :: l₂).find? (fun x => Incomparable comp (el x) (key k)) = some x := by
      rw [List.find?_append, List.find?_eq_none.2 (by simpa using hbefore)]
      simp [hx]
    rw [hfind, FirstDecides, hfirst, Finds]
    cases hequal : equal x k with
    | true =>
      have hmem : x ∈ l₁ ++ x :: l₂ := by simp
      refine iff_of_true ⟨iff_of_false nofun fun hall => ?_, fun i hi => ?_⟩ fun y hy => .inl ?_
      · cases (hall x hmem).symm.trans hequal
      · obtain rfl : l₁.length = i := by simpa using hi
        exact ⟨x, getElem?_append_cons l₁ l₂ x, hequal⟩
      · obtain rfl := Option.some.inj hy
        exact hequal
    | false => simp [hequal]

/-- Pairs are looked up by their first components. -/
theorem finds_iff_pairs : Finds (fun (x : ℕ × ℕ) k => x.1 == k) [(1, 0), (2, 5), (2, 7)] 2
    (find (fun (x : ℕ × ℕ) (k : ℕ) => x.1 < k) (fun x k => x.1 == k)
      [(1, 0), (2, 5), (2, 7)] 2) := by
  have hweak : IsStrictWeakOrder ℕ fun a b => decide (a < b) = true :=
    strictWeakOrder_of_lt (fun n => n) fun _ _ => decide_eq_true_iff
  have hsorted : Sorted (fun a b : ℕ × ℕ => decide (a.1 < b.1)) [(1, 0), (2, 5), (2, 7)] := by
    simp [Sorted]
  have hfirst : FirstDecides (fun a b : ℕ => a < b) Prod.fst (fun k => k)
    (fun (x : ℕ × ℕ) k => x.1 == k)
      [(1, 0), (2, 5), (2, 7)] 2 := by decide
  exact (finds_iff hsorted (by simp [Incomparable])).2 hfirst

/-- **An equivalent element that was inserted later hides the one that is searched for.** -/
theorem not_finds_hidden :
    ∃ data : List (ℕ × ℕ), data = insertRange UniqueVector.byKey [] [(1, 0), (1, 1)] ∧
    Sorted UniqueVector.byKey data ∧ (1, 0) ∈ data ∧
    ¬ Finds (fun x k => x == k) data (1, 0)
      (find UniqueVector.byKey (fun x k => x == k) data (1, 0)) := by
  have hfind : find UniqueVector.byKey (fun x k => x == k) [(1, 1), (1, 0)] (1, 0) = none := by
    decide
  refine ⟨[(1, 1), (1, 0)], by decide, by simp [Sorted, UniqueVector.byKey], by simp, ?_⟩
  rw [hfind, Finds]
  simp

end Arcana.Containers.SortedVector
