import Mathlib.Algebra.BigOperators.Group.Finset.Basic
import Mathlib.Data.Multiset.UnionInter
import Mathlib.Data.UInt
import Arcana.Foundations.WeakOrder

/-!
# Counting an intersection

`set_intersection_count` goes over two sorted ranges at once and counts the pairs of equivalent
elements that it meets. What it has counted and what is still common to the unread tails add up to
the same number in every round (`loopBy_eq`). This number is the size of the intersection of the two
multisets of equivalence classes, the sum of the smaller ones of the multiplicities
(`common_eq_sum`).
-/

namespace Arcana.Algorithms

open Foundations

variable {α : Type*}

/-- `set_intersection_count` with a comparator, from a state of its loop: the count, and what is
left of the two ranges. -/
def setIntersectionCountByLoop (compare : α → α → Bool) (count : UInt32) : List α → List α → UInt32
  | [], _ => count
  | _ :: _, [] => count
  | x :: range₁, y :: range₂ =>
    if compare x y then setIntersectionCountByLoop compare count range₁ (y :: range₂)
    else if !compare y x then setIntersectionCountByLoop compare (count + 1) range₁ range₂
    else setIntersectionCountByLoop compare count (x :: range₁) range₂
  termination_by range₁ range₂ => range₁.length + range₂.length

/-- `set_intersection_count` with a comparator. -/
def setIntersectionCountBy (compare : α → α → Bool) (range₁ range₂ : List α) : UInt32 :=
  setIntersectionCountByLoop compare 0 range₁ range₂

/-- `set_intersection_count` with `operator<`, from a state of its loop. -/
def setIntersectionCountLoop [LT α] [DecidableLT α] (count : UInt32) : List α → List α → UInt32
  | [], _ => count
  | _ :: _, [] => count
  | x :: range₁, y :: range₂ =>
    if x < y then setIntersectionCountLoop count range₁ (y :: range₂)
    else if ¬ y < x then setIntersectionCountLoop (count + 1) range₁ range₂
    else setIntersectionCountLoop count (x :: range₁) range₂
  termination_by range₁ range₂ => range₁.length + range₂.length

/-- `set_intersection_count` with `operator<`. -/
def setIntersectionCount [LT α] [DecidableLT α] (range₁ range₂ : List α) : UInt32 :=
  setIntersectionCountLoop 0 range₁ range₂

/-- The overloads are the same loop. -/
theorem loop_eq_loopBy [LT α] [DecidableLT α] (n : UInt32) (l₁ l₂ : List α) :
    setIntersectionCountLoop n l₁ l₂ = setIntersectionCountByLoop (fun a b => a < b) n l₁ l₂ := by
  induction n, l₁, l₂ using setIntersectionCountLoop.induct with
  | case1 => simp [setIntersectionCountLoop, setIntersectionCountByLoop]
  | case2 => simp [setIntersectionCountLoop, setIntersectionCountByLoop]
  | case3 n x l₁ y l₂ hxy ih => simp [setIntersectionCountLoop, setIntersectionCountByLoop, hxy, ih]
  | case4 n x l₁ y l₂ hxy hyx ih =>
    simp [setIntersectionCountLoop, setIntersectionCountByLoop, hxy, hyx, ih]
  | case5 n x l₁ y l₂ hxy hyx ih =>
    simp [setIntersectionCountLoop, setIntersectionCountByLoop, hxy, not_not.1 hyx, ih]

section order

variable (comp : α → α → Bool) [IsStrictWeakOrder α fun a b => comp a b = true]

/-- The equivalence classes of the elements of a range, with their multiplicities. -/
def classes (l : List α) : Multiset (Quotient (equivalence comp)) :=
  (l : Multiset α).map (Quotient.mk _)

/-- How many elements two ranges have in common. -/
def common (l₁ l₂ : List α) : ℕ := (classes comp l₁ ∩ classes comp l₂).card

/-- **It is the sum of the smaller multiplicities over the equivalence classes.** -/
theorem common_eq_sum (l₁ l₂ : List α) : common comp l₁ l₂ =
    ∑ c ∈ (classes comp (l₁ ++ l₂)).toFinset, min ((classes comp l₁).count c)
      ((classes comp l₂).count c) := by
  have hmem : ∀ c ∈ classes comp l₁ ∩ classes comp l₂, c ∈ (classes comp (l₁ ++ l₂)).toFinset := by
    intro c hc
    rw [Multiset.mem_toFinset, classes, ← Multiset.coe_add, Multiset.map_add, Multiset.mem_add]
    exact .inl (Multiset.mem_inter.1 hc).1
  rw [common, ← Multiset.sum_count_eq_card hmem]
  exact Finset.sum_congr rfl fun c _ => Multiset.count_inter ..

/-- The counter does not overflow when one of the ranges has fewer elements than it has values. -/
theorem common_le_length (l₁ l₂ : List α) : common comp l₁ l₂ ≤ l₁.length := by
  calc common comp l₁ l₂ ≤ (classes comp l₁).card := Multiset.card_le_card Multiset.inter_le_left
    _ = l₁.length := Multiset.card_map ..

theorem common_comm (l₁ l₂ : List α) : common comp l₁ l₂ = common comp l₂ l₁ := by
  rw [common, Multiset.inter_comm, common]

variable {comp} {x y : α} {l₁ l₂ : List α}

/-- An element that is before another one is equivalent to none from that one on. -/
theorem mk_notMem_classes (hxy : comp x y = true)
    (h : (y :: l₂).Pairwise fun a b => comp b a = false) :
    Quotient.mk (equivalence comp) x ∉ classes comp (y :: l₂) := by
  intro hmem
  obtain ⟨z, hz, heq⟩ := Multiset.mem_map.1 hmem
  have hequiv : Incomparable comp z x := Quotient.exact heq
  have hxz : comp x z = true := by
    rcases List.mem_cons.1 (Multiset.mem_coe.1 hz) with rfl | hz
    · exact hxy
    · exact comp_of_comp_of_not_comp hxy ((List.pairwise_cons.1 h).1 z hz)
  cases hxz.symm.trans hequiv.2

theorem common_of_comp (hxy : comp x y = true)
    (h : (y :: l₂).Pairwise fun a b => comp b a = false) :
    common comp (x :: l₁) (y :: l₂) = common comp l₁ (y :: l₂) := by
  have hcons : classes comp (x :: l₁) = Quotient.mk _ x ::ₘ classes comp l₁ := rfl
  rw [common, hcons, Multiset.cons_inter_of_neg _ (mk_notMem_classes hxy h), common]

theorem common_of_incomparable (hxy : Incomparable comp x y) :
    common comp (x :: l₁) (y :: l₂) = common comp l₁ l₂ + 1 := by
  have hclass : Quotient.mk (equivalence comp) x = Quotient.mk _ y := Quotient.sound hxy
  have hcons : classes comp (x :: l₁) = Quotient.mk _ x ::ₘ classes comp l₁ := rfl
  have hcons' : classes comp (y :: l₂) = Quotient.mk _ x ::ₘ classes comp l₂ := by
    rw [hclass]
    rfl
  rw [common, hcons, hcons', Multiset.cons_inter_of_pos _ (Multiset.mem_cons_self _ _),
    Multiset.erase_cons_head, Multiset.card_cons, common]

/-- **In every round, what was counted and what the unread tails have in common add up to the
result.** -/
theorem loopBy_eq (n : UInt32) (h₁ : l₁.Pairwise fun a b => comp b a = false)
    (h₂ : l₂.Pairwise fun a b => comp b a = false) :
    setIntersectionCountByLoop comp n l₁ l₂ = n + UInt32.ofNat (common comp l₁ l₂) := by
  fun_induction setIntersectionCountByLoop comp n l₁ l₂ with
  | case1 n l₂ => simp [common, classes]
  | case2 n x l₁ => simp [common, classes]
  | case3 n x l₁ y l₂ hxy ih =>
    rw [ih (List.pairwise_cons.1 h₁).2 h₂, common_of_comp hxy h₂]
  | case4 n x l₁ y l₂ hxy hyx ih =>
    have hequiv : Incomparable comp x y := ⟨by simpa using hxy, by simpa using hyx⟩
    rw [ih (List.pairwise_cons.1 h₁).2 (List.pairwise_cons.1 h₂).2,
      common_of_incomparable hequiv, UInt32.ofNat_add, UInt32.add_assoc, UInt32.add_comm 1]
    rfl
  | case5 n x l₁ y l₂ hxy hyx ih =>
    have hyx' : comp y x = true := by simpa using hyx
    rw [ih h₁ (List.pairwise_cons.1 h₂).2, common_comm,
      ← common_of_comp hyx' h₁, common_comm]

/-- **`set_intersection_count` counts the intersection of the multisets**: the sum over the
equivalence classes of the smaller of the two multiplicities, whichever range comes first; and the
overload with `operator<` is the other one with `<`. -/
theorem set_intersection_count_spec (comp : α → α → Bool)
    [IsStrictWeakOrder α fun a b => comp a b = true]
    (β : Type*) [LT β] [DecidableLT β]
    (h₁ : l₁.Pairwise fun a b => comp b a = false) (h₂ : l₂.Pairwise fun a b => comp b a = false)
    (hsmall : common comp l₁ l₂ < 2 ^ 32) :
    (setIntersectionCountBy comp l₁ l₂).toNat =
        ∑ c ∈ (classes comp (l₁ ++ l₂)).toFinset,
          min ((classes comp l₁).count c) ((classes comp l₂).count c) ∧
      setIntersectionCountBy comp l₂ l₁ = setIntersectionCountBy comp l₁ l₂ ∧
      ∀ m₁ m₂ : List β, setIntersectionCount m₁ m₂ =
      setIntersectionCountBy (fun a b => a < b) m₁ m₂ := by
  have heq : setIntersectionCountBy comp l₁ l₂ = UInt32.ofNat (common comp l₁ l₂) := by
    rw [setIntersectionCountBy, loopBy_eq 0 h₁ h₂, UInt32.zero_add]
  refine ⟨?_, ?_, loop_eq_loopBy 0⟩
  · rw [← common_eq_sum, heq, UInt32.toNat_ofNat_of_lt' hsmall]
  · rw [heq, setIntersectionCountBy, loopBy_eq 0 h₂ h₁, UInt32.zero_add, common_comm]

end order

/-- Pairs that are ordered by their first components. -/
def byFirst (a b : ℕ × ℕ) : Bool := a.1 < b.1

instance : IsStrictWeakOrder (ℕ × ℕ) fun a b => byFirst a b = true :=
  strictWeakOrder_of_lt Prod.fst fun _ _ => decide_eq_true_iff

/-- Of three pairs with two different first components, two are found in the other range. -/
theorem set_intersection_count_pairs :
    setIntersectionCountBy byFirst [(1, 5), (2, 1), (2, 2)] [(1, 0), (1, 1), (2, 0)] = 2 ∧
    (setIntersectionCountBy byFirst [(1, 5), (2, 1), (2, 2)] [(1, 0), (1, 1), (2, 0)]).toNat =
      ∑ c ∈ (classes byFirst ([(1, 5), (2, 1), (2, 2)] ++ [(1, 0), (1, 1), (2, 0)])).toFinset,
        min ((classes byFirst [(1, 5), (2, 1), (2, 2)]).count c)
          ((classes byFirst [(1, 0), (1, 1), (2, 0)]).count c) ∧
    setIntersectionCountBy byFirst [(1, 0), (1, 1), (2, 0)] [(1, 5), (2, 1), (2, 2)] =
      setIntersectionCountBy byFirst [(1, 5), (2, 1), (2, 2)] [(1, 0), (1, 1), (2, 0)] := by
  have h₁ : [(1, 5), (2, 1), (2, 2)].Pairwise fun a b => byFirst b a = false := by simp [byFirst]
  have h₂ : [(1, 0), (1, 1), (2, 0)].Pairwise fun a b => byFirst b a = false := by simp [byFirst]
  obtain ⟨hcount, hswap, -⟩ := set_intersection_count_spec byFirst ℕ h₁ h₂
    ((common_le_length _ _ _).trans_lt (by decide))
  exact ⟨by simp [setIntersectionCountBy, setIntersectionCountByLoop, byFirst], hcount, hswap⟩

end Arcana.Algorithms
