import Mathlib.Order.Lattice
import Mathlib.Order.RelClasses
import Mathlib.Tactic.ByContra
import Arcana.Foundations.Partition

/-!
# Strict weak orders that are computed

A comparator of the standard library is a test `comp` that is a strict weak order: neither of two
elements may be before the other one (`Incomparable`), and then each of them stands where the other
one does (`comp_of_incomparable`, `comp_of_comp_of_incomparable`). A test that compares what its
arguments are mapped to in a linear order is one (`strictWeakOrder_of_lt`).
-/

namespace Arcana.Foundations

variable {α : Type*} {comp : α → α → Bool} [IsStrictWeakOrder α fun a b => comp a b = true]
  {a b c : α}

theorem comp_trans (hab : comp a b = true) (hbc : comp b c = true) : comp a c = true :=
  trans_of (fun a b => comp a b = true) hab hbc

theorem comp_irrefl (a : α) : comp a a = false := by
  have hirrefl := irrefl_of (fun a b => comp a b = true) a
  simpa using hirrefl

theorem not_comp_of_comp (h : comp a b = true) : comp b a = false := by
  by_contra hba
  have haa : comp a a = true := comp_trans h (by simpa using hba)
  cases haa.symm.trans (comp_irrefl a)

/-- Neither element is before the other one. -/
def Incomparable (comp : α → α → Bool) (a b : α) : Prop := comp a b = false ∧ comp b a = false

instance (comp : α → α → Bool) (a b : α) : Decidable (Incomparable comp a b) :=
  inferInstanceAs (Decidable (_ ∧ _))

omit [IsStrictWeakOrder α fun a b => comp a b = true] in
theorem Incomparable.symm (h : Incomparable comp a b) : Incomparable comp b a := ⟨h.2, h.1⟩

theorem Incomparable.refl (a : α) : Incomparable comp a a := ⟨comp_irrefl a, comp_irrefl a⟩

theorem Incomparable.trans (hab : Incomparable comp a b) (hbc : Incomparable comp b c) :
    Incomparable comp a c := by
  have hincomp : ¬comp a c = true ∧ ¬comp c a = true :=
    (‹IsStrictWeakOrder α fun a b => comp a b = true›).incomp_trans a b c
      ⟨by simp [hab.1], by simp [hab.2]⟩ ⟨by simp [hbc.1], by simp [hbc.2]⟩
  exact ⟨by simpa using hincomp.1, by simpa using hincomp.2⟩

/-- What is after an element is after those incomparable to it. -/
theorem comp_of_incomparable (hab : Incomparable comp a b) (hbc : comp b c = true) :
    comp a c = true := by
  by_contra hac
  have hca : comp c a = false := by
    by_contra hca
    have hba := comp_trans hbc (by simpa using hca)
    cases hba.symm.trans hab.2
  have hcb : Incomparable comp c b := .trans ⟨hca, by simpa using hac⟩ hab
  cases hbc.symm.trans hcb.2

/-- What is before an element is before those incomparable to it. -/
theorem comp_of_comp_of_incomparable (hab : comp a b = true) (hbc : Incomparable comp b c) :
    comp a c = true := by
  by_contra hac
  have hca : comp c a = false := by
    by_contra hca
    have hcb := comp_trans (by simpa using hca) hab
    cases hcb.symm.trans hbc.2
  have hba : Incomparable comp b a := hbc.trans ⟨hca, by simpa using hac⟩
  cases hab.symm.trans hba.2

/-- Not being before is transitive: this is what makes the order weak. -/
theorem not_comp_trans (hba : comp b a = false) (hcb : comp c b = false) : comp c a = false := by
  by_contra hca
  have hca' : comp c a = true := by simpa using hca
  cases hab : comp a b with
  | true => cases (comp_trans hca' hab).symm.trans hcb
  | false => cases (comp_of_comp_of_incomparable hca' ⟨hab, hba⟩).symm.trans hcb

/-- What is before an element is before those that are not before this one. -/
theorem comp_of_comp_of_not_comp (hab : comp a b = true) (hcb : comp c b = false) :
    comp a c = true := by
  cases hbc : comp b c with
  | true => exact comp_trans hab hbc
  | false => exact comp_of_comp_of_incomparable hab ⟨hbc, hcb⟩

/-- The elements of a sorted list that are before `k` come first. What an element stands for in the
order is said by `el`. -/
theorem Partitioned.of_sorted {β : Type*} (el : β → α) {l : List β}
    (h : l.Pairwise fun x y => comp (el y) (el x) = false) (k : α) :
    Partitioned (fun x => comp (el x) k) l := by
  apply h.imp
  intro x y hyx hy
  by_contra hx
  have hy' : comp (el y) k = false := not_comp_trans (by simpa using hx) hyx
  cases hy.symm.trans hy'

/-- The equivalence of the order. -/
def equivalence (comp : α → α → Bool) [IsStrictWeakOrder α fun a b => comp a b = true] :
    Setoid α where
  r := Incomparable comp
  iseqv := ⟨.refl, .symm, .trans⟩

instance decidableEquivalence : DecidableRel (equivalence comp).r :=
  fun a b => inferInstanceAs (Decidable (Incomparable comp a b))

omit [IsStrictWeakOrder α fun a b => comp a b = true] in
/-- A test that compares images. -/
theorem strictWeakOrder_of_lt {β : Type*} [LinearOrder β] (f : α → β)
    (h : ∀ a b, comp a b = true ↔ f a < f b) : IsStrictWeakOrder α fun a b => comp a b = true := by
  have heq : (fun a b => comp a b = true) = fun a b => f a < f b := by
    funext a b
    exact propext (h a b)
  rw [heq]
  have hlt : IsStrictWeakOrder β (· < ·) := isStrictWeakOrder_of_isOrderConnected
  exact inferInstanceAs (IsStrictWeakOrder α (Order.Preimage f (· < ·)))

end Arcana.Foundations
