import Mathlib.Algebra.Order.Group.Unbundled.Int
import Mathlib.Data.List.Lex
import Mathlib.Data.UInt
import Arcana.Foundations.WeakOrder

/-!
# The overloads of `string_compare`

`string_compare` has one call operator for each kind of string. That for `span<char>` compares
lexicographically by the values of the characters, and that for `czstring` by the unsigned values of
the bytes up to the first NUL: both are strict weak orders (`span_iff`, `czstring_iff`). That for
`string_view` returns the result of `compare`, which is not 0 when the strings are different, where
the overload next to it tests `< 0`: it says of any two different strings that each is before the
other one (`stringView_iff`). Besides, where `char` is signed the span overload orders the bytes
from `0x80` on before the others.
-/

namespace Arcana.Strings

open Foundations

/-! ## The primitives -/

section terminated

variable {α : Type*} [DecidableEq α] [Zero α]

/-- What a pointer to a string that ends with NUL denotes. -/
def untilNul (input : List α) : List α := input.takeWhile (· ≠ 0)

theorem untilNul_cons (x : α) (input : List α) :
    untilNul (x :: input) = if x = 0 then [] else x :: untilNul input := by
  by_cases h : x = 0
  · simp [untilNul, h]
  · simp [untilNul, h]

theorem untilNul_of_not_mem {input : List α} (h : 0 ∉ input) : untilNul input = input := by
  induction input with
  | nil => rfl
  | cons x input ih =>
    rw [List.mem_cons, not_or] at h
    rw [untilNul_cons, if_neg (Ne.symm h.1), ih h.2]

end terminated

/-- `std::string_view::compare`: bytes are compared as unsigned, then lengths. -/
def compare : List UInt8 → List UInt8 → ℤ
  | [], [] => 0
  | [], _ :: _ => -1
  | _ :: _, [] => 1
  | x :: a, y :: b => if x < y then -1 else if y < x then 1 else compare a b

/-- The value of a `char`. -/
def charValue (signed : Bool) (x : UInt8) : ℤ :=
  if signed && 0x80 ≤ x.toNat then x.toNat - 0x100 else x.toNat

/-- `std::lexicographical_compare`. -/
def lexicographicalCompare (signed : Bool) : List UInt8 → List UInt8 → Bool
  | _, [] => false
  | [], _ :: _ => true
  | x :: a, y :: b =>
    if charValue signed x < charValue signed y then true
    else if charValue signed y < charValue signed x then false
    else lexicographicalCompare signed a b

/-- `strcmp`. A list stands for its bytes and the NUL behind them. -/
def strcmp : List UInt8 → List UInt8 → ℤ
  | [], [] => 0
  | [], y :: _ => if y = 0 then 0 else -1
  | x :: _, [] => if x = 0 then 0 else 1
  | x :: a, y :: b => if x < y then -1 else if y < x then 1 else if x = 0 then 0 else strcmp a b

/-! ## `string_compare` -/

namespace StringCompare

/-- `operator()` on two `std::string_view`. The result of `compare` is converted to `bool`. -/
def stringView (a b : List UInt8) : Bool := compare a b != 0

/-- `operator()` on two `gsl::span<char>`. -/
def span (signed : Bool) (a b : List UInt8) : Bool := lexicographicalCompare signed a b

/-- `operator()` on two `gsl::czstring`. -/
def czstring (a b : List UInt8) : Bool := strcmp a b < 0

end StringCompare

/-- What makes a comparator a strict weak order, for three values. -/
structure Laws {α : Type*} (op : α → α → Bool) (a b c : α) : Prop where
  irrefl : op a a = false
  asymm : op a b = true → op b a = false
  trans : op a b = true → op b c = true → op a c = true
  incomp_trans : Incomparable op a b → Incomparable op b c → Incomparable op a c

theorem laws_of_strictWeakOrder {α : Type*} {op : α → α → Bool}
    [IsStrictWeakOrder α fun a b => op a b = true] (a b c : α) : Laws op a b c where
  irrefl := comp_irrefl a
  asymm := not_comp_of_comp
  trans := comp_trans
  incomp_trans := .trans

namespace StringCompare

/-- The three overloads return the same. -/
def Agree (signed : Bool) (a b : List UInt8) : Prop :=
  stringView a b = span signed a b ∧ span signed a b = czstring a b

variable {signed : Bool} {a b c : List UInt8}

theorem compare_eq_zero_iff : compare a b = 0 ↔ a = b := by
  induction a, b using compare.induct with
  | case1 => simp [compare]
  | case2 => simp [compare]
  | case3 => simp [compare]
  | case4 x a y b h =>
    have hne : x ≠ y := UInt8.ne_of_lt h
    simp [compare, h, hne]
  | case5 x a y b h h' =>
    have hne : x ≠ y := (UInt8.ne_of_lt h').symm
    simp [compare, h, h', hne]
  | case6 x a y b h h' ih =>
    obtain rfl : x = y := UInt8.le_antisymm (UInt8.not_lt.1 h') (UInt8.not_lt.1 h)
    simp [compare, ih]

/-- **The view overload says whether the strings are different.** -/
theorem stringView_iff : stringView a b = true ↔ a ≠ b := by
  rw [stringView, bne_iff_ne, Ne, compare_eq_zero_iff]

/-- **The span overload is the lexicographic order of the values of the characters.** -/
theorem span_iff :
    span signed a b = true ↔ a.map (charValue signed) < b.map (charValue signed) := by
  unfold span
  fun_induction lexicographicalCompare signed a b with
  | case1 a => simp
  | case2 y b => simp
  | case3 x a y b h => simp [List.cons_lt_cons_iff, h]
  | case4 x a y b h h' =>
    have hne : charValue signed x ≠ charValue signed y := ne_of_gt h'
    simp [List.cons_lt_cons_iff, h, hne]
  | case5 x a y b h h' ih =>
    have heq : charValue signed x = charValue signed y := le_antisymm (not_lt.1 h') (not_lt.1 h)
    simp [heq, ih]

theorem compare_neg_iff : compare a b < 0 ↔ a.map UInt8.toNat < b.map UInt8.toNat := by
  induction a, b using compare.induct with
  | case1 => simp [compare]
  | case2 => simp [compare]
  | case3 => simp [compare]
  | case4 x a y b h => simp [compare, List.cons_lt_cons_iff, h, UInt8.lt_iff_toNat_lt.1 h]
  | case5 x a y b h h' =>
    have hlt := UInt8.lt_iff_toNat_lt.1 h'
    have hne : x.toNat ≠ y.toNat := ne_of_gt hlt
    simp [compare, List.cons_lt_cons_iff, h, h', hne, lt_asymm hlt]
  | case6 x a y b h h' ih =>
    obtain rfl : x = y := UInt8.le_antisymm (UInt8.not_lt.1 h') (UInt8.not_lt.1 h)
    simp [compare, ih]

/-- `strcmp` compares what is before the first NUL. -/
theorem strcmp_eq : strcmp a b = compare (untilNul a) (untilNul b) := by
  induction a generalizing b with
  | nil =>
    cases b with
    | nil => rfl
    | cons y b =>
      rw [untilNul_cons, strcmp]
      split_ifs
      · rfl
      · rfl
  | cons x a ih =>
    rw [untilNul_cons]
    cases b with
    | nil =>
      rw [strcmp]
      split_ifs
      · rfl
      · rfl
    | cons y b =>
      rw [untilNul_cons, strcmp, ih]
      by_cases hx : x = 0
      · by_cases hy : y = 0
        · simp [hx, hy, compare]
        · have hlt : (0 : UInt8) < y := UInt8.pos_iff_ne_zero.2 hy
          simp [hx, hy, hlt, compare]
      · by_cases hy : y = 0
        · have hlt : (0 : UInt8) < x := UInt8.pos_iff_ne_zero.2 hx
          simp [hx, hy, hlt, compare]
        · simp [hx, hy, compare]

/-- **The overload for C strings is the lexicographic order of the bytes before the NUL.** -/
theorem czstring_iff : czstring a b = true ↔
    (untilNul a).map UInt8.toNat < (untilNul b).map UInt8.toNat := by
  rw [czstring, decide_eq_true_iff, strcmp_eq, compare_neg_iff]

/-- **The overloads for spans and C strings are strict weak orders.** -/
theorem span_strictWeakOrder : IsStrictWeakOrder (List UInt8) fun a b => span signed a b = true :=
  strictWeakOrder_of_lt (List.map (charValue signed)) fun _ _ => span_iff

theorem czstring_strictWeakOrder : IsStrictWeakOrder (List UInt8) fun a b => czstring a b = true :=
  strictWeakOrder_of_lt (fun a => (untilNul a).map UInt8.toNat) fun _ _ => czstring_iff

/-- **The view overload is none, except on equal strings.** -/
theorem laws_stringView_iff : Laws stringView a b c ↔ a = b := by
  have heq {a b : List UInt8} : stringView a b = false ↔ a = b := by
    rw [← Bool.not_eq_true, stringView_iff, not_not]
  constructor
  · intro h
    by_contra hne
    have hba := heq.1 (h.asymm (stringView_iff.2 hne))
    exact hne hba.symm
  · rintro rfl
    have hself : stringView a a = false := heq.2 rfl
    refine ⟨hself, fun h => ?_, fun h => ?_, fun _ h => h⟩
    · cases h.symm.trans hself
    · cases h.symm.trans hself

/-- **On strings without NUL the overloads agree exactly when the strings are equal, or one is
before the other by its bytes and by its characters.** -/
theorem overloads_agree_iff (ha : 0 ∉ a) (hb : 0 ∉ b) : Agree signed a b ↔
    a = b ∨ a.map UInt8.toNat < b.map UInt8.toNat ∧
    a.map (charValue signed) < b.map (charValue signed) := by
  have hview : stringView a b = true ↔ a ≠ b := stringView_iff
  have hspan : span signed a b = true ↔ _ := span_iff
  have hcz : czstring a b = true ↔ _ := czstring_iff
  rw [untilNul_of_not_mem ha, untilNul_of_not_mem hb] at hcz
  rw [← hcz, ← hspan, Agree]
  by_cases heq : a = b
  · subst heq
    have hview' : stringView a a = false := by
      rw [← Bool.not_eq_true, hview, not_not]
    have hspan' : span signed a a = false := by
      rw [← Bool.not_eq_true, hspan]
      exact lt_irrefl _
    have hcz' : czstring a a = false := by
      rw [← Bool.not_eq_true, hcz]
      exact lt_irrefl _
    exact iff_of_true ⟨hview'.trans hspan'.symm, hspan'.trans hcz'.symm⟩ (.inl rfl)
  · rw [hview.2 heq]
    constructor
    · rintro ⟨h, h'⟩
      exact .inr ⟨(h.trans h').symm, h.symm⟩
    · rintro (h | ⟨h, h'⟩)
      · exact absurd h heq
      · exact ⟨h'.symm, h'.trans h.symm⟩

/-- **`string_compare` is a strict weak order with overloads that agree on equal strings only.** The
overloads for spans and C strings are strict weak orders on all strings, and on strings without NUL
the three return the same exactly when the strings are equal or the first one is before the second
one both by the unsigned bytes and by the characters. -/
theorem string_compare_iff (signed : Bool) (a b c : List UInt8) :
    (Laws stringView a b c ∧ Laws (span signed) a b c ∧ Laws czstring a b c ∧
        (0 ∉ a → 0 ∉ b → Agree signed a b) ↔ a = b) ∧
      Laws (span signed) a b c ∧ Laws czstring a b c ∧
      (0 ∉ a → 0 ∉ b → (Agree signed a b ↔ a = b ∨
        a.map UInt8.toNat < b.map UInt8.toNat ∧
        a.map (charValue signed) < b.map (charValue signed))) := by
  have hspan := @span_strictWeakOrder signed
  have hcz := czstring_strictWeakOrder
  have hlaws : Laws (span signed) a b c := laws_of_strictWeakOrder a b c
  have hlaws' : Laws czstring a b c := laws_of_strictWeakOrder a b c
  refine ⟨⟨fun h => laws_stringView_iff.1 h.1, fun heq => ?_⟩, hlaws, hlaws', overloads_agree_iff⟩
  exact ⟨laws_stringView_iff.2 heq, hlaws, hlaws',
    fun ha hb => (overloads_agree_iff ha hb).2 (.inl heq)⟩

/-- **Of "a" and "b" each is before the other one**, as views but not as spans. And where `char` is
signed "a" and a byte above `0x7F` are ordered one way as C strings, and the other way as spans. -/
theorem not_string_compare : ¬ Laws stringView [0x61] [0x62] [0x61] ∧ ¬ Agree false [0x62] [0x61] ∧
    czstring [0x61] [0x80] = true ∧ span true [0x61] [0x80] = false := by
  refine ⟨fun h => ?_, by unfold Agree; decide, by decide, by decide⟩
  have hba : stringView [0x62] [0x61] = false := h.asymm (by decide)
  revert hba
  decide

end StringCompare

end Arcana.Strings
