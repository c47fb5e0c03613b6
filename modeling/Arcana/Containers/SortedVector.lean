import Mathlib.Data.List.Sort
import Mathlib.Data.Multiset.AddSub
import Arcana.Containers.UniqueVector

/-!
# Sorted vectors as multisets

The calls on any number of sorted vectors that can be merged into each other. `insert` puts an
element at the partition point, `merge` appends the elements of the other vector and merges the two
parts in place, and `insert_presorted` only appends, under its assertions. All of them keep the
contents sorted, and the multiset of the elements is the one that the same operations make of a
multiset.

The one exception is `merge` of a vector into itself: it inserts a range of the vector's own
elements, which `vector::insert` does not allow. What becomes of it is up to the library and the
capacity (`Storage`): without room for the copies, the elements may be moved to new storage before
the range is copied, so that what the moves left of them is copied.

* `SortedVector.insert`, `insertRange`, `insertPresortedRange`, `insertPresorted`, `erase`,
  `eraseRange`, `merge`: the functions of the source.
* `SortedVectors`: the vectors, and the multisets that the same operations make.
* `SortedVectors.Keeps`: no call copies what a move left of an element.
* `SortedVector.sorted_call`: a call keeps its vector sorted, and does to the elements what it does
  to a multiset.
* `SortedVectors.stays_sorted`: the same for runs, and that the condition is exact.
-/

namespace Arcana.Containers

open Foundations

variable {α : Type*}

/-- What a caller does with its sorted vectors, each of which is named by a number. A range is given
by its values; it is not one of the vector's own. The caller's iterators are positions. -/
inductive SortedAction (α : Type*)
  -- the default constructor, or one that takes elements
  | construct (i : ℕ) (elements : List α)
  -- a copy of `j`; when `i` is made by a move, `j` is cleared next
  | copy (i j : ℕ)
  | insert (i : ℕ) (val : α)
  | insertRange (i : ℕ) (elements : List α)
  | insertPresortedRange (i : ℕ) (elements : List α)
  | insertPresorted (i : ℕ) (element : α)
  | erase (i beg : ℕ)
  | eraseRange (i beg fin : ℕ)
  | clear (i : ℕ)
  -- `spare`: the vector has room for the elements of the other one
  | merge (i j : ℕ) (spare : Bool)

/-- The vector that a call is made on. -/
def SortedAction.target : SortedAction α → ℕ
  | .construct i _ | .copy i _ | .insert i _ | .insertRange i _ | .insertPresortedRange i _
  | .insertPresorted i _ | .erase i _ | .eraseRange i _ _ | .clear i | .merge i _ _ => i

/-- What the library does when `vector::insert` needs new storage. -/
structure Storage (α : Type*) where
  /-- It moves the elements there before it copies the range, and not after that. -/
  movesFirst : Bool
  /-- What a move leaves of an element. -/
  moved : α → α

namespace SortedVector

-- `CompareT` and `==`
variable (comp eq : α → α → Bool) (σ : Storage α)

/-- `insert` of a range. The constructors that take elements do this on an empty vector. -/
def insertRange (data elements : List α) : List α := elements.foldl (insert comp) data

/-- `insert_presorted` of a range; there is no result when an assertion fails. -/
def insertPresortedRange (data elements : List α) : Option (List α) :=
  if UniqueVector.isSorted comp elements && data.isEmpty then some (data ++ elements) else none

/-- `insert_presorted` of an element; there is no result when the assertion fails. -/
def insertPresorted (data : List α) (element : α) : Option (List α) :=
  if data.getLast?.all fun back => comp back element || eq back element then
    some (data ++ [element])
  else none

/-- `erase` of an iterator, which has to be dereferenceable. -/
def erase (data : List α) (beg : ℕ) : Option (List α) :=
  if beg < data.length then some (data.eraseIdx beg) else none

/-- `erase` of a range, which has to be one of the vector. -/
def eraseRange (data : List α) (beg fin : ℕ) : Option (List α) :=
  if beg ≤ fin ∧ fin ≤ data.length then some (data.take beg ++ data.drop fin) else none

/-- `std::inplace_merge` of the two parts at `mid`: a stable merge, for parts that are sorted. -/
def inplaceMerge (data : List α) (mid : ℕ) : Option (List α) :=
  if UniqueVector.isSorted comp (data.take mid) && UniqueVector.isSorted comp (data.drop mid) then
    some ((data.take mid).merge (data.drop mid) fun a b => !comp b a)
  else none

/-- `vector::insert` of the elements of `j` at the end of `i`. The vector's own elements are copied
after they were moved away, when the library moves first and there is no room. -/
def insertAtEnd (vectors : ℕ → List α) (i j : ℕ) (spare : Bool) : List α :=
  if i = j ∧ spare = false ∧ σ.movesFirst = true then vectors i ++ (vectors j).map σ.moved
  else vectors i ++ vectors j

/-- `merge`. -/
def merge (vectors : ℕ → List α) (i j : ℕ) (spare : Bool) : Option (List α) :=
  let midIdx := (vectors i).length
  inplaceMerge comp (insertAtEnd σ vectors i j spare) midIdx

/-- What a call makes of the contents of its vector. -/
def call (vectors : ℕ → List α) : SortedAction α → Option (List α)
  | .construct _ elements => some (insertRange comp [] elements)
  | .copy _ j => some (vectors j)
  | .insert i val => some (insert comp (vectors i) val)
  | .insertRange i elements => some (insertRange comp (vectors i) elements)
  | .insertPresortedRange i elements => insertPresortedRange comp (vectors i) elements
  | .insertPresorted i element => insertPresorted comp eq (vectors i) element
  | .erase i beg => erase (vectors i) beg
  | .eraseRange i beg fin => eraseRange (vectors i) beg fin
  | .clear _ => some []
  | .merge i j spare => merge comp σ vectors i j spare

/-! ## The same operations on multisets -/

/-- The elements between two iterators. -/
def between (data : List α) (beg fin : ℕ) : List α := (data.drop beg).take (fin - beg)

open Classical in
/-- The same operation on multisets, where the elements that are erased are those that the iterators
denote. -/
noncomputable def bagCall (vectors : ℕ → List α) (bags : ℕ → Multiset α) :
    SortedAction α → Multiset α
  | .construct _ elements => elements
  | .copy _ j => bags j
  | .insert i val | .insertPresorted i val => val ::ₘ bags i
  | .insertRange i elements | .insertPresortedRange i elements => bags i + elements
  | .erase i beg => bags i - between (vectors i) beg (beg + 1)
  | .eraseRange i beg fin => bags i - between (vectors i) beg fin
  | .clear _ => 0
  | .merge i j _ => bags i + bags j

end SortedVector

/-- The vectors, and the multisets that the same operations make. -/
structure SortedVectors (α : Type*) where
  vectors : ℕ → List α := fun _ => []
  bags : ℕ → Multiset α := fun _ => 0

namespace SortedVectors

variable (comp eq : α → α → Bool) (σ : Storage α)

/-- One call. -/
noncomputable def step (s : SortedVectors α) (a : SortedAction α) : Option (SortedVectors α) :=
  (SortedVector.call comp eq σ s.vectors a).map fun data =>
    { vectors := Function.update s.vectors a.target data
      bags := Function.update s.bags a.target (SortedVector.bagCall s.vectors s.bags a) }

/-- The caller keeps the assertions and passes iterators of the vector. -/
def Permits (s : SortedVectors α) : SortedAction α → Prop
  | .insertPresortedRange i elements =>
    s.vectors i = [] ∧ elements.IsChain fun a b => comp b a = false
  | .insertPresorted i element =>
    ∀ back ∈ (s.vectors i).getLast?, comp back element = true ∨ eq back element = true
  | .erase i beg => beg < (s.vectors i).length
  | .eraseRange i beg fin => beg ≤ fin ∧ fin ≤ (s.vectors i).length
  | _ => True

/-- A vector is merged into itself only when there is room for the copies, when the library copies
first, or when a move leaves the elements as they are. -/
def Keeps (s : SortedVectors α) : SortedAction α → Prop
  | .merge i j spare =>
    i = j → spare = true ∨ σ.movesFirst = false ∨ ∀ x ∈ s.vectors i, σ.moved x = x
  | _ => True

end SortedVectors

namespace SortedVector

open UniqueVector (Equivalent isSorted isSorted_iff)

variable {comp eq : α → α → Bool} {σ : Storage α}

/-- No element is before one that precedes it. -/
def Sorted (comp : α → α → Bool) (data : List α) : Prop := data.Pairwise fun a b => comp b a = false

section order

variable [IsStrictWeakOrder α fun a b => comp a b = true] {data l₁ l₂ : List α} {val : α}

/-- What a sorted range is for `std::is_sorted`, which looks at neighbours only. -/
theorem isSorted_iff_sorted : isSorted comp data = true ↔ Sorted comp data := by
  have : IsTrans α fun a b => comp b a = false := ⟨fun _ _ _ => not_comp_trans⟩
  exact isSorted_iff.trans List.isChain_iff_pairwise

/-! ## Insertions -/

/-- The contents before the partition point, and those from it on. -/
theorem Sorted.split (h : Sorted comp data) (val : α) :
    ∃ l₁ l₂, data = l₁ ++ l₂ ∧ (∀ y ∈ l₁, comp y val = true) ∧ (∀ y ∈ l₂, comp y val = false) ∧
      partitionPoint comp data val = l₁.length := by
  exact (Partitioned.of_sorted (fun x => x) h val).split

/-- **An insertion keeps the contents sorted**, and adds the element. -/
theorem Sorted.insert (h : Sorted comp data) (val : α) :
    Sorted comp (insert comp data val) ∧ (insert comp data val).Perm (val :: data) := by
  obtain ⟨l₁, l₂, rfl, h₁, h₂, hpart⟩ := h.split val
  obtain ⟨hl₁, hl₂, h₁₂⟩ := List.pairwise_append.1 h
  rw [SortedVector.insert, hpart, insertIdx_append]
  refine ⟨List.pairwise_append.2 ⟨hl₁, List.pairwise_cons.2 ⟨h₂, hl₂⟩, fun y hy b hb => ?_⟩,
    List.perm_middle⟩
  rcases List.mem_cons.1 hb with rfl | hb
  · exact not_comp_of_comp (h₁ y hy)
  · exact h₁₂ y hy b hb

theorem Sorted.insertRange (h : Sorted comp data) (elements : List α) :
    Sorted comp (insertRange comp data elements) ∧
      (insertRange comp data elements).Perm (data ++ elements) := by
  induction elements generalizing data with
  | nil => exact ⟨h, by simp [SortedVector.insertRange]⟩
  | cons val elements ih =>
    obtain ⟨hsorted, hperm⟩ := h.insert val
    obtain ⟨hsorted', hperm'⟩ := ih hsorted
    refine ⟨hsorted', hperm'.trans ?_⟩
    calc (SortedVector.insert comp data val ++ elements).Perm ((val :: data) ++ elements) :=
          hperm.append_right elements
      _ |>.Perm (data ++ val :: elements) := List.perm_middle.symm

/-- An element that is not before the last one goes to the end. -/
theorem Sorted.concat (h : Sorted comp data)
    (hlast : ∀ back ∈ data.getLast?, comp val back = false) : Sorted comp (data ++ [val]) :=
  pairwise_concat not_comp_trans h hlast

/-! ## Merging -/

/-- The stable merge of two sorted parts is sorted, and loses nothing. -/
theorem Sorted.merge (h₁ : Sorted comp l₁) (h₂ : Sorted comp l₂) :
    Sorted comp (l₁.merge l₂ fun a b => !comp b a) := by
  have trans (a b c : α) (hab : (!comp b a) = true) (hbc : (!comp c b) = true) :
      (!comp c a) = true := by
    have hca : comp c a = false := not_comp_trans (by simpa using hab) (by simpa using hbc)
    simp [hca]
  have total (a b : α) : ((!comp b a) || !comp a b) = true := by
    cases hba : comp b a with
    | false => rfl
    | true => simp [not_comp_of_comp hba]
  have hmerge := List.pairwise_merge trans total l₁ l₂ (h₁.imp fun h => by simp [h])
    (h₂.imp fun h => by simp [h])
  exact hmerge.imp fun h => by simpa using h

theorem inplaceMerge_append (h₁ : Sorted comp l₁) (h₂ : Sorted comp l₂) :
    inplaceMerge comp (l₁ ++ l₂) l₁.length = some (l₁.merge l₂ fun a b => !comp b a) := by
  rw [inplaceMerge, List.take_left, List.drop_left, isSorted_iff_sorted.2 h₁,
    isSorted_iff_sorted.2 h₂]
  rfl

omit [IsStrictWeakOrder α fun a b => comp a b = true] in
/-- The elements of an in-place merge are those that were there. -/
theorem perm_of_inplaceMerge {mid : ℕ} (h : inplaceMerge comp l₁ mid = some l₂) : l₂.Perm l₁ := by
  obtain ⟨-, hmerge⟩ := Option.ite_none_right_eq_some.1 h
  cases hmerge
  refine (List.merge_perm_append _).trans ?_
  rw [List.take_append_drop]

omit [IsStrictWeakOrder α fun a b => comp a b = true] in
theorem insertAtEnd_eq {vectors : ℕ → List α} {i j : ℕ} {spare : Bool}
    (h : i = j → spare = true ∨ σ.movesFirst = false ∨ ∀ x ∈ vectors i, σ.moved x = x) :
    insertAtEnd σ vectors i j spare = vectors i ++ vectors j := by
  rw [insertAtEnd]
  split
  · rename_i hown
    obtain ⟨rfl, hspare, hfirst⟩ := hown
    have hmoved : ∀ x ∈ vectors i, σ.moved x = x := by
      rcases h rfl with h | h | h
      · cases hspare.symm.trans h
      · cases hfirst.symm.trans h
      · exact h
    rw [List.map_congr_left hmoved, List.map_id']
  · rfl

omit [IsStrictWeakOrder α fun a b => comp a b = true] in
/-- What is left of elements that were moved is not what they were, when one of them changed. -/
theorem not_perm_map_moved (idem : ∀ x, σ.moved (σ.moved x) = σ.moved x)
    (h : ¬ ∀ x ∈ data, σ.moved x = x) : ¬ (data.map σ.moved).Perm data := by
  intro hperm
  refine h fun x hx => ?_
  obtain ⟨y, -, rfl⟩ := List.mem_map.1 (hperm.mem_iff.2 hx)
  exact idem y

end order

/-! ## Erasing -/

theorem take_append_between_append_drop (data : List α) {beg fin : ℕ} (h : beg ≤ fin) :
    data.take beg ++ (between data beg fin ++ data.drop fin) = data := by
  have hdrop : data.drop fin = (data.drop beg).drop (fin - beg) := by
    rw [List.drop_drop, Nat.add_sub_cancel' h]
  rw [between, hdrop, List.take_append_drop, List.take_append_drop]

/-- What is left of a sorted vector is sorted. -/
theorem Sorted.eraseRange {data : List α} (h : Sorted comp data) {beg fin : ℕ} (hle : beg ≤ fin) :
    Sorted comp (data.take beg ++ data.drop fin) := by
  refine h.sublist ?_
  conv_rhs => rw [← take_append_between_append_drop data hle]
  exact (List.Sublist.refl _).append (List.sublist_append_right _ _)

open Classical in
theorem coe_eraseRange (data : List α) {beg fin : ℕ} (h : beg ≤ fin) :
    ((data.take beg ++ data.drop fin : List α) : Multiset α) =
      (data : Multiset α) - (between data beg fin : Multiset α) := by
  have hdata : (data : Multiset α) =
      ((data.take beg ++ data.drop fin : List α) : Multiset α) +
      (between data beg fin : Multiset α) := by
    conv_lhs => rw [← take_append_between_append_drop data h]
    simp only [← Multiset.coe_add]
    rw [Multiset.add_assoc, Multiset.add_comm (between data beg fin : Multiset α)]
  rw [hdata]
  exact (Multiset.add_sub_cancel_right).symm

/-! ## Calls -/

section order

variable [IsStrictWeakOrder α fun a b => comp a b = true]

/-- **A call keeps its vector sorted**, and does to the elements what it does to a multiset. -/
theorem sorted_call (refines : ∀ a b, eq a b = true → Equivalent comp a b) {vectors : ℕ → List α}
    {bags : ℕ → Multiset α} (hsorted : ∀ i, Sorted comp (vectors i))
    (hbags : ∀ i, (vectors i : Multiset α) = bags i) {a : SortedAction α} {data : List α}
    (keeps : ∀ i j spare, a = .merge i j spare → i = j → spare = true ∨ σ.movesFirst = false ∨
      ∀ x ∈ vectors i, σ.moved x = x)
    (hcall : call comp eq σ vectors a = some data) :
    Sorted comp data ∧ (data : Multiset α) = bagCall vectors bags a := by
  cases a with
  | construct i elements =>
    cases hcall
    obtain ⟨h, hperm⟩ := Sorted.insertRange (.nil : Sorted comp []) elements
    exact ⟨h, Multiset.coe_eq_coe.2 hperm⟩
  | copy i j =>
    cases hcall
    exact ⟨hsorted j, hbags j⟩
  | insert i val =>
    cases hcall
    obtain ⟨h, hperm⟩ := (hsorted i).insert val
    refine ⟨h, (Multiset.coe_eq_coe.2 hperm).trans ?_⟩
    rw [bagCall, ← hbags i, Multiset.cons_coe]
  | insertRange i elements =>
    cases hcall
    obtain ⟨h, hperm⟩ := (hsorted i).insertRange elements
    refine ⟨h, (Multiset.coe_eq_coe.2 hperm).trans ?_⟩
    rw [bagCall, ← hbags i, Multiset.coe_add]
  | insertPresortedRange i elements =>
    obtain ⟨hassert, hdata⟩ := Option.ite_none_right_eq_some.1 hcall
    obtain ⟨helements, hempty⟩ := Bool.and_eq_true_iff.1 hassert
    have hnil : vectors i = [] := List.isEmpty_iff.1 hempty
    cases hdata
    rw [bagCall, ← hbags i, hnil, Multiset.coe_add]
    exact ⟨isSorted_iff_sorted.1 helements, rfl⟩
  | insertPresorted i element =>
    obtain ⟨hassert, hdata⟩ := Option.ite_none_right_eq_some.1 hcall
    cases hdata
    have hlast : ∀ back ∈ (vectors i).getLast?, comp element back = false := fun back hback => by
      rw [Option.mem_def] at hback
      rw [hback, Option.all_some, Bool.or_eq_true] at hassert
      rcases hassert with hcomp | heq
      · exact not_comp_of_comp hcomp
      · exact (refines back element heq).2
    refine ⟨(hsorted i).concat hlast, ?_⟩
    rw [bagCall, ← hbags i, Multiset.cons_coe]
    exact Multiset.coe_eq_coe.2 (List.perm_append_singleton element (vectors i))
  | erase i beg =>
    obtain ⟨-, hdata⟩ := Option.ite_none_right_eq_some.1 hcall
    cases hdata
    rw [List.eraseIdx_eq_take_drop_succ, bagCall, ← hbags i]
    exact ⟨(hsorted i).eraseRange (Nat.le_succ beg), coe_eraseRange _ (Nat.le_succ beg)⟩
  | eraseRange i beg fin =>
    obtain ⟨⟨hle, -⟩, hdata⟩ := Option.ite_none_right_eq_some.1 hcall
    cases hdata
    rw [bagCall, ← hbags i]
    exact ⟨(hsorted i).eraseRange hle, coe_eraseRange _ hle⟩
  | clear i =>
    cases hcall
    exact ⟨.nil, rfl⟩
  | merge i j spare =>
    rw [call, merge, insertAtEnd_eq (keeps i j spare rfl),
      inplaceMerge_append (hsorted i) (hsorted j)] at hcall
    cases hcall
    refine ⟨(hsorted i).merge (hsorted j), ?_⟩
    rw [bagCall, ← hbags i, ← hbags j, Multiset.coe_add]
    exact Multiset.coe_eq_coe.2 (List.merge_perm_append _)

end order

end SortedVector

namespace SortedVectors

open SortedVector
open UniqueVector (Equivalent byKey byKey_refines)

variable {comp eq : α → α → Bool} {σ : Storage α}
  [IsStrictWeakOrder α fun a b => comp a b = true] {s s' : SortedVectors α}

/-- Every vector is sorted and holds what its multiset does. -/
def Faithful (comp : α → α → Bool) (s : SortedVectors α) : Prop :=
  ∀ i, Sorted comp (s.vectors i) ∧ (s.vectors i : Multiset α) = s.bags i

omit [IsStrictWeakOrder α fun a b => comp a b = true] in
theorem faithful_start : Faithful comp {} := fun _ => ⟨.nil, rfl⟩

theorem faithful_step (refines : ∀ a b, eq a b = true → Equivalent comp a b) (h : s.Faithful comp)
    {a : SortedAction α} (keeps : s.Keeps σ a) (hstep : step comp eq σ s a = some s') :
    s'.Faithful comp := by
  obtain ⟨data, hcall, rfl⟩ := Option.map_eq_some_iff.1 hstep
  intro i
  rcases eq_or_ne i a.target with rfl | hi
  · simp only [Function.update_self]
    refine sorted_call refines (fun i => (h i).1) (fun i => (h i).2) (fun i j spare ha => ?_) hcall
    subst ha
    exact keeps
  · simp only [Function.update_of_ne hi]
    exact h i

/-- A call that the caller may make has a result, when it copies no element that was moved. -/
theorem Faithful.step_ne_none (h : s.Faithful comp) {a : SortedAction α}
    (permits : s.Permits comp eq a) (keeps : s.Keeps σ a) : step comp eq σ s a ≠ none := by
  rw [SortedVectors.step, Ne, Option.map_eq_none_iff]
  cases a with
  | construct | copy | insert | insertRange | clear => simp [call]
  | insertPresortedRange i elements =>
    obtain ⟨hempty, hsorted⟩ := permits
    simp [call, insertPresortedRange, hempty, UniqueVector.isSorted_iff.2 hsorted]
  | insertPresorted i element =>
    have hlast : (s.vectors i).getLast?.all
        (fun back => comp back element || eq back element) = true := by
      simpa [Option.all_eq_true, Permits] using permits
    simp [call, insertPresorted, hlast]
  | erase i beg => simpa [call, SortedVector.erase, Permits] using permits
  | eraseRange i beg fin => simpa [call, SortedVector.eraseRange, Permits] using permits
  | merge i j spare =>
    rw [call, SortedVector.merge, insertAtEnd_eq keeps, inplaceMerge_append (h i).1 (h j).1]
    exact Option.some_ne_none _

omit [IsStrictWeakOrder α fun a b => comp a b = true] in
/-- A call that copies elements that were moved does not double its vector. -/
theorem Faithful.not_faithful_step (idem : ∀ x, σ.moved (σ.moved x) = σ.moved x)
    (h : s.Faithful comp) {a : SortedAction α} (keeps : ¬ s.Keeps σ a)
    (hstep : step comp eq σ s a = some s') : ¬ s'.Faithful comp := by
  cases a with
  | merge i j spare =>
    simp only [Keeps, Classical.not_imp, not_or] at keeps
    obtain ⟨rfl, hspare, hfirst, hmoved⟩ := keeps
    obtain ⟨data, hcall, rfl⟩ := Option.map_eq_some_iff.1 hstep
    intro hafter
    have hown : insertAtEnd σ s.vectors i i spare = s.vectors i ++ (s.vectors i).map σ.moved :=
      if_pos ⟨rfl, by simpa using hspare, by simpa using hfirst⟩
    have hperm : data.Perm (s.vectors i ++ (s.vectors i).map σ.moved) := by
      rw [call, SortedVector.merge, hown] at hcall
      exact perm_of_inplaceMerge hcall
    have hdouble : (data : Multiset α) = s.vectors i + s.vectors i := by
      have hbag := (hafter i).2
      simp only [SortedAction.target, Function.update_self, bagCall] at hbag
      rw [hbag, (h i).2]
    rw [Multiset.coe_add, Multiset.coe_eq_coe] at hdouble
    exact not_perm_map_moved idem hmoved
      ((List.perm_append_left_iff _).1 (hperm.symm.trans hdouble))
  | _ => exact absurd trivial keeps

/-- **Sorted vectors stay sorted and lose nothing as long as no element is copied after it was
moved.** After every run of calls that meet the condition, every vector is sorted and holds the
multiset that the same operations make. And the condition is exact: when moving what a move left
changes nothing, a call whose assertions and iterators are right does to all vectors what it should
exactly when it meets the condition. -/
theorem stays_sorted (refines : ∀ a b, eq a b = true → Equivalent comp a b)
    (h : Reach (step comp eq σ) (fun s a => s.Keeps σ a) {} s) :
    (∀ i, Sorted comp (s.vectors i) ∧ (s.vectors i : Multiset α) = s.bags i) ∧
    (∀ a, s.Permits comp eq a → s.Keeps σ a → step comp eq σ s a ≠ none) ∧
    ((∀ x, σ.moved (σ.moved x) = σ.moved x) → ∀ a, s.Permits comp eq a →
      ((∃ s', step comp eq σ s a = some s' ∧
        ∀ i, Sorted comp (s'.vectors i) ∧ (s'.vectors i : Multiset α) = s'.bags i) ↔
      s.Keeps σ a)) := by
  have hfaithful : s.Faithful comp :=
    h.invariant faithful_start fun _ _ _ h keeps hstep => faithful_step refines h keeps hstep
  refine ⟨hfaithful, fun a permits => hfaithful.step_ne_none permits, fun idem a permits => ?_⟩
  constructor
  · rintro ⟨s', hstep, hafter⟩
    by_contra keeps
    exact hfaithful.not_faithful_step idem keeps hstep hafter
  · intro keeps
    obtain ⟨s', hstep⟩ := Option.ne_none_iff_exists'.1 (hfaithful.step_ne_none permits keeps)
    exact ⟨s', hstep, faithful_step refines hfaithful keeps hstep⟩

/-! ## Two vectors of pairs -/

/-- A library that moves first, and elements that a move leaves as they are. -/
def copying : Storage (ℕ × ℕ) := ⟨true, id⟩

/-- Two vectors that hold equivalent elements are merged, and the result is merged into itself. -/
theorem stays_sorted_pairs : ∃ s : SortedVectors (ℕ × ℕ),
    s.bags 0 = {(1, 0), (2, 0), (1, 1), (1, 0), (2, 0), (1, 1)} ∧ Sorted byKey (s.vectors 0) ∧
      (s.vectors 0 : Multiset (ℕ × ℕ)) = s.bags 0 := by
  have hfirst : Reach (step byKey (· == ·) copying) (fun s a => s.Keeps copying a) {}
      { vectors := Function.update (fun _ => []) 0 [(1, 0), (2, 0)]
        bags := Function.update (fun _ => 0) 0 {(2, 0), (1, 0)} } :=
    .tail (l := SortedAction.construct 0 [(2, 0), (1, 0)]) .refl trivial rfl
  have hsecond := hfirst.tail (l := SortedAction.construct 1 [(1, 1)]) trivial rfl
  obtain ⟨s, hmerge⟩ := Option.ne_none_iff_exists'.1
    ((stays_sorted byKey_refines hsecond).2.1 (.merge 0 1 false) trivial nofun)
  have hthird := hsecond.tail (l := SortedAction.merge 0 1 false) nofun hmerge
  have hkeeps (s : SortedVectors (ℕ × ℕ)) : s.Keeps copying (.merge 0 0 false) :=
    fun _ => .inr (.inr fun _ _ => rfl)
  obtain ⟨s', hown⟩ := Option.ne_none_iff_exists'.1
    ((stays_sorted byKey_refines hthird).2.1 (.merge 0 0 false) trivial (hkeeps s))
  have hfourth := hthird.tail (l := SortedAction.merge 0 0 false) (hkeeps s) hown
  have hbag : s'.bags 0 = {(1, 0), (2, 0), (1, 1), (1, 0), (2, 0), (1, 1)} := by
    obtain ⟨-, -, rfl⟩ := Option.map_eq_some_iff.1 hown
    obtain ⟨-, -, rfl⟩ := Option.map_eq_some_iff.1 hmerge
    change ({(2, 0), (1, 0)} + {(1, 1)} + ({(2, 0), (1, 0)} + {(1, 1)}) : Multiset (ℕ × ℕ)) =
      {(1, 0), (2, 0), (1, 1), (1, 0), (2, 0), (1, 1)}
    decide
  exact ⟨s', hbag, (stays_sorted byKey_refines hfourth).1 0⟩

/-- Strings, which a move leaves empty, and a library that moves first. -/
def strings : Storage (List Char) := ⟨true, fun _ => []⟩

/-- **A vector is not doubled by merging it into itself**: `{ "b", "a" }` without room for the
copies gets two empty strings. -/
theorem not_doubled_by_merge : ¬ ∀ s : SortedVectors (List Char),
    Reach (step (fun a b => a < b) (· == ·) strings) anyStep {} s →
    ∀ a, s.Permits (fun a b => a < b) (· == ·) a →
      ∃ s', step (fun a b => a < b) (· == ·) strings s a = some s' ∧
        ∀ i, Sorted (fun a b => a < b) (s'.vectors i) ∧
          (s'.vectors i : Multiset (List Char)) = s'.bags i := by
  intro hall
  have hfirst : Reach (step (fun a b : List Char => a < b) (· == ·) strings) anyStep {}
      { vectors := Function.update (fun _ => []) 0 [['a'], ['b']]
        bags := Function.update (fun _ => 0) 0 {['b'], ['a']} } :=
    .tail (l := SortedAction.construct 0 [['b'], ['a']]) .refl trivial rfl
  obtain ⟨s', hmerge, hafter⟩ := hall _ hfirst (.merge 0 0 false) trivial
  obtain ⟨data, hcall, rfl⟩ := Option.map_eq_some_iff.1 hmerge
  obtain rfl : data = [[], [], ['a'], ['b']] := by
    have hparts : inplaceMerge (fun a b => a < b) [['a'], ['b'], [], []] 2 =
        some (List.merge [['a'], ['b']] [[], []] fun a b => !decide (b < a)) := by
      rw [inplaceMerge, if_pos (by decide)]
      rfl
    refine Option.some.inj (hcall.symm.trans (hparts.trans ?_))
    simp
  have hbag : (([[], [], ['a'], ['b']] : List (List Char)) : Multiset (List Char)) =
      {['b'], ['a']} + {['b'], ['a']} := (hafter 0).2
  exact absurd hbag (by decide)

end SortedVectors

end Arcana.Containers
