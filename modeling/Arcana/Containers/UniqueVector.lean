import Mathlib.Data.List.Destutter
import Arcana.Foundations.WeakOrder
import Arcana.Containers.TicketedCollection

/-!
# Unique vectors

`unique_vector` is meant to be a `std::set` over a vector. It looks for an element with the
comparator but decides with `==` whether it is the one that it found, and `merge` uses the
comparator only. So it does what a set does as long as the two agree: an element that is inserted
has to be `==` to every element of the contents that it is equivalent to (`ascending_insert_iff`,
`insert_snd_iff`).

Besides, `insert_presorted` of a range asserts the iterator that `std::unique` returns, which is
true of every range, so that neighbours that are equivalent pass. With `NDEBUG` the range is
inserted as it is. Otherwise `std::unique` rewrites it first: it moves the elements that it keeps to
the front, and what it leaves in the places behind them is inserted with them.

* `UniqueVector.find`, `insert`, `insertRange`, `insertPresortedRange`, `insertPresorted`, `merge`:
  the functions of the source. The other assertions are conditions of a call in both builds.
* `UniqueVector.Admits`: what a call has to satisfy, so that the vector stays a set.
* `UniqueVector.ascending_step_iff`: what a call leaves is ascending exactly when it is admitted.
* `UniqueVector.behaves_as_set`: a vector whose calls are admitted behaves as a set.
-/

namespace Arcana.Containers

open Foundations

variable {α : Type*}

namespace UniqueVector

-- `CompareT` and `==`
variable (comp eq : α → α → Bool)

/-- `find`: an index, or `none` for `end()`. -/
def find (data : List α) (element : α) : Option ℕ :=
  let part := SortedVector.partitionPoint comp data element
  match data[part]? with
  | none => none
  | some x => if !eq x element then none else some part

/-- `insert`, with what it returns. -/
def insert (data : List α) (val : α) : List α × Bool :=
  let partition := SortedVector.partitionPoint comp data val
  match data[partition]? with
  | none => (data.insertIdx partition val, true)
  | some x => if !eq x val then (data.insertIdx partition val, true) else (data, false)

/-- `insert` of a range. The constructors that take elements do this on an empty vector. -/
def insertRange (data vals : List α) : List α :=
  vals.foldl (fun data val => (insert comp eq data val).1) data

/-- `std::is_sorted`. -/
def isSorted : List α → Bool
  | a :: b :: l => !comp b a && isSorted (b :: l)
  | _ => true

/-- What `std::unique` keeps: an element that is `==` to the last one that it kept goes. -/
def unique (vals : List α) : List α := vals.destutter fun a b => eq a b = false

/-- `insert_presorted` of a range; there is no result when an assertion fails. When assertions are
evaluated, `assert(std::unique(beg, end))` rewrites the range: `left` is what is in the places
behind the elements that are kept, of which nothing is specified. -/
def insertPresortedRange (ndebug : Bool) (data vals left : List α) : Option (List α) :=
  if isSorted comp vals && data.isEmpty then
    if ndebug then some (data ++ vals)
    else if (unique eq vals).length + left.length = vals.length then
      some (data ++ (unique eq vals ++ left))
    else none
  else none

/-- `insert_presorted` of an element; there is no result when the assertion fails. -/
def insertPresorted (data : List α) (element : α) : Option (List α) :=
  if data.getLast?.all (comp · element) then some (data ++ [element]) else none

/-- `std::set_union`. -/
def setUnion : List α → List α → List α
  | [], l₂ => l₂
  | l₁, [] => l₁
  | x :: l₁, y :: l₂ =>
    if comp y x then y :: setUnion (x :: l₁) l₂
    else if comp x y then x :: setUnion l₁ (y :: l₂)
    else x :: setUnion l₁ l₂
  termination_by l₁ l₂ => l₁.length + l₂.length

/-- `merge`. -/
def merge (data other : List α) : List α := setUnion comp data other

end UniqueVector

/-- What a caller does with a unique vector. -/
inductive UniqueAction (α : Type*)
  | insert (val : α)
  | insertRange (vals : List α)
  -- with what `std::unique` leaves behind the elements that it keeps
  | insertPresortedRange (vals left : List α)
  | insertPresorted (element : α)
  | merge (other : List α)

/-- The same call, in which `std::unique` leaves something else. -/
def UniqueAction.leaving (left : List α) : UniqueAction α → UniqueAction α
  | .insertPresortedRange vals _ => .insertPresortedRange vals left
  | a => a

namespace UniqueVector

variable (comp eq : α → α → Bool) (ndebug : Bool)

/-- The contents after a call. -/
def step (data : List α) : UniqueAction α → Option (List α)
  | .insert val => some (insert comp eq data val).1
  | .insertRange vals => some (insertRange comp eq data vals)
  | .insertPresortedRange vals left => insertPresortedRange comp eq ndebug data vals left
  | .insertPresorted element => insertPresorted comp data element
  | .merge other => some (merge comp data other)

/-- The contents of a vector that is constructed and used by calls that satisfy `ok`; a vector that
is merged into another one is one of them. -/
inductive Reached (ok : List α → UniqueAction α → Prop) : List α → Prop
  | construct : Reached ok []
  | call {data data' : List α} {a : UniqueAction α} : Reached ok data →
      (∀ other, a = .merge other → Reached ok other) → ok data a →
      step comp eq ndebug data a = some data' → Reached ok data'

/-- Neither element is before the other one. -/
def Equivalent (a b : α) : Prop := comp a b = false ∧ comp b a = false

instance (a b : α) : Decidable (Equivalent comp a b) := inferInstanceAs (Decidable (_ ∧ _))

/-- Strictly ascending: no two elements are equivalent. -/
def Ascending (l : List α) : Prop := l.Pairwise fun a b => comp a b = true

/-- The comparator and `==` agree on the value and the contents. -/
def Agrees (data : List α) (val : α) : Prop := ∀ y ∈ data, Equivalent comp y val → eq y val = true

instance (data : List α) (val : α) : Decidable (Agrees comp eq data val) :=
  inferInstanceAs (Decidable (∀ y ∈ data, _ → _))

/-- They agree on every value of the range when its turn comes. -/
def AgreesAll : List α → List α → Prop
  | _, [] => True
  | data, val :: vals => Agrees comp eq data val ∧ AgreesAll (insert comp eq data val).1 vals

/-- The calls that keep a unique vector a set. -/
def Admits (data : List α) : UniqueAction α → Prop
  | .insert val => Agrees comp eq data val
  | .insertRange vals => AgreesAll comp eq data vals
  | .insertPresortedRange vals _ => vals.IsChain fun a b => ¬ Equivalent comp a b
  | .insertPresorted _ | .merge _ => True

/-! ## What a search finds -/

section order

variable {comp eq} [IsStrictWeakOrder α fun a b => comp a b = true] {data l₁ l₂ : List α}
  {val x : α}

/-- The contents before the partition point, and those from it on. -/
theorem Ascending.split (h : Ascending comp data) (val : α) :
    ∃ l₁ l₂, data = l₁ ++ l₂ ∧ (∀ y ∈ l₁, comp y val = true) ∧ (∀ y ∈ l₂, comp y val = false) ∧
      SortedVector.partitionPoint comp data val = l₁.length := by
  have hsorted : data.Pairwise fun a b => comp b a = false := h.imp not_comp_of_comp
  exact (Partitioned.of_sorted (fun x => x) hsorted val).split

/-- The only element that can be equivalent to the value is the one at the partition point. -/
theorem Ascending.eq_of_equivalent (h : Ascending comp (l₁ ++ x :: l₂))
    (h₁ : ∀ y ∈ l₁, comp y val = true) (hx : comp x val = false) {y : α} (hy : y ∈ l₁ ++ x :: l₂)
    (heq : Equivalent comp y val) : y = x := by
  rcases List.mem_append.1 hy with hy | hy
  · cases (h₁ y hy).symm.trans heq.1
  · rcases List.mem_cons.1 hy with rfl | hy
    · rfl
    · have hxy : comp x y = true :=
        (List.pairwise_cons.1 (List.pairwise_append.1 h).2.1).1 y hy
      cases (comp_of_comp_of_incomparable hxy heq).symm.trans hx

/-- **`find` finds what is `==` to the element**, when `==` refines the equivalence. -/
theorem find_ne_none_iff (refines : ∀ a b, eq a b = true → Equivalent comp a b)
    (h : Ascending comp data) : find comp eq data val ≠ none ↔ ∃ y ∈ data, eq y val = true := by
  obtain ⟨l₁, l₂, rfl, h₁, h₂, hpart⟩ := h.split val
  rw [find, hpart]
  cases l₂ with
  | nil =>
    have hnone : ∀ y ∈ l₁, eq y val = false := fun y hy => by
      by_contra heq
      cases (h₁ y hy).symm.trans (refines y val (by simpa using heq)).1
    rw [List.append_nil, List.getElem?_eq_none le_rfl]
    simpa using hnone
  | cons x l₃ =>
    rw [getElem?_append_cons]
    cases hx : eq x val with
    | true =>
      have hmem : ∃ y ∈ l₁ ++ x :: l₃, eq y val = true := ⟨x, by simp, hx⟩
      simpa [hx] using hmem
    | false =>
      have hnone : ∀ y ∈ l₁ ++ x :: l₃, eq y val ≠ true := fun y hy heq => by
        obtain rfl := h.eq_of_equivalent h₁ (h₂ x (.head _)) hy (refines y val heq)
        cases hx.symm.trans heq
      simpa [hx] using hnone

/-! ## What an insertion does -/

/-- An element goes to the end, or it is compared with the first one that is not before it: no other
one can be equivalent to it. -/
theorem insert_cases (eq : α → α → Bool) (h : Ascending comp data) (val : α) :
    (∀ y ∈ data, comp y val = true) ∧ insert comp eq data val = (data ++ [val], true) ∨
      ∃ l₁ x l₂, data = l₁ ++ x :: l₂ ∧ (∀ y ∈ l₁, comp y val = true) ∧ comp x val = false ∧
        (∀ y ∈ data, Equivalent comp y val → y = x) ∧
        insert comp eq data val =
          if eq x val then (data, false) else (l₁ ++ val :: x :: l₂, true) := by
  obtain ⟨l₁, l₂, rfl, h₁, h₂, hpart⟩ := h.split val
  rw [insert, hpart]
  cases l₂ with
  | nil =>
    left
    rw [List.append_nil, List.getElem?_eq_none le_rfl, List.insertIdx_length_self]
    exact ⟨h₁, rfl⟩
  | cons x l₂ =>
    right
    have hx := h₂ x (.head _)
    refine ⟨l₁, x, l₂, rfl, h₁, hx, fun y hy => h.eq_of_equivalent h₁ hx hy, ?_⟩
    rw [getElem?_append_cons, insertIdx_append]
    change (if !eq x val then _ else _) = _
    cases eq x val with
    | true => rfl
    | false => rfl

/-- **An insertion keeps the contents ascending exactly when the comparator and `==` agree.** -/
theorem ascending_insert_iff (h : Ascending comp data) :
    Ascending comp (insert comp eq data val).1 ↔ Agrees comp eq data val := by
  rcases insert_cases eq h val with ⟨hall, hinsert⟩ | ⟨l₁, x, l₂, rfl, h₁, hx, only, hinsert⟩
  · rw [hinsert]
    refine iff_of_true ?_ fun y hy heq => ?_
    · exact List.pairwise_append.2 ⟨h, List.pairwise_singleton _ _,
        fun y hy b hb => List.mem_singleton.1 hb ▸ hall y hy⟩
    · cases (hall y hy).symm.trans heq.1
  · rw [hinsert]
    cases heq : eq x val with
    | true => exact iff_of_true h fun y hy hequiv => only y hy hequiv ▸ heq
    | false =>
      change Ascending comp (l₁ ++ val :: x :: l₂) ↔ _
      obtain ⟨hl₁, hl₂, h₁₂⟩ := List.pairwise_append.1 h
      constructor
      · intro hasc y hy hequiv
        obtain rfl := only y hy hequiv
        have hval : comp val y = true :=
          (List.pairwise_cons.1 (List.pairwise_append.1 hasc).2.1).1 y (.head _)
        cases hval.symm.trans hequiv.2
      · intro hagrees
        have hval : comp val x = true := by
          by_contra hval
          have hequiv := hagrees x (by simp) ⟨hx, by simpa using hval⟩
          cases heq.symm.trans hequiv
        have after : ∀ y ∈ x :: l₂, comp val y = true := List.forall_mem_cons.2
          ⟨hval, fun y hy => comp_trans hval ((List.pairwise_cons.1 hl₂).1 y hy)⟩
        exact List.pairwise_append.2 ⟨hl₁, List.pairwise_cons.2 ⟨after, hl₂⟩, fun y hy b hb =>
          (List.mem_cons.1 hb).elim (fun e => e ▸ h₁ y hy) (h₁₂ y hy b)⟩

/-- **And that is when it returns whether an equivalent element was absent.** -/
theorem insert_snd_iff (refines : ∀ a b, eq a b = true → Equivalent comp a b)
    (h : Ascending comp data) :
    ((insert comp eq data val).2 = true ↔ ∀ y ∈ data, ¬ Equivalent comp y val) ↔
      Agrees comp eq data val := by
  rcases insert_cases eq h val with ⟨hall, hinsert⟩ | ⟨l₁, x, l₂, rfl, -, -, only, hinsert⟩
  · have hnone : ∀ y ∈ data, ¬ Equivalent comp y val := fun y hy heq => by
      cases (hall y hy).symm.trans heq.1
    rw [hinsert]
    exact iff_of_true (iff_of_true rfl hnone) fun y hy heq => absurd heq (hnone y hy)
  · rw [hinsert]
    cases heq : eq x val with
    | true =>
      refine iff_of_true (iff_of_false nofun fun hnone => ?_) fun y hy hequiv =>
        only y hy hequiv ▸ heq
      exact hnone x (by simp) (refines x val heq)
    | false =>
      simp only [Bool.false_eq_true, if_false, true_iff]
      constructor
      · exact fun hnone y hy hequiv => absurd hequiv (hnone y hy)
      · intro hagrees y hy hequiv
        have htrue := hagrees y hy hequiv
        obtain rfl := only y hy hequiv
        cases heq.symm.trans htrue

/-! ## Ranges and presorted elements -/

omit [IsStrictWeakOrder α fun a b => comp a b = true] in
/-- What was there stays there. -/
theorem sublist_insert (data : List α) (val : α) :
    data.Sublist (insert comp eq data val).1 := by
  rw [insert]
  split
  · exact List.sublist_insertIdx ..
  · split
    · exact List.sublist_insertIdx ..
    · exact .refl _

omit [IsStrictWeakOrder α fun a b => comp a b = true] in
theorem sublist_insertRange (data vals : List α) :
    data.Sublist (insertRange comp eq data vals) := by
  induction vals generalizing data with
  | nil => exact .refl _
  | cons val vals ih => exact (sublist_insert data val).trans (ih _)

/-- An insertion that spoils the order spoils it for good. -/
theorem ascending_insertRange_iff {vals : List α} (h : Ascending comp data) :
    Ascending comp (insertRange comp eq data vals) ↔ AgreesAll comp eq data vals := by
  induction vals generalizing data with
  | nil => exact iff_of_true h trivial
  | cons val vals ih =>
    constructor
    · intro hasc
      have hinsert : Ascending comp (insert comp eq data val).1 :=
        hasc.sublist (sublist_insertRange _ vals)
      exact ⟨(ascending_insert_iff h).1 hinsert, (ih hinsert).1 hasc⟩
    · rintro ⟨hval, hvals⟩
      exact (ih ((ascending_insert_iff h).2 hval)).2 hvals

omit [IsStrictWeakOrder α fun a b => comp a b = true] in
theorem isSorted_iff {vals : List α} :
    isSorted comp vals = true ↔ vals.IsChain fun a b => comp b a = false := by
  induction vals with
  | nil => simp [isSorted]
  | cons a vals ih =>
    cases vals with
    | nil => simp [isSorted]
    | cons b vals => simp [isSorted, ih, List.isChain_cons_cons]

/-- A sorted range is strictly ascending when no two neighbours are equivalent. -/
theorem ascending_iff_of_isSorted {vals : List α} (h : isSorted comp vals = true) :
    Ascending comp vals ↔ vals.IsChain fun a b => ¬ Equivalent comp a b := by
  rw [Ascending, ← List.isChain_iff_pairwise]
  have hsorted := isSorted_iff.1 h
  induction hsorted with
  | nil => simp
  | singleton => simp
  | cons_cons hba hchain ih =>
    rename_i a b vals
    rw [List.isChain_cons_cons, List.isChain_cons_cons]
    exact and_congr (by simp [Equivalent, hba]) (ih (isSorted_iff.2 hchain))

/-- The last element is the largest one. -/
theorem Ascending.concat (h : Ascending comp data) (hlast : data.getLast?.all (comp · val) = true) :
    Ascending comp (data ++ [val]) := by
  refine pairwise_concat comp_trans h fun back hback => ?_
  rw [Option.mem_def] at hback
  rwa [hback, Option.all_some] at hlast

/-! ## Merging -/

omit [IsStrictWeakOrder α fun a b => comp a b = true] in
theorem mem_setUnion : x ∈ setUnion comp l₁ l₂ → x ∈ l₁ ∨ x ∈ l₂ := by
  fun_induction setUnion comp l₁ l₂ with
  | case1 => exact .inr
  | case2 => exact .inl
  | case3 => grind
  | case4 => grind
  | case5 => grind

theorem Ascending.setUnion (h₁ : Ascending comp l₁) (h₂ : Ascending comp l₂) :
    Ascending comp (setUnion comp l₁ l₂) := by
  fun_induction UniqueVector.setUnion comp l₁ l₂ with
  | case1 => exact h₂
  | case2 => exact h₁
  | case3 a l₁ b l₂ hba ih =>
    obtain ⟨ha, -⟩ := List.pairwise_cons.1 h₁
    obtain ⟨hb, hl₂⟩ := List.pairwise_cons.1 h₂
    refine List.pairwise_cons.2 ⟨fun z hz => ?_, ih h₁ hl₂⟩
    rcases mem_setUnion hz with hz | hz
    · rcases List.mem_cons.1 hz with rfl | hz
      · exact hba
      · exact comp_trans hba (ha z hz)
    · exact hb z hz
  | case4 a l₁ b l₂ _ hab ih =>
    obtain ⟨ha, hl₁⟩ := List.pairwise_cons.1 h₁
    obtain ⟨hb, -⟩ := List.pairwise_cons.1 h₂
    refine List.pairwise_cons.2 ⟨fun z hz => ?_, ih hl₁ h₂⟩
    rcases mem_setUnion hz with hz | hz
    · exact ha z hz
    · rcases List.mem_cons.1 hz with rfl | hz
      · exact hab
      · exact comp_trans hab (hb z hz)
  | case5 a l₁ b l₂ hba hab ih =>
    obtain ⟨ha, hl₁⟩ := List.pairwise_cons.1 h₁
    obtain ⟨hb, hl₂⟩ := List.pairwise_cons.1 h₂
    have hequiv : Equivalent comp a b := ⟨by simpa using hab, by simpa using hba⟩
    refine List.pairwise_cons.2 ⟨fun z hz => ?_, ih hl₁ hl₂⟩
    rcases mem_setUnion hz with hz | hz
    · exact ha z hz
    · exact comp_of_incomparable hequiv (hb z hz)

/-! ## Every call -/

omit [IsStrictWeakOrder α fun a b => comp a b = true] in
/-- `std::unique` keeps a range in which no two neighbours are equivalent. -/
theorem unique_of_isChain (refines : ∀ a b, eq a b = true → Equivalent comp a b) {vals : List α}
    (h : vals.IsChain fun a b => ¬ Equivalent comp a b) : unique eq vals = vals := by
  refine List.destutter_of_isChain _ _ (h.imp fun a b hab => ?_)
  by_contra heq
  exact hab (refines a b (by simpa using heq))

/-- **A range is inserted as it should be exactly when no two neighbours are equivalent**: when
`std::unique` drops something, what it leaves behind may be anything. -/
theorem ascending_insertPresortedRange_iff (refines : ∀ a b, eq a b = true → Equivalent comp a b)
    {ndebug : Bool} {vals left : List α}
    (hcall : insertPresortedRange comp eq ndebug data vals left ≠ none) :
    (∀ left data', insertPresortedRange comp eq ndebug data vals left = some data' →
      Ascending comp data') ↔ vals.IsChain fun a b => ¬ Equivalent comp a b := by
  have hassert : isSorted comp vals = true ∧ data = [] := by
    by_contra hnot
    refine hcall (if_neg fun h => hnot ?_)
    simpa using h
  obtain ⟨hsorted, rfl⟩ := hassert
  have hiff := ascending_iff_of_isSorted hsorted
  cases ndebug with
  | true =>
    have hresult (left : List α) : insertPresortedRange comp eq true [] vals left = some vals := by
      simp [insertPresortedRange, hsorted]
    rw [← hiff]
    constructor
    · exact fun h => h [] vals (hresult [])
    · intro h left data' hdata
      rw [hresult left] at hdata
      exact Option.some.inj hdata ▸ h
  | false =>
    have hresult (left data' : List α) :
        insertPresortedRange comp eq false [] vals left = some data' ↔
          (unique eq vals).length + left.length = vals.length ∧ unique eq vals ++ left = data' := by
      simp [insertPresortedRange, hsorted]
    simp only [hresult]
    have hsub : (unique eq vals).Sublist vals := List.destutter_sublist ..
    constructor
    · intro h
      rw [← hiff]
      cases vals with
      | nil => exact .nil
      | cons a vals =>
        -- what is left may be the first element again
        obtain ⟨n, hn⟩ := Nat.exists_eq_add_of_le hsub.length_le
        have hasc := h (List.replicate n a) _ ⟨by rw [List.length_replicate, hn], rfl⟩
        cases n with
        | zero =>
          rw [List.replicate_zero, List.append_nil] at hasc
          exact hsub.eq_of_length_le hn.le ▸ hasc
        | succ n =>
          have hmem : a ∈ unique eq (a :: vals) := List.mem_destutter' ..
          have hirrefl := (List.pairwise_append.1 hasc).2.2 a hmem a (by simp)
          exact absurd hirrefl (irrefl_of (fun a b => comp a b = true) a)
    · rintro h left data' ⟨hlength, rfl⟩
      rw [unique_of_isChain refines h] at hlength ⊢
      have hleft : left = [] := List.length_eq_zero_iff.1 (by omega)
      rw [hleft, List.append_nil]
      exact hiff.2 h

-- `std::unique` moves the 2 to the front, where the second 1 was, and its old place keeps a 2
example : insertPresortedRange (fun a b : ℕ => a < b) (· == ·) false [] [1, 1, 2] [2] =
    some [1, 2, 2] := by decide

/-- **What a call leaves is ascending, whatever `std::unique` leaves, exactly when it is
admitted.** -/
theorem ascending_step_iff (refines : ∀ a b, eq a b = true → Equivalent comp a b)
    (h : Ascending comp data) {ndebug : Bool} {a : UniqueAction α}
    (hmerge : ∀ other, a = .merge other → Ascending comp other)
    (hcall : step comp eq ndebug data a ≠ none) :
    (∀ left data', step comp eq ndebug data (a.leaving left) = some data' → Ascending comp data') ↔
      Admits comp eq data a := by
  have one {a : UniqueAction α} {data' : List α} (hleaving : ∀ left, a.leaving left = a)
      (hstep : step comp eq ndebug data a = some data') :
      (∀ left data', step comp eq ndebug data (a.leaving left) = some data' →
        Ascending comp data') ↔
        Ascending comp data' := by
    simp only [hleaving, hstep, Option.some.injEq, forall_eq', forall_const]
  cases a with
  | insert val => exact (one (fun _ => rfl) rfl).trans (ascending_insert_iff h)
  | insertRange vals => exact (one (fun _ => rfl) rfl).trans (ascending_insertRange_iff h)
  | insertPresortedRange vals left => exact ascending_insertPresortedRange_iff refines hcall
  | insertPresorted element =>
    obtain ⟨data', hdata⟩ := Option.ne_none_iff_exists'.1 hcall
    refine (one (fun _ => rfl) hdata).trans ?_
    obtain ⟨hlast, hdata⟩ := Option.ite_none_right_eq_some.1 hdata
    cases hdata
    exact iff_of_true (h.concat hlast) trivial
  | merge other =>
    exact (one (fun _ => rfl) rfl).trans (iff_of_true (h.setUnion (hmerge other rfl)) trivial)

theorem Reached.ascending (refines : ∀ a b, eq a b = true → Equivalent comp a b) {ndebug : Bool}
    (h : Reached comp eq ndebug (Admits comp eq) data) : Ascending comp data := by
  induction h with
  | construct => exact .nil
  | @call data data' a _ _ hok hstep ih hmerge =>
    have hcall : step comp eq ndebug data a ≠ none := by simp [hstep]
    have hall := (ascending_step_iff refines ih hmerge hcall).2 hok
    cases a with
    | insertPresortedRange vals left => exact hall left data' hstep
    | _ => exact hall [] data' hstep

/-- **A unique vector behaves as a set when its calls are admitted.** With assertions or without, in
every state reached by calls that are admitted: the elements are strictly ascending; `find` finds an
element exactly when it is in the contents; an insertion that is admitted returns whether no
equivalent element was present; and the condition is exact: what a call leaves is ascending,
whatever `std::unique` leaves, exactly when the call is admitted. -/
theorem behaves_as_set (refines : ∀ a b, eq a b = true → Equivalent comp a b) (ndebug : Bool)
    (h : Reached comp eq ndebug (Admits comp eq) data) :
    Ascending comp data ∧
    (∀ val, find comp eq data val ≠ none ↔ ∃ y ∈ data, eq y val = true) ∧
    (∀ val, ((insert comp eq data val).2 = true ↔ ∀ y ∈ data, ¬ Equivalent comp y val) ↔
      Agrees comp eq data val) ∧
    ∀ a, (∀ other, a = .merge other → Reached comp eq ndebug (Admits comp eq) other) →
      step comp eq ndebug data a ≠ none →
      ((∀ left data', step comp eq ndebug data (a.leaving left) = some data' →
        Ascending comp data') ↔ Admits comp eq data a) := by
  have hasc := h.ascending refines
  refine ⟨hasc, fun val => find_ne_none_iff refines hasc, fun val => insert_snd_iff refines hasc,
    fun a hmerge => ?_⟩
  exact ascending_step_iff refines hasc fun other ha => (hmerge other ha).ascending refines

end order

/-! ## Pairs ordered by their keys -/

/-- A comparator that looks at the key of a pair only. -/
def byKey (a b : ℕ × ℕ) : Bool := a.1 < b.1

instance : IsStrictWeakOrder (ℕ × ℕ) fun a b => byKey a b = true where
  irrefl a := by simp [byKey]
  trans a b c := by
    simp only [byKey, decide_eq_true_eq]
    omega
  incomp_trans a b c := by
    simp only [byKey, decide_eq_true_eq]
    omega

theorem byKey_refines (a b : ℕ × ℕ) (h : (a == b) = true) : Equivalent byKey a b := by
  obtain rfl := beq_iff_eq.1 h
  simp [Equivalent, byKey]

/-- Two keys, and one of them again. -/
theorem behaves_as_set_pairs : find byKey (· == ·) [(1, 0), (2, 0)] (2, 0) ≠ none ↔
    ∃ y ∈ [(1, 0), (2, 0)], (y == (2, 0)) = true := by
  have hfirst : Reached byKey (· == ·) true (Admits byKey (· == ·)) [(2, 0)] :=
    .call (a := .insert (2, 0)) .construct nofun (show Agrees _ _ _ _ by decide) (by decide)
  have hsecond : Reached byKey (· == ·) true (Admits byKey (· == ·)) [(1, 0), (2, 0)] :=
    .call (a := .insert (1, 0)) hfirst nofun (show Agrees _ _ _ _ by decide) (by decide)
  have hthird : Reached byKey (· == ·) true (Admits byKey (· == ·)) [(1, 0), (2, 0)] :=
    .call (a := .insert (2, 0)) hsecond nofun (show Agrees _ _ _ _ by decide) (by decide)
  exact (behaves_as_set byKey_refines true hthird).2.1 (2, 0)

/-- **Two pairs with one key are both inserted.** -/
theorem not_behaves_as_set : ∃ data val, Reached byKey (· == ·) true (fun _ _ => True) data ∧
    (insert byKey (· == ·) data val).2 = true ∧ (∃ y ∈ data, Equivalent byKey y val) ∧
    ∃ data', Reached byKey (· == ·) true (fun _ _ => True) data' ∧ ¬ Ascending byKey data' := by
  have hfirst : Reached byKey (· == ·) true (fun _ _ => True) [(1, 0)] :=
    .call (a := .insert (1, 0)) .construct nofun trivial (by decide)
  have hsecond : Reached byKey (· == ·) true (fun _ _ => True) [(1, 1), (1, 0)] :=
    .call (a := .insert (1, 1)) hfirst nofun trivial (by decide)
  refine ⟨[(1, 0)], (1, 1), hfirst, by decide, ⟨(1, 0), by simp, by decide⟩, _, hsecond, ?_⟩
  simp [Ascending, byKey]

end UniqueVector

end Arcana.Containers
