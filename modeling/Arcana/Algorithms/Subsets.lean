import Mathlib.Data.Bool.Count
import Mathlib.Data.Finset.Powerset
import Mathlib.Order.BooleanAlgebra.Basic
import Arcana.Foundations.PrevPermutation

/-!
# Subsets of a given size

`compute_subsets` lets a mask of bits run through its permutations, from the greatest one down with
`std::prev_permutation`, and collects the elements at the bits that are set. The loop visits the
permutations of the mask that it begins with, each of them once (`subsetsLoop_of_descent`,
`le_firstMask`). For distinct elements the masks of the length of the list are the subsets
(`maskOf_combSet`, `combSet_maskOf`), and the permutations of the first mask are those with `K`
elements (`computeSubsets_spec`).
-/

namespace Arcana.Algorithms

open Foundations

variable {T : Type*} [DecidableEq T]

/-- `vector::resize`. -/
def resize (bits : List Bool) (size : ℕ) (value : Bool) : List Bool :=
  bits.take size ++ List.replicate (size - bits.length) value

/-- The inner loop of `compute_subsets` at `i`. -/
def insertAt (elements : List T) (bitmask : List Bool) (combSet : Finset T) (i : ℕ) : Finset T :=
  match bitmask[i]?, elements[i]? with
  | some true, some x => insert x combSet
  | _, _ => combSet

/-- The set that it fills. -/
def combSet (elements : List T) (bitmask : List Bool) : Finset T :=
  (List.range elements.length).foldl (insertAt elements bitmask) ∅

/-- The outer loop, in at most `rounds` rounds. -/
def subsetsLoop (elements : List T) :
    (rounds : ℕ) → List Bool → List (Finset T) → Option (List (Finset T))
  | 0, _, _ => none
  | rounds + 1, bitmask, vectorSet =>
    let vectorSet := vectorSet ++ [combSet elements bitmask]
    match prevPermutation bitmask with
    | none => some vectorSet
    | some bitmask => subsetsLoop elements rounds bitmask vectorSet

/-- The mask that the loop begins with. -/
def firstMask (setLength K : ℕ) : List Bool := resize (List.replicate K true) setLength false

/-- `compute_subsets`; there is no result when the rounds are not enough. -/
def computeSubsets (rounds : ℕ) (elements : List T) (K : ℕ) : Option (List (Finset T)) :=
  if elements = [] then some []
  else subsetsLoop elements rounds (firstMask elements.length K) []

example : computeSubsets 3 ['a', 'b', 'c'] 2 = some [{'a', 'b'}, {'a', 'c'}, {'b', 'c'}] := by
  decide

/-! ## The masks that are visited -/

/-- **The loop goes down through the permutations of the mask** and adds the set of each of them. -/
theorem subsetsLoop_of_descent (elements : List T) {bitmask : List Bool} {masks : List (List Bool)}
    (h : Descent bitmask masks) : ∀ rounds vectorSet, masks.length ≤ rounds →
      subsetsLoop elements rounds bitmask vectorSet =
      some (vectorSet ++ masks.map (combSet elements)) := by
  induction h with
  | last hprev =>
    intro rounds vectorSet hrounds
    cases rounds with
    | zero => cases hrounds
    | succ rounds =>
      rw [subsetsLoop, hprev]
      rfl
  | step hprev hdescent ih =>
    rename_i bitmask next masks
    intro rounds vectorSet hrounds
    cases rounds with
    | zero => cases hrounds
    | succ rounds =>
      have htail :=
        ih rounds (vectorSet ++ [combSet elements bitmask]) (Nat.le_of_succ_le_succ hrounds)
      rw [subsetsLoop, hprev]
      simpa using htail

/-! ## Masks and subsets -/

variable {elements : List T} {bitmask : List Bool} {s : Finset T} {x : T}

theorem mem_insertAt {comb : Finset T} {i : ℕ} : x ∈ insertAt elements bitmask comb i ↔
    x ∈ comb ∨ bitmask[i]? = some true ∧ elements[i]? = some x := by
  unfold insertAt
  split
  · rename_i y hbit hy
    rw [Finset.mem_insert, hbit, hy, Option.some_inj, eq_comm, or_comm]
    simp
  · rename_i hnot
    refine ⟨.inl, fun h => h.resolve_right ?_⟩
    rintro ⟨hbit, hx⟩
    exact hnot x hbit hx

/-- The set holds the elements at the bits that are set. -/
theorem mem_combSet : x ∈ combSet elements bitmask ↔
    ∃ i < elements.length, bitmask[i]? = some true ∧ elements[i]? = some x := by
  have hfold (l : List ℕ) (comb : Finset T) : x ∈ l.foldl (insertAt elements bitmask) comb ↔
      x ∈ comb ∨ ∃ i ∈ l, bitmask[i]? = some true ∧ elements[i]? = some x := by
    induction l generalizing comb with
    | nil => simp
    | cons i l ih => rw [List.foldl_cons, ih, mem_insertAt, List.exists_mem_cons_iff, or_assoc]
  rw [combSet, hfold]
  simp

/-- The mask of a set. -/
def maskOf (elements : List T) (s : Finset T) : List Bool := elements.map fun x => decide (x ∈ s)

/-- A mask is recovered from its elements, when they are distinct. -/
theorem maskOf_combSet (hnodup : elements.Nodup) (hlength : bitmask.length = elements.length) :
    maskOf elements (combSet elements bitmask) = bitmask := by
  apply List.ext_getElem
  · rw [maskOf, List.length_map, hlength]
  · intro i hi hi'
    have hlt : i < elements.length := by omega
    simp only [maskOf, List.getElem_map]
    apply Bool.eq_iff_iff.2
    rw [decide_eq_true_iff, mem_combSet]
    constructor
    · rintro ⟨j, hj, hbit, hx⟩
      -- the element is at no other position
      have hsame : elements[j] = elements[i] := (List.getElem?_eq_some_iff.1 hx).2
      obtain rfl : j = i := hnodup.getElem_inj_iff.1 hsame
      exact (List.getElem?_eq_some_iff.1 hbit).2
    · intro hbit
      exact ⟨i, hlt, List.getElem?_eq_some_iff.2 ⟨hi', hbit⟩, List.getElem?_eq_getElem hlt⟩

/-- A subset is recovered from its mask. -/
theorem combSet_maskOf (h : s ⊆ elements.toFinset) : combSet elements (maskOf elements s) = s := by
  ext x
  rw [mem_combSet]
  constructor
  · rintro ⟨i, hi, hbit, hx⟩
    rw [maskOf, List.getElem?_map, hx] at hbit
    simpa using hbit
  · intro hx
    obtain ⟨i, hi, rfl⟩ := List.mem_iff_getElem.1 (List.mem_toFinset.1 (h hx))
    refine ⟨i, hi, ?_, List.getElem?_eq_getElem hi⟩
    rw [maskOf, List.getElem?_map, List.getElem?_eq_getElem hi]
    simpa using hx

/-- A mask has as many bits as its set has elements. -/
theorem count_maskOf (hnodup : elements.Nodup) (h : s ⊆ elements.toFinset) :
    (maskOf elements s).count true = s.card := by
  have hfilter : (elements.filter (· ∈ s)).toFinset = s := by
    ext x
    simp only [List.mem_toFinset, List.mem_filter, decide_eq_true_eq]
    exact ⟨fun hx => hx.2, fun hx => ⟨List.mem_toFinset.1 (h hx), hx⟩⟩
  calc (maskOf elements s).count true = elements.countP fun x => decide (x ∈ s) := by
        rw [maskOf, List.count, List.countP_map]
        congr 1
        funext x
        simp
    _ = (elements.filter (· ∈ s)).length := List.countP_eq_length_filter
    _ = (elements.filter (· ∈ s)).toFinset.card :=
      (List.toFinset_card_of_nodup (hnodup.filter _)).symm
    _ = s.card := by rw [hfilter]

/-! ## The first mask -/

variable {n K : ℕ}

theorem firstMask_eq (h : K ≤ n) :
    firstMask n K = List.replicate K true ++ List.replicate (n - K) false := by
  rw [firstMask, resize, List.take_of_length_le (by simpa using h), List.length_replicate]

/-- It is the greatest of its permutations. -/
theorem le_firstMask (h : K ≤ n) (hm : bitmask.Perm (firstMask n K)) : bitmask ≤ firstMask n K := by
  apply le_of_perm_of_descending _ hm
  rw [firstMask_eq h]
  refine List.pairwise_append.2 ⟨?_, ?_, fun a ha b hb => ?_⟩
  · exact List.pairwise_replicate.2 (.inr le_rfl)
  · exact List.pairwise_replicate.2 (.inr le_rfl)
  · rw [List.eq_of_mem_replicate ha]
    exact Bool.le_true b

/-- Its permutations are the masks of the same length with `K` bits. -/
theorem perm_firstMask_iff (h : K ≤ n) :
    bitmask.Perm (firstMask n K) ↔ bitmask.length = n ∧ bitmask.count true = K := by
  have hlength : (firstMask n K).length = n := by
    rw [firstMask_eq h, List.length_append, List.length_replicate, List.length_replicate]
    omega
  have hcount : (firstMask n K).count true = K := by
    rw [firstMask_eq h, List.count_append, List.count_replicate, List.count_replicate]
    simp
  constructor
  · intro hm
    exact ⟨hm.length_eq.trans hlength, (hm.count_eq true).trans hcount⟩
  · rintro ⟨hlen, hk⟩
    apply List.perm_iff_count.2
    have htotal := List.count_true_add_count_false bitmask
    have htotal' := List.count_true_add_count_false (firstMask n K)
    intro b
    cases b with
    | true => exact hk.trans hcount.symm
    | false => omega

/-! ## `compute_subsets` -/

/-- **`compute_subsets` returns the subsets of `K` elements, each of them once**, after as many
rounds as there are such subsets. -/
theorem computeSubsets_spec (hne : elements ≠ []) (hnodup : elements.Nodup)
    (hK : K ≤ elements.length) :
    ∃ subsets : List (Finset T),
      (∀ rounds, elements.length.choose K ≤ rounds →
        computeSubsets rounds elements K = some subsets) ∧
      subsets.Nodup ∧ (∀ s, s ∈ subsets ↔ s ⊆ elements.toFinset ∧ s.card = K) ∧
      subsets.length = elements.length.choose K := by
  obtain ⟨masks, hdescent⟩ := exists_descent (firstMask elements.length K)
  have hloop := subsetsLoop_of_descent elements hdescent
  have hmask (m : List Bool) : m ∈ masks ↔ m.length = elements.length ∧ m.count true = K := by
    rw [hdescent.mem_iff, ← perm_firstMask_iff hK]
    exact ⟨And.left, fun hm => ⟨hm, le_firstMask hK hm⟩⟩
  have hsubsets : (masks.map (combSet elements)).Nodup := by
    refine hdescent.nodup.map_on fun m hm m' hm' heq => ?_
    rw [← maskOf_combSet hnodup ((hmask m).1 hm).1, heq, maskOf_combSet hnodup ((hmask m').1 hm').1]
  have hset (s : Finset T) : s ∈ masks.map (combSet elements) ↔
      s ⊆ elements.toFinset ∧ s.card = K := by
    rw [List.mem_map]
    constructor
    · rintro ⟨m, hm, rfl⟩
      obtain ⟨hlength, hcount⟩ := (hmask m).1 hm
      have hsub : combSet elements m ⊆ elements.toFinset := fun x hx => by
        obtain ⟨i, -, -, hx⟩ := mem_combSet.1 hx
        exact List.mem_toFinset.2 (List.mem_of_getElem? hx)
      refine ⟨hsub, ?_⟩
      rw [← count_maskOf hnodup hsub, maskOf_combSet hnodup hlength, hcount]
    · rintro ⟨hsub, hcard⟩
      refine ⟨maskOf elements s, (hmask _).2 ⟨List.length_map _, ?_⟩, combSet_maskOf hsub⟩
      rw [count_maskOf hnodup hsub, hcard]
  have hcard : (masks.map (combSet elements)).length = elements.length.choose K := by
    have hpowerset : (masks.map (combSet elements)).toFinset =
        elements.toFinset.powersetCard K := by
      ext s
      rw [List.mem_toFinset, hset, Finset.mem_powersetCard]
    rw [← List.toFinset_card_of_nodup hsubsets, hpowerset, Finset.card_powersetCard,
      List.toFinset_card_of_nodup hnodup]
  refine ⟨masks.map (combSet elements), fun rounds hrounds => ?_, hsubsets, hset, hcard⟩
  rw [List.length_map] at hcard
  rw [computeSubsets, if_neg hne, hloop rounds [] (by omega), List.nil_append]

/-- The pairs of three letters. -/
theorem computeSubsets_letters : ∃ subsets : List (Finset Char),
    computeSubsets 3 ['a', 'b', 'c'] 2 = some subsets ∧ subsets.Nodup ∧ subsets.length = 3 := by
  obtain ⟨subsets, hresult, hnodup, -, hlength⟩ :=
    computeSubsets_spec (K := 2) (show ['a', 'b', 'c'] ≠ [] by decide) (by decide) (by decide)
  exact ⟨subsets, hresult 3 (by decide), hnodup, hlength⟩

end Arcana.Algorithms
