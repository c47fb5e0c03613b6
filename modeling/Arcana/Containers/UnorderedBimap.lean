import Mathlib.Data.List.Basic
import Mathlib.Data.List.Induction
import Mathlib.Logic.Function.Basic

/-!
# Bidirectional maps

`unordered_bimap` keeps one map for each direction. `emplace` makes an entry in both of them, and
either one is left alone when its own key is there already, so what a key is mapped to is said by
the first call that passed it (`left_emplaceAll`, `right_emplaceAll`). A call keeps the maps inverse
to each other exactly when both of its keys are new or neither is (`inverse_emplace_iff`): a call
that repeats one of them only makes an entry in one direction.
-/

namespace Arcana.Containers

section map

variable {K V : Type*} [DecidableEq K]

/-- `unordered_map::emplace`: an entry that is there stays. -/
def emplaceMap (m : K → Option V) (key : K) (value : V) : K → Option V :=
  if (m key).isSome then m else Function.update m key (some value)

/-- What the entries of a list of calls are: the first one of a key wins. -/
def firstEntry (calls : List (K × V)) (key : K) : Option V :=
  (calls.find? fun call => call.1 = key).map Prod.snd

variable {m : K → Option V} {key k : K} {value : V}

theorem emplaceMap_of_isSome (h : (m key).isSome) : emplaceMap m key value = m := if_pos h

theorem emplaceMap_of_eq_none (h : m key = none) :
    emplaceMap m key value = Function.update m key (some value) := by
  rw [emplaceMap, h]
  rfl

theorem emplaceMap_apply :
    emplaceMap m key value k = (m k).or (if key = k then some value else none) := by
  cases hkey : m key with
  | none =>
    rw [emplaceMap_of_eq_none hkey]
    by_cases h : key = k
    · subst h
      simp [hkey]
    · simp [h, Function.update_of_ne (Ne.symm h)]
  | some v =>
    rw [emplaceMap_of_isSome (by simp [hkey])]
    by_cases h : key = k
    · subst h
      simp [hkey]
    · simp [h]

@[simp] theorem firstEntry_nil : firstEntry ([] : List (K × V)) k = none := rfl

@[simp] theorem firstEntry_cons (call : K × V) (calls : List (K × V)) :
    firstEntry (call :: calls) k = if call.1 = k then some call.2 else firstEntry calls k := by
  rw [firstEntry, List.find?_cons]
  by_cases h : call.1 = k
  · simp [h]
  · simp [h, firstEntry]

theorem foldl_emplaceMap (calls : List (K × V)) (m : K → Option V) (k : K) :
    calls.foldl (fun m call => emplaceMap m call.1 call.2) m k = (m k).or (firstEntry calls k) := by
  induction calls generalizing m with
  | nil => simp
  | cons call calls ih =>
    rw [List.foldl_cons, ih, emplaceMap_apply, Option.or_assoc]
    congr 1
    by_cases h : call.1 = k
    · simp [h]
    · simp [h]

theorem isSome_firstEntry_iff {calls : List (K × V)} :
    (firstEntry calls k).isSome ↔ k ∈ calls.map Prod.fst := by
  simp [firstEntry]

/-- Elements that are numbered: the number of one is that of its first occurrence. -/
theorem firstEntry_zipIdx (l : List K) (n : ℕ) :
    firstEntry (l.zipIdx n) k = (l.idxOf? k).map (· + n) := by
  induction l generalizing n with
  | nil => rfl
  | cons a l ih =>
    rw [List.zipIdx_cons, firstEntry_cons, List.idxOf?_cons, ih]
    by_cases h : a = k
    · simp [h]
    · simp [h, Function.comp_def, Nat.add_assoc, Nat.add_comm n 1]

/-- And the element of a number is the one that has it. -/
theorem firstEntry_zipIdx_swap (l : List V) (n i : ℕ) :
    firstEntry ((l.zipIdx n).map Prod.swap) (n + i) = l[i]? := by
  induction l generalizing n i with
  | nil => rfl
  | cons a l ih =>
    rw [List.zipIdx_cons, List.map_cons, firstEntry_cons]
    cases i with
    | zero => simp
    | succ i =>
      have hne : n ≠ n + (i + 1) := by omega
      rw [Prod.swap_prod_mk, if_neg hne, List.getElem?_cons_succ, ← ih (n + 1) i, Nat.add_assoc,
        Nat.add_comm 1 i]

end map

/-- `unordered_bimap`: `m_leftToRight` and `m_rightToLeft`. -/
structure UnorderedBimap (TLeft TRight : Type*) where
  left : TLeft → Option TRight := fun _ => none
  right : TRight → Option TLeft := fun _ => none

namespace UnorderedBimap

variable {TLeft TRight : Type*} [DecidableEq TLeft] [DecidableEq TRight]

/-- `emplace`. -/
def emplace (b : UnorderedBimap TLeft TRight) (left : TLeft) (right : TRight) :
    UnorderedBimap TLeft TRight where
  left := emplaceMap b.left left right
  right := emplaceMap b.right right left

/-- The map after a sequence of calls. -/
def emplaceAll (calls : List (TLeft × TRight)) : UnorderedBimap TLeft TRight :=
  calls.foldl (fun b call => b.emplace call.1 call.2) {}

/-- The two maps are inverse to each other. -/
def Inverse (b : UnorderedBimap TLeft TRight) : Prop :=
  ∀ l r, b.left l = some r ↔ b.right r = some l

/-- The same map with the two directions exchanged. -/
def swap (b : UnorderedBimap TLeft TRight) : UnorderedBimap TRight TLeft where
  left := b.right
  right := b.left

variable {b : UnorderedBimap TLeft TRight} {l : TLeft} {r : TRight} {calls : List (TLeft × TRight)}

theorem foldl_emplace (calls : List (TLeft × TRight)) (b : UnorderedBimap TLeft TRight) :
    calls.foldl (fun b call => b.emplace call.1 call.2) b =
      { left := calls.foldl (fun m call => emplaceMap m call.1 call.2) b.left
        right :=
          (calls.map Prod.swap).foldl (fun m call => emplaceMap m call.1 call.2) b.right } := by
  induction calls generalizing b with
  | nil => rfl
  | cons call calls ih => exact ih (b.emplace call.1 call.2)

/-- **What a key is mapped to is what the first call that passed it said.** -/
theorem left_emplaceAll : (emplaceAll calls).left l = firstEntry calls l := by
  rw [emplaceAll, foldl_emplace]
  exact foldl_emplaceMap calls _ l

theorem right_emplaceAll : (emplaceAll calls).right r = firstEntry (calls.map Prod.swap) r := by
  rw [emplaceAll, foldl_emplace]
  exact foldl_emplaceMap (calls.map Prod.swap) _ r

theorem isSome_left_emplaceAll : ((emplaceAll calls).left l).isSome ↔ l ∈ calls.map Prod.fst := by
  rw [left_emplaceAll, isSome_firstEntry_iff]

theorem isSome_right_emplaceAll : ((emplaceAll calls).right r).isSome ↔ r ∈ calls.map Prod.snd := by
  rw [right_emplaceAll, isSome_firstEntry_iff, List.map_map]
  rfl

omit [DecidableEq TLeft] [DecidableEq TRight] in
theorem Inverse.swap (h : b.Inverse) : b.swap.Inverse := fun r l => (h l r).symm

omit [DecidableEq TLeft] [DecidableEq TRight] in
theorem inverse_empty : Inverse ({} : UnorderedBimap TLeft TRight) :=
  fun _ _ => iff_of_false nofun nofun

/-- An entry for a left key that is new does not fit a right key that is there. -/
theorem Inverse.not_inverse_emplace (h : b.Inverse) (hl : b.left l = none) {l₀ : TLeft}
    (hr : b.right r = some l₀) : ¬ (b.emplace l r).Inverse := by
  intro hinv
  have hleft : (b.emplace l r).left l = some r := by
    change emplaceMap b.left l r l = some r
    rw [emplaceMap_of_eq_none hl, Function.update_self]
  have hright : (b.emplace l r).right r = some l₀ := by
    change emplaceMap b.right r l r = some l₀
    rw [emplaceMap_of_isSome (by simp [hr]), hr]
  obtain rfl : l₀ = l := Option.some.inj (hright.symm.trans ((hinv l r).1 hleft))
  cases ((h l₀ r).2 hr).symm.trans hl

/-- Two entries for keys that are new belong together. -/
theorem Inverse.inverse_emplace (h : b.Inverse) (hl : b.left l = none) (hr : b.right r = none) :
    (b.emplace l r).Inverse := by
  intro l' r'
  change emplaceMap b.left l r l' = some r' ↔ emplaceMap b.right r l r' = some l'
  rw [emplaceMap_of_eq_none hl, emplaceMap_of_eq_none hr]
  by_cases hl' : l' = l
  · subst hl'
    by_cases hr' : r' = r
    · simp [hr']
    · have hnone : b.right r' ≠ some l' := fun hright => by
        cases ((h l' r').2 hright).symm.trans hl
      simp [Function.update_of_ne hr', hnone, Ne.symm hr']
  · rw [Function.update_of_ne hl']
    by_cases hr' : r' = r
    · subst hr'
      have hnone : b.left l' ≠ some r' := fun hleft => by
        cases ((h l' r').1 hleft).symm.trans hr
      simp [hnone, Ne.symm hl']
    · rw [Function.update_of_ne hr']
      exact h l' r'

/-- **A call keeps the maps inverse exactly when both of its keys are new or neither is.** -/
theorem inverse_emplace_iff (h : b.Inverse) :
    (b.emplace l r).Inverse ↔ ((b.left l).isSome ↔ (b.right r).isSome) := by
  cases hl : b.left l with
  | none =>
    cases hr : b.right r with
    | none => exact iff_of_true (h.inverse_emplace hl hr) (by simp)
    | some l₀ => exact iff_of_false (h.not_inverse_emplace hl hr) (by simp)
  | some r₀ =>
    cases hr : b.right r with
    | none =>
      -- the same with the two directions exchanged
      have hswap := h.swap.not_inverse_emplace (b := b.swap) hr hl
      exact iff_of_false (fun hinv => hswap hinv.swap) (by simp)
    | some l₀ =>
      have hsame : b.emplace l r = b := by
        rw [emplace, emplaceMap_of_isSome (by simp [hl]), emplaceMap_of_isSome (by simp [hr])]
      rw [hsame]
      exact iff_of_true h (by simp)

theorem emplaceAll_concat (calls : List (TLeft × TRight)) (call : TLeft × TRight) :
    emplaceAll (calls ++ [call]) = (emplaceAll calls).emplace call.1 call.2 := by
  rw [emplaceAll, List.foldl_append]
  rfl

/-- **The maps stay inverse exactly when every call repeats both of its keys or neither.** The
left-hand side is about the map after each of the calls. -/
theorem stays_inverse_iff (calls : List (TLeft × TRight)) :
    (∀ earlier, earlier <+: calls → (emplaceAll earlier).Inverse) ↔
      ∀ earlier call, earlier ++ [call] <+: calls →
        (call.1 ∈ earlier.map Prod.fst ↔ call.2 ∈ earlier.map Prod.snd) := by
  have step (earlier : List (TLeft × TRight)) (call : TLeft × TRight)
    (h : (emplaceAll earlier).Inverse) :
      (emplaceAll (earlier ++ [call])).Inverse ↔
        (call.1 ∈ earlier.map Prod.fst ↔ call.2 ∈ earlier.map Prod.snd) := by
    rw [emplaceAll_concat, inverse_emplace_iff h, isSome_left_emplaceAll, isSome_right_emplaceAll]
  constructor
  · intro h earlier call hcall
    exact (step earlier call (h earlier ((List.prefix_append _ _).trans hcall))).1 (h _ hcall)
  · intro h earlier
    induction earlier using List.reverseRecOn with
    | nil => exact fun _ => inverse_empty
    | append_singleton earlier call ih =>
      intro hcall
      have hearlier := ih ((List.prefix_append _ _).trans hcall)
      exact (step earlier call hearlier).2 (h earlier call hcall)

/-- **A left key that is passed again with another right key spoils the bijection.** -/
theorem not_inverse_repeated : ¬ ∀ calls : List (ℕ × ℕ), (emplaceAll calls).Inverse := by
  intro hall
  have hinv := hall [(1, 10), (1, 20)] 1 20
  have hleft : (emplaceAll [(1, 10), (1, 20)]).left 1 = some 10 := by decide
  have hright : (emplaceAll [(1, 10), (1, 20)]).right 20 = some 1 := by decide
  cases hleft.symm.trans (hinv.2 hright)

end UnorderedBimap

end Arcana.Containers
