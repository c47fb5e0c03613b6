import Mathlib.Data.List.Perm.Lattice
import Mathlib.Data.List.Range
import Mathlib.Logic.Function.Basic

/-!
# The lifetimes of objects in storages

Objects are constructed in storages and destroyed there. They are numbered in the order in which
they are constructed, and what is kept is how many there were, which of them were destroyed, in
order, and which one lives in each storage. `Accounted` says that these agree. Then no object is
destroyed twice or lives in two storages, and when the storages are empty each object was destroyed
once (`Accounted.perm_range`).
-/

namespace Arcana.Foundations

variable {ι : Type*} {held held' : ι → Option ℕ} {count n : ℕ} {destroyed : List ℕ} {i j : ι}

/-- The objects that were constructed are those that were destroyed and those that live in a
storage. -/
structure Accounted (held : ι → Option ℕ) (count : ℕ) (destroyed : List ℕ) : Prop where
  alone : ∀ i j n, held i = some n → held j = some n → i = j
  alive : ∀ i n, held i = some n → n < count ∧ n ∉ destroyed
  gone : ∀ n ∈ destroyed, n < count
  once : destroyed.Nodup
  every : ∀ n < count, n ∈ destroyed ∨ ∃ i, held i = some n

namespace Accounted

theorem initial : Accounted (fun _ : ι => none) 0 [] where
  alone := nofun
  alive := nofun
  gone := nofun
  once := .nil
  every n hn := absurd hn n.not_lt_zero

theorem congr (h : Accounted held count destroyed) (heq : ∀ i, held' i = held i) :
    Accounted held' count destroyed := by
  rwa [funext heq]

/-- **Each object is destroyed once**, when nothing lives any more. -/
theorem perm_range (h : Accounted held count destroyed) (hempty : ∀ i, held i = none) :
    destroyed.Perm (List.range count) := by
  refine (List.perm_ext_iff_of_nodup h.once List.nodup_range).2 fun n => ?_
  rw [List.mem_range]
  refine ⟨h.gone n, fun hn => ?_⟩
  rcases h.every n hn with hgone | ⟨i, hi⟩
  · exact hgone
  · rw [hempty i] at hi
    cases hi

variable [DecidableEq ι]

/-- An object is constructed in a storage that has none. -/
theorem construct (h : Accounted held count destroyed) (hi : held i = none) :
    Accounted (Function.update held i (some count)) (count + 1) destroyed := by
  have hother {j : ι} {n : ℕ} (hj : Function.update held i (some count) j = some n) :
      j = i ∧ n = count ∨ j ≠ i ∧ held j = some n := by
    by_cases hji : j = i
    · subst hji
      rw [Function.update_self] at hj
      exact .inl ⟨rfl, (Option.some.inj hj).symm⟩
    · rw [Function.update_of_ne hji] at hj
      exact .inr ⟨hji, hj⟩
  refine ⟨fun j k n hj hk => ?_, fun j n hj => ?_,
    fun n hn => (h.gone n hn).trans (Nat.lt_succ_self _), h.once, fun n hn => ?_⟩
  · rcases hother hj with ⟨hji, hnew⟩ | ⟨-, hold⟩
    · rcases hother hk with ⟨hki, -⟩ | ⟨-, hold'⟩
      · exact hji.trans hki.symm
      · exact absurd hnew (Nat.ne_of_lt (h.alive k n hold').1)
    · rcases hother hk with ⟨-, hnew⟩ | ⟨-, hold'⟩
      · exact absurd hnew (Nat.ne_of_lt (h.alive j n hold).1)
      · exact h.alone j k n hold hold'
  · rcases hother hj with ⟨-, rfl⟩ | ⟨-, hold⟩
    · exact ⟨Nat.lt_succ_self _, fun hmem => Nat.lt_irrefl _ (h.gone _ hmem)⟩
    · exact ⟨(h.alive j n hold).1.trans (Nat.lt_succ_self _), (h.alive j n hold).2⟩
  · rcases Nat.lt_succ_iff_lt_or_eq.1 hn with hlt | rfl
    · rcases h.every n hlt with hgone | ⟨j, hj⟩
      · exact .inl hgone
      · have hji : j ≠ i := by
          rintro rfl
          rw [hi] at hj
          cases hj
        exact .inr ⟨j, (Function.update_of_ne hji _ _).trans hj⟩
    · exact .inr ⟨i, Function.update_self ..⟩

/-- The object of a storage is destroyed. -/
theorem destroy (h : Accounted held count destroyed) (hi : held i = some n) :
    Accounted (Function.update held i none) count (destroyed ++ [n]) := by
  have hother {j : ι} {m : ℕ} (hj : Function.update held i none j = some m) :
      j ≠ i ∧ held j = some m := by
    by_cases hji : j = i
    · subst hji
      rw [Function.update_self] at hj
      cases hj
    · rw [Function.update_of_ne hji] at hj
      exact ⟨hji, hj⟩
  obtain ⟨hlt, hfresh⟩ := h.alive i n hi
  refine ⟨fun j k m hj hk => h.alone j k m (hother hj).2 (hother hk).2, fun j m hj => ?_,
    fun m hm => ?_, ?_, fun m hm => ?_⟩
  · obtain ⟨hji, hj⟩ := hother hj
    refine ⟨(h.alive j m hj).1, fun hmem => ?_⟩
    rcases List.mem_append.1 hmem with hmem | hmem
    · exact (h.alive j m hj).2 hmem
    · obtain rfl := List.mem_singleton.1 hmem
      exact hji (h.alone j i m hj hi)
  · rcases List.mem_append.1 hm with hm | hm
    · exact h.gone m hm
    · exact List.mem_singleton.1 hm ▸ hlt
  · exact h.once.append (List.nodup_singleton n) (List.disjoint_singleton.2 hfresh)
  · rcases h.every m hm with hgone | ⟨j, hj⟩
    · exact .inl (List.mem_append_left _ hgone)
    · by_cases hji : j = i
      · subst hji
        rw [hi] at hj
        cases hj
        exact .inl (List.mem_append_right _ (.head _))
      · exact .inr ⟨j, (Function.update_of_ne hji _ _).trans hj⟩

end Accounted

end Arcana.Foundations
