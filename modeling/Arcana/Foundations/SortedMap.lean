import Mathlib.Data.List.Nodup
import Mathlib.Order.Lattice

/-!
# Maps that are sorted by their keys

`std::map` as the list of its entries, in the order in which an iteration visits them. The keys are
strictly increasing, which the map carries, so that no key is there twice. What the operations do is
said by the entries of the result: `mem_assign` and `mem_erase`.
-/

namespace Arcana.Foundations

/-- `std::map`. -/
structure SortedMap (κ V : Type*) [LinearOrder κ] where
  entries : List (κ × V) := []
  sorted : (entries.map Prod.fst).Pairwise (· < ·) := by simp

namespace SortedMap

variable {κ V : Type*} [LinearOrder κ]

/-- The keys, in their order. -/
def keys (m : SortedMap κ V) : List κ := m.entries.map Prod.fst

/-- The entries with one more, or with the value of its key replaced. -/
def assignEntries (key : κ) (value : V) : List (κ × V) → List (κ × V)
  | [] => [(key, value)]
  | (k, v) :: entries =>
    if key < k then (key, value) :: (k, v) :: entries
    else if key = k then (key, value) :: entries
    else (k, v) :: assignEntries key value entries

variable {key : κ} {value : V} {entries : List (κ × V)} {x : κ × V}

theorem mem_of_mem_assignEntries (h : x ∈ assignEntries key value entries) :
    x = (key, value) ∨ x ∈ entries := by
  induction entries with
  | nil => exact .inl (List.mem_singleton.1 h)
  | cons entry entries ih =>
    rw [assignEntries] at h
    split_ifs at h
    · exact List.mem_cons.1 h
    · exact (List.mem_cons.1 h).imp_right (.tail _)
    · rcases List.mem_cons.1 h with rfl | h
      · exact .inr (.head _)
      · exact (ih h).imp_right (.tail _)

theorem sorted_assignEntries (h : (entries.map Prod.fst).Pairwise (· < ·)) :
    ((assignEntries key value entries).map Prod.fst).Pairwise (· < ·) := by
  induction entries with
  | nil => exact List.pairwise_singleton _ _
  | cons entry entries ih =>
    obtain ⟨k, v⟩ := entry
    obtain ⟨hk, hentries⟩ := List.pairwise_cons.1 h
    rw [assignEntries]
    split_ifs with hlt heq
    · exact List.pairwise_cons.2 ⟨List.forall_mem_cons.2
        ⟨hlt, fun a ha => lt_trans hlt (hk a ha)⟩, h⟩
    · subst heq
      exact List.pairwise_cons.2 ⟨hk, hentries⟩
    · refine List.pairwise_cons.2 ⟨fun a ha => ?_, ih hentries⟩
      obtain ⟨x, hx, rfl⟩ := List.mem_map.1 ha
      rcases mem_of_mem_assignEntries hx with rfl | hx
      · exact lt_of_le_of_ne (not_lt.1 hlt) (Ne.symm heq)
      · exact hk _ (List.mem_map_of_mem hx)

/-- `m[key] = value`. -/
def assign (m : SortedMap κ V) (key : κ) (value : V) : SortedMap κ V where
  entries := assignEntries key value m.entries
  sorted := sorted_assignEntries m.sorted

/-- `m.erase(key)`. -/
def erase (m : SortedMap κ V) (key : κ) : SortedMap κ V where
  entries := m.entries.filter fun x => x.1 ≠ key
  sorted := m.sorted.sublist (List.filter_sublist.map _)

variable {m : SortedMap κ V}

theorem mem_assignEntries (h : (entries.map Prod.fst).Pairwise (· < ·)) :
    x ∈ assignEntries key value entries ↔ x = (key, value) ∨ x ∈ entries ∧ x.1 ≠ key := by
  induction entries with
  | nil => simp [assignEntries]
  | cons entry entries ih =>
    obtain ⟨k, v⟩ := entry
    obtain ⟨hk, hentries⟩ := List.pairwise_cons.1 h
    have after (hle : key ≤ k) (h : x ∈ entries) : x.1 ≠ key :=
      ne_of_gt (lt_of_le_of_lt hle (hk _ (List.mem_map_of_mem h)))
    simp only [assignEntries]
    split_ifs with hlt heq
    · grind
    · subst heq
      grind
    · have := ih hentries
      grind

/-- After an assignment the key has the value, and the others have theirs. -/
theorem mem_assign : x ∈ (m.assign key value).entries ↔
    x = (key, value) ∨ x ∈ m.entries ∧ x.1 ≠ key :=
  mem_assignEntries m.sorted

@[simp] theorem mem_erase : x ∈ (m.erase key).entries ↔ x ∈ m.entries ∧ x.1 ≠ key := by
  simp [erase]

theorem mem_keys : key ∈ m.keys ↔ ∃ value, (key, value) ∈ m.entries := by
  simp [keys]

theorem nodup_keys (m : SortedMap κ V) : m.keys.Nodup := m.sorted.imp ne_of_lt

end SortedMap

end Arcana.Foundations
