import Arcana.Containers.UnorderedBimap
import Arcana.Errors.ErrorCode

/-!
# The registry of error categories

`category_storage` numbers the registrations, those of the four standard categories first, and keeps
the numbers and the categories in an `unordered_bimap`. A category can be registered again: the
repetition gets a number of its own, from which the category is found, but the number of the
category stays that of its first registration. So a category is found from a number when it is the
one of that registration (`getCategory_registered`), and its own number is the first position at
which it was registered (`getFacility_registered`).
-/

namespace Arcana.Errors

open Containers

/-- `category_storage`. The counter is an `int`, which a program does not overflow. -/
structure CategoryStorage where
  categoryFacility : ℕ := 0
  storageBimap : UnorderedBimap Category ℕ := {}

namespace CategoryStorage

/-- `add_category`. -/
def addCategory (s : CategoryStorage) (category : Category) : CategoryStorage where
  categoryFacility := s.categoryFacility + 1
  storageBimap := s.storageBimap.emplace category s.categoryFacility

/-- `get_facility`. -/
def getFacility (s : CategoryStorage) (category : Category) : Option ℕ :=
  s.storageBimap.left category

/-- `get_category`. -/
def getCategory (s : CategoryStorage) (facility : ℕ) : Option Category :=
  s.storageBimap.right facility

/-- The categories that the constructor adds. -/
def standard : List Category := [.generic, .iostream, .future, .system]

/-- All registrations, when `adds` follow those of the constructor. -/
def registrations (adds : List Category) : List Category := standard ++ adds

/-- The storage after them. -/
def registered (adds : List Category) : CategoryStorage := (registrations adds).foldl addCategory {}

variable {adds : List Category} {c : Category} {f : ℕ}

theorem foldl_addCategory (l : List Category) (s : CategoryStorage) :
    (l.foldl addCategory s).storageBimap =
      (l.zipIdx s.categoryFacility).foldl
      (fun b call => b.emplace call.1 call.2) s.storageBimap := by
  induction l generalizing s with
  | nil => rfl
  | cons c l ih => exact ih (s.addCategory c)

/-- The bimap holds the registrations with their positions. -/
theorem storageBimap_registered :
    (registered adds).storageBimap = UnorderedBimap.emplaceAll (registrations adds).zipIdx :=
  foldl_addCategory _ _

/-- **The number of a category is the first position at which it was registered.** -/
theorem getFacility_registered :
    (registered adds).getFacility c = (registrations adds).idxOf? c := by
  rw [getFacility, storageBimap_registered, UnorderedBimap.left_emplaceAll, firstEntry_zipIdx]
  simp

/-- **The category of a number is the one whose registration got it.** -/
theorem getCategory_registered : (registered adds).getCategory f = (registrations adds)[f]? := by
  rw [getCategory, storageBimap_registered, UnorderedBimap.right_emplaceAll]
  have hentry := firstEntry_zipIdx_swap (registrations adds) 0 f
  rwa [Nat.zero_add] at hentry

/-- A category that was registered has a number, from which it is found, now and later. -/
theorem exists_facility (h : c ∈ registrations adds) :
    ∃ f < (registrations adds).length, (registered adds).getFacility c = some f ∧
      ∀ later, (registered (adds ++ later)).getCategory f = some c := by
  obtain ⟨f, hf⟩ := Option.isSome_iff_exists.1 (List.isSome_idxOf?.2 h)
  obtain ⟨hlt, hget, -⟩ := List.idxOf?_eq_some_iff.1 hf
  refine ⟨f, hlt, getFacility_registered.trans hf, fun later => ?_⟩
  have hlater : registrations (adds ++ later) = registrations adds ++ later :=
    (List.append_assoc standard adds later).symm
  rw [getCategory_registered, hlater, List.getElem?_append_left hlt,
    List.getElem?_eq_getElem hlt, hget]

/-- The number of the category of a number is not larger: it is the first one that the category
got. -/
theorem exists_facility_le (h : (registered adds).getCategory f = some c) :
    ∃ f₀ ≤ f, (registered adds).getFacility c = some f₀ := by
  rw [getCategory_registered] at h
  obtain ⟨f₀, hf₀⟩ := Option.isSome_iff_exists.1 (List.isSome_idxOf?.2 (List.mem_of_getElem? h))
  obtain ⟨hlt, -, hfirst⟩ := List.idxOf?_eq_some_iff.1 hf₀
  refine ⟨f₀, ?_, getFacility_registered.trans hf₀⟩
  by_contra hle
  obtain ⟨hlt', hget⟩ := List.getElem?_eq_some_iff.1 h
  exact hfirst f (by omega) hget

/-- Categories of one number are equal. -/
theorem getFacility_inj {c' : Category} (h : (registered adds).getFacility c = some f)
    (h' : (registered adds).getFacility c' = some f) : c = c' := by
  rw [getFacility_registered] at h h'
  obtain ⟨hlt, hget, -⟩ := List.idxOf?_eq_some_iff.1 h
  obtain ⟨hlt', hget', -⟩ := List.idxOf?_eq_some_iff.1 h'
  exact hget.symm.trans hget'

end CategoryStorage

end Arcana.Errors
