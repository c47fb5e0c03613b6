import Mathlib.Logic.Relation
import Mathlib.Logic.Function.Basic
import Mathlib.Data.Option.Basic

/-!
# Chains of forwarding addresses

A partial function `next : α → Option α` sends every element to the one it forwards to. `Leads next
x r` says that the chain from `x` is finite and ends at `r`, which forwards to nothing. When every
chain ends (`Rooted`), the forwarding relation has no cycle, and giving an element without an
address the address `q` keeps every chain finite as long as the chain from `q` does not pass through
the element itself (`Rooted.update`).
-/

namespace Arcana.Foundations

open Function Relation

variable {α : Type*} {next : α → Option α}

/-- Following `next` from `x` ends at `r`, which forwards to nothing. -/
inductive Leads (next : α → Option α) : α → α → Prop
  | root {r : α} : next r = none → Leads next r r
  | hop {x y r : α} : next x = some y → Leads next y r → Leads next x r

/-- `y` is met when following `next` from `x`. -/
def Passes (next : α → Option α) (x y : α) : Prop := ReflTransGen (fun a b => next a = some b) x y

/-- Every chain ends. -/
def Rooted (next : α → Option α) : Prop := ∀ x, ∃ r, Leads next x r

namespace Leads

variable {x y r r' : α}

theorem next_eq_none (h : Leads next x r) : next r = none := by
  induction h with
  | root h => exact h
  | hop _ _ ih => exact ih

theorem of_next (h : Leads next x r) (hxy : next x = some y) : Leads next y r := by
  cases h with
  | root h => rw [h] at hxy; cases hxy
  | hop hy h =>
    rw [hy] at hxy
    cases hxy
    exact h

theorem unique (h : Leads next x r) (h' : Leads next x r') : r = r' := by
  induction h with
  | root h =>
    cases h' with
    | root _ => rfl
    | hop h' _ => rw [h] at h'; cases h'
  | hop hxy _ ih => exact ih (h'.of_next hxy)

theorem passes (h : Leads next x r) : Passes next x r := by
  induction h with
  | root _ => exact .refl
  | hop hxy _ ih => exact .head hxy ih

/-- A chain that ends meets no element twice. -/
theorem not_cycle (h : Leads next x r) : ¬ TransGen (fun a b => next a = some b) x x := by
  induction h with
  | root h =>
    intro hc
    obtain ⟨_, hy, _⟩ := TransGen.head'_iff.1 hc
    rw [h] at hy
    cases hy
  | hop hxy _ ih =>
    intro hc
    obtain ⟨z, hz, hzx⟩ := TransGen.head'_iff.1 hc
    rw [hxy] at hz
    cases hz
    exact ih (TransGen.tail' hzx hxy)

section update

variable [DecidableEq α] {l q : α}

/-- A chain that ends elsewhere does not see the new address of `l`. -/
theorem update_of_ne (h : Leads next x r) (hl : next l = none) (hr : r ≠ l) :
    Leads (update next l (some q)) x r := by
  induction h with
  | root h => exact .root (by rw [Function.update_of_ne hr]; exact h)
  | @hop x y r hxy _ ih =>
    have hx : x ≠ l := by
      rintro rfl
      rw [hl] at hxy
      cases hxy
    exact .hop (by rw [Function.update_of_ne hx]; exact hxy) (ih hr)

/-- A chain that ended at `l` goes on from its new address. -/
theorem update_of_eq (h : Leads next x l) (hq : Leads (update next l (some q)) q r) :
    Leads (update next l (some q)) x r := by
  induction h with
  | root _ => exact .hop (by rw [update_self]) hq
  | @hop x y l hxy hyl ih =>
    have hx : x ≠ l := by
      rintro rfl
      rw [hyl.next_eq_none] at hxy
      cases hxy
    exact .hop (by rw [Function.update_of_ne hx]; exact hxy) (ih hq)

end update

end Leads

/-- A way to the end of a chain is the chain. -/
theorem Passes.leads {x y : α} (h : Passes next x y) (hy : next y = none) : Leads next x y := by
  induction h using ReflTransGen.head_induction_on with
  | refl => exact .root hy
  | head hxz _ ih => exact .hop hxz ih

/-- The way to `l` does not use the address of `l`. -/
theorem Passes.update [DecidableEq α] {x l : α} (h : Passes next x l) (y : Option α) :
    Passes (update next l y) x l := by
  induction h using ReflTransGen.head_induction_on with
  | refl => exact .refl
  | @head x z hxz _ ih =>
    by_cases hx : x = l
    · subst hx
      exact .refl
    · exact .head (by rw [Function.update_of_ne hx]; exact hxz) ih

namespace Rooted

theorem not_cycle (h : Rooted next) (x : α) : ¬ TransGen (fun a b => next a = some b) x x :=
  (h x).choose_spec.not_cycle

/-- **Forwarding an end elsewhere**: the chains stay finite when the new address does not lead back
to the element it is given to. -/
theorem update [DecidableEq α] (h : Rooted next) {l q : α} (hl : next l = none)
    (hq : ¬ Passes next q l) : Rooted (update next l (some q)) := by
  obtain ⟨r, hr⟩ := h q
  have hrl : r ≠ l := by
    rintro rfl
    exact hq hr.passes
  have hq' := hr.update_of_ne (q := q) hl hrl
  intro x
  obtain ⟨r', hr'⟩ := h x
  by_cases e : r' = l
  · subst e
    exact ⟨r, hr'.update_of_eq hq'⟩
  · exact ⟨r', hr'.update_of_ne hl e⟩

end Rooted

end Arcana.Foundations
