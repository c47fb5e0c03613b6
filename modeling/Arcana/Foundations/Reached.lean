import Mathlib.Order.SetNotation

/-!
# What is reached from roots

The objects that are owned, by roots or by owned objects: those that are reached from the roots
along the edges of a graph. A set that has the roots and is closed under the edges has all of them
(`Reached.of_closed`); so what is not in such a set is not reached (`not_reached`), and a change of
the graph whose new roots and new edges lead to what was reached, or to new objects, does not reach
anything else again (`Reached.changed`).

Counting the owners of each object destroys what is `Released`. That is never an object that is
reached, and it is all the others where nobody is owned back along a chain of owners for ever
(`released_iff`).
-/

namespace Arcana.Foundations

variable {ι : Type*} {root root' : ι → Prop} {edge edge' : ι → ι → Prop} {p q : ι}

/-- The object is reached from a root along edges. -/
inductive Reached (root : ι → Prop) (edge : ι → ι → Prop) : ι → Prop
  | root {p : ι} : root p → Reached root edge p
  | edge {p q : ι} : Reached root edge q → edge q p → Reached root edge p

namespace Reached

/-- **What has the roots and is closed under the edges has all that is reached.** -/
theorem of_closed {S : ι → Prop} (h : Reached root edge p) (hroot : ∀ p, root p → S p)
    (hedge : ∀ q p, S q → edge q p → S p) : S p := by
  induction h with
  | root hp => exact hroot _ hp
  | edge _ hp ih => exact hedge _ _ ih hp

theorem mono (h : Reached root edge p) (hroot : ∀ p, root p → root' p)
    (hedge : ∀ q p, edge q p → edge' q p) : Reached root' edge' p :=
  h.of_closed (fun _ hp => .root (hroot _ hp)) fun _ _ hq hp => hq.edge (hedge _ _ hp)

/-- **Nothing is reached again**: each new root, and each new edge of an object that was reached or
is new, leads to an object that was reached or is new. -/
theorem changed {new : ι → Prop} (h : Reached root' edge' p)
    (hroot : ∀ p, root' p → Reached root edge p ∨ new p)
    (hedge : ∀ q p, edge' q p → edge q p ∨ Reached root edge p ∨ new p)
    (hnew : ∀ q p, new q → ¬ edge q p) : Reached root edge p ∨ new p := by
  refine h.of_closed hroot fun q p hq hp => ?_
  rcases hedge q p hp with hold | hp
  · rcases hq with hq | hq
    · exact .inl (hq.edge hold)
    · exact absurd hold (hnew q p hq)
  · exact hp

end Reached

/-- What is not in a closed set is not reached. -/
theorem not_reached {S : ι → Prop} (hroot : ∀ p, root p → S p) (hedge : ∀ q p, S q → edge q p → S p)
    (hp : ¬ S p) : ¬ Reached root edge p :=
  fun h => hp (h.of_closed hroot hedge)

/-- **What counting destroys**: an object that is no root, when all the objects that own it are
destroyed. -/
inductive Released (root : ι → Prop) (edge : ι → ι → Prop) : ι → Prop
  | intro {p : ι} : ¬ root p → (∀ q, edge q p → Released root edge q) → Released root edge p

theorem Released.not_reached (h : Released root edge p) : ¬ Reached root edge p := by
  induction h with
  | intro hroot _ ih =>
    intro hp
    cases hp with
    | root hp => exact hroot hp
    | edge hq hp => exact ih _ hp hq

/-- Counting does not destroy what owns itself. -/
theorem Released.irrefl (h : Released root edge p) : ¬ edge p p := by
  induction h with
  | intro _ _ ih => exact fun hp => ih _ hp hp

/-- **Counting destroys exactly what is not reached**, when no chain of owners goes back for
ever. -/
theorem released_iff (wf : WellFounded edge) : Released root edge p ↔ ¬ Reached root edge p := by
  refine ⟨Released.not_reached, fun hp => ?_⟩
  induction p using wf.induction with
  | _ p ih => exact ⟨fun hroot => hp (.root hroot), fun q hq => ih q hq fun h => hp (h.edge hq)⟩

end Arcana.Foundations
