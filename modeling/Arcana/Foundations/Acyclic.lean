import Mathlib.Logic.Relation
import Mathlib.Order.WellFoundedSet

/-!
# Relations without cycles

A relation is shown to have no cycle by taking it apart. A cycle does not leave a closed set, so
that the relation inside of the set and the one outside can be looked at apart
(`Acyclic.of_closed`); a cycle does not change a measure that no edge increases
(`Acyclic.of_measure`). An element may take over what another one is related to when it is not met
from there (`Acyclic.adopt`). On finitely many elements, a relation without cycles is well-founded
(`Acyclic.wellFounded`).
-/

namespace Arcana.Foundations

open Relation

variable {ι α : Type*} {r r' d : ι → ι → Prop} {S : ι → Prop} {a b : ι}

/-- No element is related to itself in one or more steps. -/
def Acyclic (r : ι → ι → Prop) : Prop := ∀ a, ¬ TransGen r a a

namespace Acyclic

theorem mono (h : Acyclic r) (hr : ∀ a b, r' a b → r a b) : Acyclic r' :=
  fun a ha => h a (TransGen.mono hr _ _ ha)

/-- A relation that relates nothing. -/
theorem of_empty (h : ∀ a b, ¬ r a b) : Acyclic r := by
  intro a ha
  obtain ⟨b, hab, -⟩ := TransGen.head'_iff.1 ha
  exact h a b hab

/-- **A cycle lies inside of a closed set, or outside.** -/
theorem of_closed (closed : ∀ a b, S a → r a b → S b) (inside : Acyclic fun a b => S a ∧ r a b)
    (outside : Acyclic fun a b => ¬ S a ∧ ¬ S b ∧ r a b) : Acyclic r := by
  have within {a b : ι} (ha : S a) (hab : TransGen r a b) :
      S b ∧ TransGen (fun a b => S a ∧ r a b) a b := by
    induction hab with
    | single h => exact ⟨closed _ _ ha h, .single ⟨ha, h⟩⟩
    | tail _ h ih => exact ⟨closed _ _ ih.1 h, ih.2.tail ⟨ih.1, h⟩⟩
  have without {a b : ι} (hb : ¬ S b) (hab : TransGen r a b) :
      TransGen (fun a b => ¬ S a ∧ ¬ S b ∧ r a b) a b := by
    induction hab using TransGen.head_induction_on with
    | single h => exact .single ⟨fun ha => hb (closed _ _ ha h), hb, h⟩
    | head h hcb ih => exact .head ⟨fun ha => hb (within (closed _ _ ha h) hcb).1,
        fun hc => hb (within hc hcb).1, h⟩ ih
  intro a ha
  by_cases hS : S a
  · exact inside a (within hS ha).2
  · exact outside a (without hS ha)

/-- **No edge increases the measure**, and those that keep it are edges of a relation without
cycles. -/
theorem of_measure [Preorder α] {f : ι → α} (hd : Acyclic d)
    (hr : ∀ a b, r a b → f b < f a ∨ f b = f a ∧ d a b) : Acyclic r := by
  have along {a b : ι} (h : TransGen r a b) : f b < f a ∨ f b = f a ∧ TransGen d a b := by
    induction h with
    | single h => exact (hr _ _ h).imp_right fun h => ⟨h.1, .single h.2⟩
    | tail _ h ih =>
      rcases hr _ _ h with hlt | ⟨heq, hd⟩
      · rcases ih with hlt' | ⟨heq', -⟩
        · exact .inl (hlt.trans hlt')
        · exact .inl (heq' ▸ hlt)
      · rw [heq]
        exact ih.imp_right fun h => ⟨h.1, h.2.tail hd⟩
  intro a ha
  rcases along ha with hlt | ⟨-, h⟩
  · exact lt_irrefl _ hlt
  · exact hd a h

/-- **`b` takes over what `a` is related to.** It closes no cycle when `b` is not `a` and not met
from there. -/
theorem adopt (h : Acyclic r) (hb : ¬ ReflTransGen r a b)
    (hr : ∀ x y, r' x y → r x y ∨ x = b ∧ r a y) : Acyclic r' := by
  have along {x y : ι} (hxy : TransGen r' x y) :
      TransGen r x y ∨ ReflTransGen r x b ∧ TransGen r a y := by
    induction hxy with
    | single hxy =>
      rcases hr _ _ hxy with hxy | ⟨rfl, hay⟩
      · exact .inl (.single hxy)
      · exact .inr ⟨.refl, .single hay⟩
    | tail _ hyz ih =>
      rcases hr _ _ hyz with hyz | ⟨rfl, haz⟩
      · exact ih.imp (·.tail hyz) fun h => ⟨h.1, h.2.tail hyz⟩
      · rcases ih with hxb | ⟨-, hab⟩
        · exact .inr ⟨hxb.to_reflTransGen, .single haz⟩
        · exact absurd hab.to_reflTransGen hb
  intro x hx
  rcases along hx with hx | ⟨hxb, hax⟩
  · exact h x hx
  · exact hb (hax.to_reflTransGen.trans hxb)

/-- **Finitely many elements that are related to something**: nothing goes back for ever. -/
theorem wellFounded (h : Acyclic r) (hfin : {a | ∃ b, r a b}.Finite) : WellFounded r := by
  have : IsStrictOrder ι (TransGen r) := { irrefl := h, trans := fun _ _ _ => TransGen.trans }
  refine ⟨fun a => (Set.WellFoundedOn.acc_iff_wellFoundedOn.out 0 2).2 ?_⟩
  refine hfin.wellFoundedOn.mono (fun _ _ => TransGen.single) fun b hb => ?_
  obtain ⟨c, hbc, -⟩ := TransGen.head'_iff.1 hb
  exact ⟨c, hbc⟩

end Acyclic

end Arcana.Foundations
