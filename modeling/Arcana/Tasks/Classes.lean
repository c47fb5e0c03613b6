import Mathlib.Logic.Function.Basic
import Arcana.Tasks.Payload

/-!
# Classes of payloads

What payloads with redirects are for, with no redirect in sight: the payloads fall into classes,
each class has one list of waiting continuations, and once it is completed one result. Registering a
continuation on a payload appends it to the list of the class, or dispatches it when the class is
completed. Collapsing a payload into another one merges their classes, the list of the left behind
the list of the right. Completing a class dispatches its list in order. A payload that was collapsed
gave its class away: it refuses a second collapse and a completion of its own, as a completed one
does.

* `Operation` are the operations on payloads, and `Outcome` what is seen of one.
* `Classes` are the classes, `Classes.perform` performs an operation and `Classes.merge` is a
  collapse.
* `Classes.Legal` says what is asked of the callers, and is decidable.
-/

namespace Arcana.Tasks

open Function

variable {V E : Type*}

/-- The operations on payloads, performed one after another. -/
inductive Operation (V E : Type*)
  | createContinuation (p : ℕ) (scheduler : Scheduler) (continuation : ℕ)
  | complete (p : ℕ) (r : Expected V E)
  | collapseLeftIntoRight (left right : ℕ)

/-- What an operation dispatches, each continuation with the result it reads, or the exception. -/
abbrev Outcome (R : Type*) := Except RuntimeError (List (ℕ × R))

/-- The classes: the class of each payload, the waiting list and the result of each class, and the
payloads that were collapsed. -/
structure Classes (V E : Type*) where
  cls : ℕ → ℕ
  waiting : ℕ → List ℕ
  result : ℕ → Option (Expected V E)
  collapsed : ℕ → Bool

namespace Classes

/-- Every payload is alone, with nothing waiting. -/
def initial : Classes V E where
  cls := id
  waiting _ := []
  result _ := none
  collapsed _ := false

/-- The class of `left` becomes part of the class of `right`. -/
def merge (σ : Classes V E) (left right : ℕ) (waiting : List ℕ) : Classes V E where
  cls p := if σ.cls p = σ.cls left then σ.cls right else σ.cls p
  waiting := update (update σ.waiting (σ.cls left) []) (σ.cls right) waiting
  result := σ.result
  collapsed := update σ.collapsed left true

/-- One operation on the classes. -/
def perform (σ : Classes V E) : Operation V E → Classes V E × Outcome (Expected V E)
  | .createContinuation p _ c =>
    match σ.result (σ.cls p) with
    | some r => (σ, .ok [(c, r)])
    | none =>
      ({ σ with waiting := update σ.waiting (σ.cls p) (σ.waiting (σ.cls p) ++ [c]) }, .ok [])
  | .complete p r =>
    if σ.collapsed p then (σ, .error .completedTwice)
    else
      ({ σ with
          waiting := update σ.waiting (σ.cls p) []
          result := update σ.result (σ.cls p) (some r) },
        .ok ((σ.waiting (σ.cls p)).map fun c => (c, r)))
  | .collapseLeftIntoRight left right =>
    if σ.collapsed left || (σ.result (σ.cls left)).isSome then (σ, .error .completedTwice)
    else
      match σ.result (σ.cls right) with
      | some r =>
        (σ.merge left right [], .ok ((σ.waiting (σ.cls left)).map fun c => (c, r)))
      | none =>
        (σ.merge left right (σ.waiting (σ.cls right) ++ σ.waiting (σ.cls left)), .ok [])

/-- The operations of the specification: a class is completed once, and no payload is collapsed into
its own class. -/
def Legal (σ : Classes V E) : Operation V E → Prop
  | .createContinuation _ _ _ => True
  | .complete p _ => σ.result (σ.cls p) = none
  | .collapseLeftIntoRight left right => σ.cls left ≠ σ.cls right

/-- Every operation is legal when it is performed. -/
def LegalAll (σ : Classes V E) : List (Operation V E) → Prop
  | [] => True
  | op :: ops => σ.Legal op ∧ (σ.perform op).1.LegalAll ops

instance (σ : Classes V E) : DecidablePred σ.Legal
  | .createContinuation _ _ _ => .isTrue trivial
  | .complete p _ => inferInstanceAs (Decidable (σ.result (σ.cls p) = none))
  | .collapseLeftIntoRight left right => inferInstanceAs (Decidable (σ.cls left ≠ σ.cls right))

instance decidableLegalAll : (σ : Classes V E) → DecidablePred σ.LegalAll
  | _, [] => .isTrue trivial
  | σ, op :: ops =>
    have := decidableLegalAll (σ.perform op).1 ops
    inferInstanceAs (Decidable (σ.Legal op ∧ (σ.perform op).1.LegalAll ops))

/-- The operations one after another, with their outcomes. -/
def performAll (σ : Classes V E) : List (Operation V E) → List (Outcome (Expected V E))
  | [] => []
  | op :: ops => (σ.perform op).2 :: (σ.perform op).1.performAll ops

end Classes

end Arcana.Tasks
