import Mathlib.Data.List.Basic
import Mathlib.Tactic.Common

/-!
# What holds at every place of a list

A condition on an element of a list and on what comes before it.
-/
namespace FoMPI.Foundation

variable {α : Type*} {Q : List α → α → Prop} {p : α} {ps : List α}

/-- `Q` holds of every element with the elements before it. -/
def AtEvery (ps : List α) (Q : List α → α → Prop) : Prop :=
  ∀ before p after, ps = before ++ p :: after → Q before p

theorem atEvery_nil : AtEvery [] Q := fun before p after split => by
  have := congrArg List.length split
  simp at this

theorem atEvery_cons : AtEvery (p :: ps) Q ↔ Q [] p ∧ AtEvery ps fun before => Q (p :: before) := by
  constructor
  · intro all
    exact ⟨all [] p ps rfl, fun before q after split => all (p :: before) q after (by rw [split, List.cons_append])⟩
  · rintro ⟨here, later⟩ before q after split
    cases before with
    | nil =>
      obtain ⟨rfl, rfl⟩ := List.cons.inj split
      exact here
    | cons r before =>
      obtain ⟨rfl, rfl⟩ := List.cons.inj split
      exact later before q after rfl

theorem atEvery_congr {Q' : List α → α → Prop} (same : ∀ before p, Q before p ↔ Q' before p) :
    AtEvery ps Q ↔ AtEvery ps Q' :=
  forall_congr' fun before => forall_congr' fun p => forall_congr' fun _ => imp_congr_right fun _ => same before p

end FoMPI.Foundation
