import Mathlib.Data.List.Perm.Basic
import Mathlib.Logic.Function.Basic
import Mathlib.Logic.OpClass

/-!
# Updates in any order

An update combines what is there with an operand. Where it commutes with the updates by
other operands, a run of updates leaves the same in every order. What is there may be seen
through an observation of a larger state.
-/
namespace FoMPI.Foundation

section Retract
variable {α β : Type*} {encode : α → β} {decode : β → α}

/-- A commutative semigroup on the codes of values, the result decoded after each operation. -/
theorem leftCommutative_retract (retract : Function.RightInverse decode encode) (m : β → β → β)
    [Std.Commutative m] [Std.Associative m] : LeftCommutative fun a b : α => decode (m (encode a) (encode b)) where
  left_comm a b c := by
    have assoc (x y z : β) : m (m x y) z = m x (m y z) := Std.Associative.assoc x y z
    have comm (x y : β) : m x y = m y x := Std.Commutative.comm x y
    rw [retract, retract, ← assoc, comm (encode a), assoc]

end Retract

section Observed
variable {σ α β γ : Type*} {step : σ → α → σ} (observe : σ → β) (operand : α → γ) {update : γ → β → β}
  (observed : ∀ s a, observe (step s a) = update (operand a) (observe s))
include observed

/-- The run as the observation goes through it. -/
theorem observe_foldl (as : List α) (s : σ) :
    observe (as.foldl step s) = as.foldl (fun b a => update (operand a) b) (observe s) := by
  induction as generalizing s with
  | nil => rfl
  | cons a as ih => rw [List.foldl_cons, ih, observed, List.foldl_cons]

/-- Updates that commute leave the same in any order. -/
theorem observe_foldl_perm [LeftCommutative update] {as bs : List α} (perm : as.Perm bs) (s : σ) :
    observe (as.foldl step s) = observe (bs.foldl step s) := by
  rw [observe_foldl observe operand observed, observe_foldl observe operand observed]
  exact perm.foldl_eq' (fun a _ b _ c => LeftCommutative.left_comm (operand b) (operand a) c) _

end Observed

end FoMPI.Foundation
