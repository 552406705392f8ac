import Mathlib.Order.Basic
import Mathlib.Tactic.Common

/-!
# Straight-line programs under an abstraction

What is known of a machine before an instruction is an element of a preorder, in which
more is known higher up. An abstraction says with which knowledge an instruction is
safe, what is known after it, and when a program may end. A program leads on from some
knowledge if each of its instructions is safe with what is known when it is reached;
it keeps the rest if it leads from rest to rest, and such programs compose.
-/
namespace FoMPI.Foundation

structure Abstraction (κ ι : Type*) [Preorder κ] where
  rest : κ → Prop
  safe : κ → ι → Prop
  after : κ → ι → κ
  rest_mono : ∀ {k k'}, k ≤ k' → rest k → rest k'
  safe_mono : ∀ {k k' i}, k ≤ k' → safe k i → safe k' i
  after_mono : ∀ {k k' i}, k ≤ k' → after k i ≤ after k' i

namespace Abstraction
variable {κ ι α : Type*} [Preorder κ] (A : Abstraction κ ι)

/-- Every instruction is safe when it is reached, and the program ends at rest. -/
def Leads : κ → List ι → Prop
  | k, [] => A.rest k
  | k, i :: p => A.safe k i ∧ Leads (A.after k i) p

/-- A program that can be run whenever the machine rests. -/
def Keeps (p : List ι) : Prop := ∀ k, A.rest k → A.Leads k p

variable {A} {k k' : κ} {p q : List ι}

@[simp] theorem leads_nil : A.Leads k [] ↔ A.rest k := Iff.rfl

@[simp] theorem leads_cons {i : ι} : A.Leads k (i :: p) ↔ A.safe k i ∧ A.Leads (A.after k i) p := Iff.rfl

/-- Knowing more does no harm. -/
theorem Leads.mono (le : k ≤ k') (h : A.Leads k p) : A.Leads k' p := by
  induction p generalizing k k' with
  | nil => exact A.rest_mono le h
  | cons i p ih => exact ⟨A.safe_mono le h.1, ih (A.after_mono le) h.2⟩

theorem Leads.append (h : A.Leads k p) (next : A.Keeps q) : A.Leads k (p ++ q) := by
  induction p generalizing k with
  | nil => exact next k h
  | cons i p ih => exact ⟨h.1, ih h.2⟩

namespace Keeps

theorem nil : A.Keeps [] := fun _ rest => rest

theorem append (hp : A.Keeps p) (hq : A.Keeps q) : A.Keeps (p ++ q) :=
  fun k rest => (hp k rest).append hq

theorem ite {c : Prop} [Decidable c] (hp : c → A.Keeps p) (hq : ¬c → A.Keeps q) :
    A.Keeps (if c then p else q) := by
  split
  · exact hp ‹_›
  · exact hq ‹_›

/-- A program put together from one for each element of a list. -/
theorem flatMap {xs : List α} {f : α → List ι} (each : ∀ x ∈ xs, A.Keeps (f x)) :
    A.Keeps (xs.flatMap f) := by
  induction xs with
  | nil => exact nil
  | cons x xs ih =>
    rw [List.flatMap_cons]
    exact (each x List.mem_cons_self).append (ih fun y hy => each y (List.mem_cons_of_mem _ hy))

end Keeps

end Abstraction

end FoMPI.Foundation
