import Mathlib.Data.List.Nodup
import Mathlib.Logic.Function.Basic
import Mathlib.Tactic.Common

/-!
# Singly linked lists in a store

`Path next p as e` says that following `next` from the pointer `p` meets the
cells `as` in this order and then arrives at the pointer `e`. A list in the usual
sense is a path that arrives at the null pointer. Everything here is about the
successor function alone, so it can be read at any store that has such a field.
-/
namespace FoMPI.Foundation

variable {α : Type*}

/-- The cells met from `p` on, and the pointer behind the last of them. -/
def Path (next : α → Option α) : Option α → List α → Option α → Prop
  | p, [], e => p = e
  | p, a :: as, e => p = some a ∧ Path next (next a) as e

namespace Path

variable {next next' : α → Option α} {p e m : Option α} {as bs : List α} {a b c : α}

@[simp] theorem nil_iff : Path next p [] e ↔ p = e := Iff.rfl

@[simp] theorem cons_iff : Path next p (a :: as) e ↔ p = some a ∧ Path next (next a) as e := Iff.rfl

theorem append_iff : Path next p (as ++ bs) e ↔ ∃ m, Path next p as m ∧ Path next m bs e := by
  induction as generalizing p with
  | nil => simp
  | cons a as ih => simp only [List.cons_append, cons_iff, ih, and_assoc, exists_and_left]

/-- Only the successors of the cells on the path matter. -/
theorem frame (h : Path next p as e) (agree : ∀ a ∈ as, next' a = next a) : Path next' p as e := by
  induction as generalizing p with
  | nil => exact h
  | cons a as ih =>
    refine ⟨h.1, ?_⟩
    rw [agree a (by simp)]
    exact ih h.2 fun b hb => agree b (by simp [hb])

/-- A path that arrives at null is determined by where it starts. -/
theorem unique (h : Path next p as none) (h' : Path next p bs none) : as = bs := by
  induction as generalizing p bs with
  | nil =>
    cases bs with
    | nil => rfl
    | cons b bs => simp [nil_iff.mp h] at h'
  | cons a as ih =>
    cases bs with
    | nil => simp [nil_iff.mp h'] at h
    | cons b bs =>
      obtain rfl : a = b := Option.some.inj (h.1.symm.trans h'.1)
      rw [ih h.2 h'.2]

/-- The cells behind a cell of the path. -/
theorem split (h : Path next p (as ++ a :: bs) e) : Path next p as (some a) ∧ Path next (next a) bs e := by
  obtain ⟨m, front, rfl, rest⟩ := append_iff.mp h
  exact ⟨front, rest⟩

/-- A path that ends nowhere and starts at a cell begins with this cell. -/
theorem eq_cons (h : Path next (some a) as none) : ∃ bs, as = a :: bs := by
  cases as with
  | nil => contradiction
  | cons b bs =>
    obtain rfl := Option.some.inj h.1
    exact ⟨bs, rfl⟩

variable [DecidableEq α]

/-- Overwriting the successor of a cell that is not on the path. -/
theorem update_of_notMem (h : Path next p as e) (off : a ∉ as) :
    Path (Function.update next a m) p as e :=
  h.frame fun _ hb => Function.update_of_ne (ne_of_mem_of_not_mem hb off) _ _

/-- Overwriting the successor of the last cell redirects the end. -/
theorem update_last (h : Path next p (as ++ [a]) e) (distinct : (as ++ [a]).Nodup) :
    Path (Function.update next a m) p (as ++ [a]) m := by
  obtain ⟨front, -⟩ := h.split
  refine append_iff.mpr ⟨some a, front.update_of_notMem ?_, by simp⟩
  intro mem
  exact (List.nodup_append.mp distinct).2.2 a mem a (by simp) rfl

/-- Unlinking the cell `b` behind `a`. -/
theorem unlink (h : Path next p (as ++ a :: b :: bs) e) (distinct : (as ++ a :: b :: bs).Nodup) :
    Path (Function.update next a (next b)) p (as ++ a :: bs) e := by
  obtain ⟨front, -, rest⟩ := h.split
  have off : a ∉ as ∧ a ∉ bs := by
    simp only [List.nodup_append, List.nodup_cons, List.mem_cons, not_or] at distinct
    exact ⟨fun mem => distinct.2.2 a mem a (.inl rfl) rfl, distinct.2.1.1.2⟩
  refine append_iff.mpr ⟨some a, front.update_of_notMem off.1, rfl, ?_⟩
  rw [Function.update_self]
  exact rest.update_of_notMem off.2

end Path

end FoMPI.Foundation
