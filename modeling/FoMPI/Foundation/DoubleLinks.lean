import FoMPI.Foundation.Links

/-!
# Doubly linked lists in a store

Two successor functions that list the same cells in opposite orders. Everything is
symmetric in the two, so what an operation does at one end it does, with the roles
exchanged, at the other.
-/
namespace FoMPI.Foundation

variable {α : Type*}

/-- The link of a cell, if there is one, is overwritten. -/
def relink [DecidableEq α] (f : α → Option α) (m : Option α) : Option α → α → Option α
  | some b => Function.update f b m
  | none => f

/-- An end of the list stays where it is if there is a neighbour on that side. -/
def anchor (stay move : Option α) : Option α → Option α
  | some _ => stay
  | none => move

section Ends
variable {m stay move : Option α} {b : α}

@[simp] theorem relink_none [DecidableEq α] (f : α → Option α) : relink f m none = f := rfl

@[simp] theorem relink_some [DecidableEq α] (f : α → Option α) :
    relink f m (some b) = Function.update f b m := rfl

@[simp] theorem anchor_none : anchor stay move none = move := rfl

@[simp] theorem anchor_some : anchor stay move (some b) = stay := rfl

end Ends

namespace Path

variable {next : α → Option α} {p q m : Option α} {as front back : List α} {a b : α}

theorem start_eq_head? (h : Path next p as none) : p = as.head? := by
  cases as with
  | nil => exact h
  | cons a as => exact h.1

variable [DecidableEq α]

/-- Taking the cell `a` out: its predecessor, or the start, goes on behind it. -/
theorem remove (h : Path next p (front ++ a :: back) none) (distinct : (front ++ a :: back).Nodup) :
    Path (relink next (next a) front.getLast?) (anchor p (next a) front.getLast?) (front ++ back) none := by
  obtain ⟨before, behind⟩ := h.split
  obtain rfl | ⟨rest, b, rfl⟩ := List.eq_nil_or_concat front
  · exact behind
  · rw [List.concat_eq_append] at before distinct ⊢
    rw [List.nodup_append] at distinct
    have off : b ∉ back := fun mem => distinct.2.2 b (by simp) b (List.mem_cons_of_mem _ mem) rfl
    simp only [List.getLast?_concat]
    exact append_iff.mpr ⟨next a, before.update_last distinct.1, behind.update_of_notMem off⟩

end Path

/-- The cells `as` from `head` to `tail`. -/
structure Linked (next prev : α → Option α) (head tail : Option α) (as : List α) : Prop where
  forward : Path next head as none
  backward : Path prev tail as.reverse none
  distinct : as.Nodup

namespace Linked

variable {next prev : α → Option α} {head tail : Option α} {as front back : List α} {a b : α}

theorem nil : Linked next prev none none [] := ⟨rfl, rfl, List.nodup_nil⟩

theorem symm (h : Linked next prev head tail as) : Linked prev next tail head as.reverse :=
  ⟨h.backward, by rw [List.reverse_reverse]; exact h.forward, List.nodup_reverse.mpr h.distinct⟩

theorem head_eq (h : Linked next prev head tail as) : head = as.head? := h.forward.start_eq_head?

theorem tail_eq (h : Linked next prev head tail as) : tail = as.getLast? := by
  rw [h.backward.start_eq_head?, List.head?_reverse]

/-- The neighbours of a cell. -/
theorem next_eq (h : Linked next prev head tail (front ++ a :: back)) : next a = back.head? :=
  h.forward.split.2.start_eq_head?

theorem prev_eq (h : Linked next prev head tail (front ++ a :: back)) : prev a = front.getLast? := by
  have flipped := h.symm
  rw [List.reverse_append, List.reverse_cons, List.append_assoc, List.singleton_append] at flipped
  rw [flipped.next_eq, List.head?_reverse]

/-- Only the links of the cells in the list matter. -/
theorem frame (h : Linked next prev head tail as) {next' prev' : α → Option α}
    (same : ∀ b ∈ as, next' b = next b) (same' : ∀ b ∈ as, prev' b = prev b) :
    Linked next' prev' head tail as :=
  ⟨h.forward.frame same, h.backward.frame fun b hb => same' b (List.mem_reverse.mp hb), h.distinct⟩

variable [DecidableEq α]

/-- A new cell in front. -/
theorem push (h : Linked next prev head tail as) (fresh : a ∉ as) :
    Linked (Function.update next a head) (Function.update (relink prev (some a) head) a none) (some a)
      (anchor tail (some a) head) (a :: as) := by
  refine ⟨⟨rfl, ?_⟩, ?_, List.nodup_cons.mpr ⟨fresh, h.distinct⟩⟩
  · rw [Function.update_self]
    exact h.forward.update_of_notMem fresh
  · rw [List.reverse_cons]
    have off : a ∉ as.reverse := fun mem => fresh (List.mem_reverse.mp mem)
    refine Path.append_iff.mpr ⟨some a, ?_, rfl, Function.update_self _ _ _⟩
    cases as with
    | nil =>
      rw [h.head_eq]
      rfl
    | cons b as =>
      have backward := h.backward
      have distinct := List.nodup_reverse.mpr h.distinct
      rw [List.reverse_cons] at backward distinct off
      rw [h.head_eq, List.reverse_cons]
      exact (backward.update_last distinct).update_of_notMem off

/-- Taking out any cell, wherever it is. -/
theorem remove (h : Linked next prev head tail (front ++ a :: back)) :
    Linked (relink next (next a) front.getLast?) (relink prev (prev a) back.head?)
      (anchor head (next a) front.getLast?) (anchor tail (prev a) back.head?) (front ++ back) := by
  have flipped := h.backward
  have distinct := List.nodup_reverse.mpr h.distinct
  rw [List.reverse_append, List.reverse_cons, List.append_assoc, List.singleton_append] at flipped distinct
  have behind := flipped.remove distinct
  rw [List.getLast?_reverse, ← List.reverse_append] at behind
  refine ⟨h.forward.remove h.distinct, behind, ?_⟩
  exact h.distinct.sublist (List.Sublist.append_left (List.sublist_cons_self _ _) _)

end Linked

end FoMPI.Foundation
