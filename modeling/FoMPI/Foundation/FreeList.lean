import Mathlib.Data.List.Perm.Basic
import Mathlib.Data.List.Nodup
import Mathlib.Tactic.Common

/-!
# Free lists

A set of names is shared out between a free list and those that have been handed out. A name is
taken from the front of the free list, goes back to its front, and new names are added when the
list is empty.
-/
namespace FoMPI.Foundation

variable {α : Type*} {names free live new : List α} {i : α}

/-- Every name is on the free list or live, once. -/
structure SharedOut (names free live : List α) : Prop where
  distinct : names.Nodup
  perm : (free ++ live).Perm names

namespace SharedOut

theorem nodup (h : SharedOut names free live) : (free ++ live).Nodup := h.perm.nodup_iff.mpr h.distinct

theorem free_nodup (h : SharedOut names free live) : free.Nodup := h.nodup.of_append_left

theorem live_nodup (h : SharedOut names free live) : live.Nodup := h.nodup.of_append_right

theorem disjoint (h : SharedOut names free live) : free.Disjoint live := List.disjoint_of_nodup_append h.nodup

theorem mem_iff (h : SharedOut names free live) : i ∈ names ↔ i ∈ free ∨ i ∈ live := by
  rw [← h.perm.mem_iff, List.mem_append]

theorem length (h : SharedOut names free live) : free.length + live.length = names.length := by
  rw [← List.length_append, h.perm.length_eq]

/-- The front of the free list is handed out. -/
theorem take (h : SharedOut names (i :: free) live) : SharedOut names free (i :: live) :=
  ⟨h.distinct, List.perm_middle.trans h.perm⟩

variable [DecidableEq α]

/-- A live name is given back. -/
theorem giveBack (h : SharedOut names free live) (held : i ∈ live) :
    SharedOut names (i :: free) (live.erase i) := by
  refine ⟨h.distinct, List.Perm.trans ?_ h.perm⟩
  exact List.perm_middle.symm.trans ((List.perm_cons_erase held).symm.append_left free)

omit [DecidableEq α] in
/-- With nothing free, one of the new names is handed out and the others are free. -/
theorem grow (h : SharedOut names [] live) (distinct : (names ++ i :: new).Nodup) :
    SharedOut (names ++ i :: new) new (i :: live) := by
  refine ⟨distinct, ?_⟩
  have handed : (new ++ i :: live).Perm (live ++ i :: new) :=
    List.perm_middle.trans ((List.perm_append_comm.cons i).trans List.perm_middle.symm)
  exact handed.trans (h.perm.append_right (i :: new))

end SharedOut

end FoMPI.Foundation
