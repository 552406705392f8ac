import FoMPI.Foundation.Bytes
import FoMPI.Foundation.Gathering

/-!
# Gather and scatter

The values at some places are written to other places, one after the other. What was gathered from
a list of places and is scattered over the same list is a copy of these places, also where one of
them is listed twice.
-/
namespace FoMPI.Foundation

section Scatter
variable {κ β : Type*} [DecidableEq κ] {m f : κ → β} {x : κ} {xs ys : List κ} {bs cs : List β}

/-- The memory with the values `bs` at the places `xs`, which are written in this order. -/
def scatter (m : κ → β) : List κ → List β → κ → β
  | x :: xs, b :: bs => scatter (Function.update m x b) xs bs
  | _, _ => m

@[simp] theorem scatter_nil : scatter m [] bs = m := rfl

@[simp] theorem scatter_cons {b : β} : scatter m (x :: xs) (b :: bs) = scatter (Function.update m x b) xs bs := rfl

theorem scatter_append (same : xs.length = bs.length) :
    scatter m (xs ++ ys) (bs ++ cs) = scatter (scatter m xs bs) ys cs := by
  induction xs generalizing m bs with
  | nil =>
    obtain rfl := List.eq_nil_of_length_eq_zero same.symm
    rfl
  | cons x xs ih =>
    cases bs with
    | nil => simp at same
    | cons b bs =>
      rw [List.cons_append, List.cons_append, scatter_cons, scatter_cons]
      exact ih (by simpa using same)

theorem scatter_outside (outside : x ∉ xs) : scatter m xs bs x = m x := by
  induction xs generalizing m bs with
  | nil => rfl
  | cons y xs ih =>
    obtain ⟨other, outside⟩ := not_or.mp (mt List.mem_cons.mpr outside)
    cases bs with
    | nil => rfl
    | cons b bs => rw [scatter_cons, ih outside, Function.update_of_ne other]

/-- What was gathered is copied. -/
theorem scatter_map (inside : x ∈ xs) : scatter m xs (xs.map f) x = f x := by
  induction xs generalizing m with
  | nil => exact absurd inside List.not_mem_nil
  | cons y xs ih =>
    rw [List.map_cons, scatter_cons]
    by_cases again : x ∈ xs
    · exact ih again
    · obtain rfl := (List.mem_cons.mp inside).resolve_right again
      rw [scatter_outside again, Function.update_self]

/-- What was scattered is gathered again, if no place is written twice. -/
theorem map_scatter (nodup : xs.Nodup) (same : xs.length = bs.length) : xs.map (scatter m xs bs) = bs := by
  induction xs generalizing m bs with
  | nil => exact (List.eq_nil_of_length_eq_zero same.symm).symm
  | cons x xs ih =>
    obtain ⟨once, nodup⟩ := List.nodup_cons.mp nodup
    cases bs with
    | nil => simp at same
    | cons b bs =>
      rw [scatter_cons, List.map_cons, scatter_outside once, Function.update_self, ih nodup (by simpa using same)]

end Scatter

section Blocks
variable {β : Type*} {m m' : ℤ → β} {a x : ℤ} {n : ℕ} {bs : List β}

/-- A load gathers the cells of a block. -/
theorem load_eq_map : load m a n = (Block.mk a n).bytes.map m := by
  induction n generalizing a with
  | zero => rfl
  | succ n ih => rw [load, ih, Block.cons_bytes, List.map_cons]

/-- A store scatters over the cells of a block. -/
theorem store_eq_scatter : store m a bs = scatter m (Block.mk a bs.length).bytes bs := by
  induction bs generalizing a m with
  | nil => rfl
  | cons b bs ih => rw [store, List.length_cons, Block.cons_bytes, scatter_cons, ← ih, store_update (by omega)]

/-- A copy from another memory. -/
theorem store_load_inside {b : ℤ} {k : ℕ} (inside : k < n) : store m a (load m' b n) (a + k) = m' (b + k) := by
  have cells : (Block.mk b n).bytes.map m' = (Block.mk a n).bytes.map fun x => m' (b + (x - a)) := by
    simp [Block.bytes, Function.comp_def]
  have mem : a + (k : ℤ) ∈ (Block.mk a n).bytes := List.mem_map_of_mem (List.mem_range.mpr inside)
  rw [store_eq_scatter, load_length, load_eq_map, cells, scatter_map mem, add_sub_cancel_left]

end Blocks

end FoMPI.Foundation
