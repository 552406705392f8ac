import Mathlib.Data.List.Basic
import Mathlib.Data.List.Perm.Basic
import Mathlib.Tactic.Common

/-!
# Selective removal from a queue

A queue is a list, oldest item first. Removing the first item that satisfies a
predicate leaves the order of the others alone.
-/
namespace FoMPI.Foundation

variable {α : Type*} {p q : α → Bool} {xs ys : List α} {x : α}

def removeFirst (p : α → Bool) : List α → Option (α × List α)
  | [] => none
  | x :: xs => if p x then some (x, xs) else (removeFirst p xs).map fun r => (r.1, x :: r.2)

theorem removeFirst_eq_some (h : removeFirst p xs = some (x, ys)) : ∃ front back,
    xs = front ++ x :: back ∧ ys = front ++ back ∧ p x = true ∧ ∀ y ∈ front, p y = false := by
  induction xs generalizing ys with
  | nil => contradiction
  | cons z zs ih =>
    rw [removeFirst] at h
    split at h
    · rename_i hit
      cases h
      exact ⟨[], zs, rfl, rfl, hit, by simp⟩
    · rename_i miss
      obtain ⟨⟨w, rest⟩, found, eq⟩ := Option.map_eq_some_iff.mp h
      cases eq
      obtain ⟨front, back, rfl, rfl, hit, skipped⟩ := ih found
      refine ⟨z :: front, back, rfl, rfl, hit, ?_⟩
      simpa [Bool.not_eq_true] using ⟨Bool.not_eq_true _ ▸ miss, skipped⟩

theorem removeFirst_eq_none (h : removeFirst p xs = none) : ∀ y ∈ xs, p y = false := by
  induction xs with
  | nil => simp
  | cons z zs ih =>
    rw [removeFirst] at h
    split at h
    · contradiction
    · rename_i miss
      have rest := ih (Option.map_eq_none_iff.mp h)
      intro y hy
      obtain rfl | hy := List.mem_cons.mp hy
      · exact Bool.not_eq_true _ ▸ miss
      · exact rest y hy

theorem removeFirst_length (h : removeFirst p xs = some (x, ys)) : ys.length + 1 = xs.length := by
  obtain ⟨front, back, rfl, rfl, -, -⟩ := removeFirst_eq_some h
  simp only [List.length_append, List.length_cons]
  omega

/-- A removal lowers the number of items that satisfy the predicate by one. -/
theorem removeFirst_countP (h : removeFirst p xs = some (x, ys)) : ys.countP p + 1 = xs.countP p := by
  obtain ⟨front, back, rfl, rfl, hit, -⟩ := removeFirst_eq_some h
  simp only [List.countP_append, List.countP_cons, hit, if_true]
  omega

theorem removeFirst_countP_zero (h : removeFirst p xs = none) : xs.countP p = 0 := by
  apply List.countP_eq_zero.mpr
  intro y hy
  simp [removeFirst_eq_none h y hy]

/-- A queue is searched from its front. -/
theorem removeFirst_append {front back : List α} (hit : p x = true) (misses : ∀ y ∈ front, p y = false) :
    removeFirst p (front ++ x :: back) = some (x, front ++ back) := by
  induction front with
  | nil => exact if_pos hit
  | cons y front ih =>
    have here := misses y List.mem_cons_self
    rw [List.cons_append, removeFirst, ih fun z hz => misses z (List.mem_cons_of_mem _ hz)]
    simp [here]

theorem removeFirst_of_misses (misses : ∀ y ∈ xs, p y = false) : removeFirst p xs = none := by
  cases found : removeFirst p xs with
  | none => rfl
  | some r =>
    obtain ⟨front, back, rfl, -, hit, -⟩ := removeFirst_eq_some found
    rw [misses r.1 (by simp)] at hit
    contradiction

theorem removeFirst_map {β : Type*} (f : β → α) (ys : List β) :
    removeFirst p (ys.map f) = (removeFirst (fun y => p (f y)) ys).map fun r => (f r.1, r.2.map f) := by
  induction ys with
  | nil => rfl
  | cons y ys ih =>
    rw [List.map_cons, removeFirst, removeFirst, ih]
    split
    · rfl
    · simp only [Option.map_map, Function.comp_def, List.map_cons]

theorem removeFirst_congr (same : ∀ y, p y = q y) (xs : List α) :
    removeFirst p xs = removeFirst q xs := by
  rw [funext same]

end FoMPI.Foundation
