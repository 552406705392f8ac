import Mathlib.Algebra.Order.Ring.Int
import Mathlib.Data.List.Basic
import Mathlib.Logic.Function.Basic
import Mathlib.Tactic.Common

/-!
# Copies to and from a memory

A memory is a function on addresses. `load` and `store` are the two halves of a copy
between buffers that do not overlap.
-/
namespace FoMPI.Foundation

variable {β : Type*} {m : ℤ → β} {a x : ℤ} {bs cs : List β}

/-- The `n` cells from `a` on. -/
def load (m : ℤ → β) (a : ℤ) : ℕ → List β
  | 0 => []
  | n + 1 => m a :: load m (a + 1) n

/-- The memory with `bs` in the cells from `a` on. -/
def store (m : ℤ → β) (a : ℤ) : List β → ℤ → β
  | [] => m
  | b :: bs => Function.update (store m (a + 1) bs) a b

@[simp] theorem load_length (n : ℕ) : (load m a n).length = n := by
  induction n generalizing a with
  | zero => rfl
  | succ n ih => rw [load, List.length_cons, ih]

theorem load_congr {m' : ℤ → β} {n : ℕ} (same : ∀ y, a ≤ y → y < a + n → m' y = m y) :
    load m' a n = load m a n := by
  induction n generalizing a with
  | zero => rfl
  | succ n ih =>
    rw [load, load, same a le_rfl (by omega), ih fun y low high => same y (by omega) (by omega)]

theorem load_store : load (store m a bs) a bs.length = bs := by
  induction bs generalizing a with
  | nil => rfl
  | cons b bs ih =>
    have rest : load (store m a (b :: bs)) (a + 1) bs.length = load (store m (a + 1) bs) (a + 1) bs.length :=
      load_congr fun y low _ => Function.update_of_ne (by omega) _ _
    rw [List.length_cons, load, rest, ih, store, Function.update_self]

theorem load_append {n k : ℕ} : load m a (n + k) = load m a n ++ load m (a + n) k := by
  induction n generalizing a with
  | zero => simp [load]
  | succ n ih =>
    have shift : a + (n + 1 : ℕ) = a + 1 + n := by push_cast; omega
    rw [Nat.add_right_comm, load, load, ih, shift, List.cons_append]

theorem load_getElem? {n i : ℕ} (small : i < n) : (load m a n)[i]? = some (m (a + i)) := by
  induction n generalizing a i with
  | zero => omega
  | succ n ih =>
    cases i with
    | zero => simp [load]
    | succ i =>
      have shift : a + (i + 1 : ℕ) = a + 1 + i := by push_cast; omega
      rw [load, List.getElem?_cons_succ, ih (by omega), shift]

theorem store_outside (outside : x < a ∨ a + bs.length ≤ x) : store m a bs x = m x := by
  induction bs generalizing a with
  | nil => rfl
  | cons b bs ih =>
    rw [List.length_cons] at outside
    push_cast at outside
    rw [store, Function.update_of_ne (by omega), ih (by omega)]

theorem store_update (before : x < a) (b : β) :
    store (Function.update m x b) a bs = Function.update (store m a bs) x b := by
  induction bs generalizing a with
  | nil => rfl
  | cons c bs ih => rw [store, store, ih (by omega), Function.update_comm (by omega)]

/-- A store in two parts, the second behind the first. -/
theorem store_append : store m a (bs ++ cs) = store (store m a bs) (a + bs.length) cs := by
  induction bs generalizing a with
  | nil => simp [store]
  | cons b bs ih =>
    have shift : a + ((b :: bs).length : ℕ) = a + 1 + bs.length := by
      rw [List.length_cons]
      push_cast
      omega
    rw [List.cons_append, store, ih, shift, store, store_update (by omega)]

/-- Two copies of one length to one place leave the same memory only if they copy the same. -/
theorem store_inj (length : bs.length = cs.length) (same : store m a bs = store m a cs) : bs = cs := by
  rw [← @load_store _ m a bs, same, length, load_store]

/-- The memory after a copy of the `n` cells from `source` on to `target`. -/
def copied (m : ℤ → β) (target source : ℤ) (n : ℕ) : ℤ → β := store m target (load m source n)

section Copied

variable {target source : ℤ} {n k : ℕ}

theorem copied_inside {i : ℕ} (inside : i < n) : copied m target source n (target + i) = m (source + i) := by
  have written : (load (copied m target source n) target n)[i]? = (load m source n)[i]? := by
    have back := @load_store _ m target (load m source n)
    rw [load_length] at back
    rw [copied, back]
  rw [load_getElem? inside, load_getElem? inside] at written
  exact Option.some.inj written

theorem copied_outside (outside : x < target ∨ target + n ≤ x) : copied m target source n x = m x :=
  store_outside (by rwa [load_length])

/-- A copy in two parts, if the first does not overwrite what the second reads. -/
theorem copied_copied (apart : ∀ y, source + n ≤ y → y < source + n + k → y < target ∨ target + n ≤ y) :
    copied (copied m target source n) (target + n) (source + n) k = copied m target source (n + k) := by
  have kept : load (copied m target source n) (source + n) k = load m (source + n) k :=
    load_congr fun y low high => copied_outside (apart y low high)
  rw [copied, kept, copied, copied, load_append, store_append, load_length]

end Copied

end FoMPI.Foundation
