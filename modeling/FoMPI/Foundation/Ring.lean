import Mathlib.Data.List.Basic
import Mathlib.Data.Nat.ModEq
import Mathlib.Logic.Function.Basic
import Mathlib.Tactic.Common

/-!
# Items in a ring of slots

The `k`-th item of a sequence lives in slot `k % N` from the time it is stored to
the time it is taken. The item counts are unbounded; only their remainders are
machine state.
-/
namespace FoMPI.Foundation

variable {α β : Type*} {N : ℕ} {slots : ℕ → α} {rep : β → α} {items : List β} {first : ℕ} {x : β}

/-- Slot `i` holds an item that was stored and not taken. -/
def Occupied (N first last i : ℕ) : Prop := ∃ k < last, first ≤ k ∧ k % N = i

instance (N first last i : ℕ) : Decidable (Occupied N first last i) := by
  unfold Occupied
  infer_instance

/-- The items from `first` on are in their slots. -/
def InSlots (N : ℕ) (slots : ℕ → α) (rep : β → α) (items : List β) (first : ℕ) : Prop :=
  ∀ k y, items[k]? = some y → first ≤ k → slots (k % N) = rep y

theorem mod_ne_of_window {k m : ℕ} (lt : k < m) (window : m < k + N) : k % N ≠ m % N := by
  intro same
  have := (Nat.modEq_iff_dvd' lt.le).mp same
  have := Nat.le_of_dvd (by omega) this
  omega

/-- With fewer than `N` items stored the next slot is free. -/
theorem not_occupied_next {last : ℕ} (room : last < first + N) :
    ¬Occupied N first last (last % N) := by
  rintro ⟨k, lt, le, same⟩
  exact mod_ne_of_window lt (by omega) same

/-- With `N` items or more stored the next slot is that of one of them. -/
theorem occupied_next {last : ℕ} (full : first + N ≤ last) (pos : 0 < N) :
    Occupied N first last (last % N) :=
  ⟨last - N, by omega, by omega, (Nat.mod_eq_sub_mod (by omega)).symm⟩

namespace InSlots

theorem nil : InSlots N slots rep [] first := fun _ _ h => by simp at h

/-- Writing to a free slot leaves the items alone. -/
theorem write (h : InSlots N slots rep items first) {i : ℕ} (a : α)
    (free : ¬Occupied N first items.length i) : InSlots N (Function.update slots i a) rep items first := by
  intro k y get le
  rw [Function.update_of_ne]
  · exact h k y get le
  · intro same
    obtain ⟨lt, -⟩ := List.getElem?_eq_some_iff.mp get
    exact free ⟨k, lt, le, same⟩

/-- An item counts as stored once its slot is complete. -/
theorem store (h : InSlots N slots rep items first)
    (here : slots (items.length % N) = rep x) : InSlots N slots rep (items ++ [x]) first := by
  intro k y get le
  obtain old | new := Nat.lt_or_ge k items.length
  · rw [List.getElem?_append_left old] at get
    exact h k y get le
  · rw [List.getElem?_append_right new, List.getElem?_singleton] at get
    split at get
    · have last : k = items.length := by omega
      cases get
      rw [last, here]
    · contradiction

theorem take (h : InSlots N slots rep items first) : InSlots N slots rep items (first + 1) :=
  fun k y get le => h k y get (by omega)

end InSlots

/-- Taking the next item extends a prefix. -/
theorem prefix_take {taken : List β} (h : taken <+: items) (next : items[taken.length]? = some x) :
    taken ++ [x] <+: items := by
  obtain ⟨rest, rfl⟩ := h
  cases rest with
  | nil => simp at next
  | cons y rest =>
    have same : y = x := by simpa using next
    subst same
    exact ⟨rest, by simp⟩

/-- The `n` slots from `first` on, around the ring. -/
def arc (N : ℕ) (slots : ℕ → α) : ℕ → ℕ → List α
  | _, 0 => []
  | first, n + 1 => slots (first % N) :: arc N slots (first + 1) n

section Segments
variable {first' n : ℕ} {a : α}

@[simp] theorem arc_length : (arc N slots first n).length = n := by
  induction n generalizing first with
  | zero => rfl
  | succ n ih => rw [arc, List.length_cons, ih]

/-- Only the remainder of the first index matters. -/
theorem arc_mod (same : first % N = first' % N) : arc N slots first n = arc N slots first' n := by
  induction n generalizing first first' with
  | zero => rfl
  | succ n ih =>
    have next : (first + 1) % N = (first' + 1) % N := Nat.ModEq.add_right 1 same
    rw [arc, arc, same, ih next]

theorem arc_snoc :
    arc N slots first (n + 1) = arc N slots first n ++ [slots ((first + n) % N)] := by
  induction n generalizing first with
  | zero => rfl
  | succ n ih =>
    have shift : first + 1 + n = first + (n + 1) := by omega
    rw [arc, ih, shift, arc, List.cons_append]

theorem arc_congr {slots' : ℕ → α}
    (same : ∀ i < n, slots' ((first + i) % N) = slots ((first + i) % N)) :
    arc N slots' first n = arc N slots first n := by
  induction n generalizing first with
  | zero => rfl
  | succ n ih =>
    have here := same 0 (Nat.zero_lt_succ n)
    rw [Nat.add_zero] at here
    rw [arc, arc, here, ih]
    intro i hi
    have shift : first + 1 + i = first + (i + 1) := by omega
    rw [shift]
    exact same (i + 1) (Nat.succ_lt_succ hi)

/-- The slot behind an arc that leaves room is not part of it. -/
theorem arc_write (room : n < N) :
    arc N (Function.update slots ((first + n) % N) a) first n = arc N slots first n :=
  arc_congr fun i hi =>
    Function.update_of_ne (mod_ne_of_window (by omega) (by omega)) _ _

end Segments

end FoMPI.Foundation
