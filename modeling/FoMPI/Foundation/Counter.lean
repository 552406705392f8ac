import Mathlib.Data.BitVec

/-!
# Counters of a fixed width

A counter that goes up and down by one, against the unbounded number it stands for.
Short of its width it counts; at its width it starts again.
-/
namespace FoMPI.Foundation

variable {w : ℕ} {x : BitVec w}

/-- A counter with room counts one more. -/
theorem toNat_succ (room : x.toNat + 1 < 2 ^ w) : (x + 1#w).toNat = x.toNat + 1 := by
  have pos : 0 < w := by
    by_contra none
    obtain rfl : w = 0 := by omega
    simp at room
  have one : (1#w).toNat = 1 := BitVec.toNat_one pos
  rw [← one] at room
  rw [BitVec.toNat_add_of_lt room, one]

/-- A counter that is not zero counts one less. -/
theorem toNat_pred (used : 0 < x.toNat) : (x - 1#w).toNat = x.toNat - 1 := by
  have pos : 0 < w := by
    by_contra none
    obtain rfl : w = 0 := by omega
    simp [BitVec.of_length_zero] at used
  have one : (1#w).toNat = 1 := BitVec.toNat_one pos
  rw [BitVec.toNat_sub_of_le (BitVec.le_def.mpr (by rw [one]; exact used)), one]

/-- A counter at its largest value starts again. -/
theorem toNat_succ_of_full (full : 2 ^ w ≤ x.toNat + 1) : (x + 1#w).toNat = 0 := by
  have below := x.isLt
  have last : x.toNat + 1 = 2 ^ w := by omega
  obtain rfl | pos := Nat.eq_zero_or_pos w
  · simp [BitVec.of_length_zero]
  · have one : (1#w).toNat = 1 := BitVec.toNat_one pos
    rw [BitVec.toNat_add, one, last, Nat.mod_self]

end FoMPI.Foundation
