import Mathlib.Data.Int.ModEq

/-!
# Integer conversions

An `int` of 32 bits and an `unsigned long` or `size_t` of 64 bits.
-/
namespace FoMPI.Foundation

/-- The value of an expression that is stored in an `int`. -/
def asInt (n : ℤ) : ℤ := n.bmod (2 ^ 32)

/-- The value of an expression that is stored in an `unsigned long`. -/
def asUlong (n : ℤ) : ℕ := (n % 2 ^ 64).toNat

variable {n : ℤ}

theorem asInt_eq (low : -2 ^ 31 ≤ n) (high : n < 2 ^ 31) : asInt n = n := by
  rw [asInt, Int.bmod_eq_of_le] <;> omega

theorem asInt_range : -2 ^ 31 ≤ asInt n ∧ asInt n < 2 ^ 31 := by
  unfold asInt
  exact ⟨Int.le_bmod (by decide), Int.bmod_lt (by decide)⟩

/-- A conversion drops a multiple of the range. -/
theorem asInt_eq_sub : ∃ k : ℤ, asInt n = n - 2 ^ 32 * k :=
  ⟨n.bdiv (2 ^ 32), by rw [asInt, Int.bmod_eq_self_sub_mul_bdiv]; push_cast; rfl⟩

theorem asUlong_eq (low : 0 ≤ n) (high : n < 2 ^ 64) : (asUlong n : ℤ) = n := by
  rw [asUlong, Int.emod_eq_of_lt low high, Int.toNat_of_nonneg low]

/-- A negative number is taken for one at the end of the range. -/
theorem asUlong_of_neg (low : -2 ^ 64 ≤ n) (negative : n < 0) : (asUlong n : ℤ) = n + 2 ^ 64 := by
  rw [asUlong]
  omega

theorem asUlong_natCast {k : ℕ} (high : k < 2 ^ 64) : asUlong k = k := by
  rw [asUlong]
  omega

end FoMPI.Foundation
