import Mathlib.Data.Nat.Basic
import Mathlib.Tactic.Common

/-!
# Pages

Ranges of whole pages around a range of bytes.
-/
namespace FoMPI.Foundation

variable {page a x bound : ℕ}

/-- The start of the page of an address. -/
def pageStart (page a : ℕ) : ℕ := a / page * page

/-- The first multiple of the page size above `x`. -/
def pagesOver (page x : ℕ) : ℕ := (x / page + 1) * page

theorem pageStart_add_mod : pageStart page a + a % page = a := Nat.div_add_mod' a page

theorem pageStart_mod : pageStart page a % page = 0 := Nat.mul_mod_left _ _

theorem pagesOver_mod : pagesOver page x % page = 0 := Nat.mul_mod_left _ _

theorem lt_pagesOver (some : 0 < page) : x < pagesOver page x := by
  rw [pagesOver, Nat.mul_comm]
  exact Nat.lt_mul_div_succ x some

theorem pagesOver_le : pagesOver page x ≤ x + page := by
  rw [pagesOver, Nat.add_mul, Nat.one_mul]
  exact Nat.add_le_add_right (Nat.div_mul_le_self x page) page

/-- The pages over `x` end below every page boundary above it. -/
theorem pagesOver_le_of_dvd (boundary : page ∣ bound) (below : x < bound) : pagesOver page x ≤ bound := by
  obtain ⟨pages, rfl⟩ := boundary
  rw [pagesOver, Nat.mul_comm]
  exact Nat.mul_le_mul_left page (Nat.div_lt_of_lt_mul below)

end FoMPI.Foundation
