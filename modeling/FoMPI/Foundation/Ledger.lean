import Mathlib.Data.BitVec
import Mathlib.Algebra.BigOperators.Group.Finset.Basic
import Mathlib.Algebra.Order.BigOperators.Group.Finset
import Mathlib.Algebra.BigOperators.Fin
import Mathlib.Tactic.Ring

/-!
# Ledgers of shared words

A machine word that many parties change only by adding to it is worth, at any
time, the sum of what the parties have put in, less the additions that were
issued and not yet delivered. The word wraps; the sum does not, and a bound on
the sum turns the one into the other.
-/
namespace FoMPI.Foundation
open scoped BigOperators

variable {ι : Type*} [Fintype ι] {w : ℕ}

/-- `word` is the total of the `share`s without the additions still in flight. -/
def InBalance (word : BitVec w) (share : ι → ℤ) (flight : List ℤ) : Prop :=
  word = BitVec.ofInt w (∑ i, share i - flight.sum)

section Sums
variable [DecidableEq ι]

/-- One party changes its share, the others keep theirs. -/
theorem sum_change {share share' : ι → ℤ} (i : ι) (d : ℤ) (own : share' i = share i + d)
    (others : ∀ j, j ≠ i → share' j = share j) : ∑ j, share' j = ∑ j, share j + d := by
  rw [← Finset.add_sum_erase _ share' (Finset.mem_univ i),
    ← Finset.add_sum_erase _ share (Finset.mem_univ i), own]
  have rest : ∑ j ∈ Finset.univ.erase i, share' j = ∑ j ∈ Finset.univ.erase i, share j :=
    Finset.sum_congr rfl fun j hj => others j (Finset.ne_of_mem_erase hj)
  rw [rest]
  ring

namespace InBalance
variable {word : BitVec w} {share share' : ι → ℤ} {flight : List ℤ}

/-- An atomic addition, entered in the share of the party that made it. -/
theorem add (h : InBalance word share flight) (i : ι) (d : ℤ) (own : share' i = share i + d)
    (others : ∀ j, j ≠ i → share' j = share j) :
    InBalance (word + BitVec.ofInt w d) share' flight := by
  unfold InBalance at h ⊢
  rw [sum_change i d own others, h, ← BitVec.ofInt_add]
  congr 1
  ring

/-- An addition is issued: it counts for its party and is in flight. -/
theorem post (h : InBalance word share flight) (i : ι) (d : ℤ) (own : share' i = share i + d)
    (others : ∀ j, j ≠ i → share' j = share j) : InBalance word share' (d :: flight) := by
  unfold InBalance at h ⊢
  rw [sum_change i d own others, h, List.sum_cons]
  congr 1
  ring

omit [DecidableEq ι] in
theorem congr (h : InBalance word share flight) (same : ∀ j, share' j = share j) :
    InBalance word share' flight := by
  unfold InBalance at h ⊢
  rw [h, Finset.sum_congr rfl fun j _ => same j]

end InBalance
end Sums

namespace InBalance
variable {word : BitVec w} {share : ι → ℤ} {flight flight' : List ℤ}

/-- An addition in flight takes effect. -/
theorem deliver (h : InBalance word share flight) (d : ℤ) (gone : flight.sum = d + flight'.sum) :
    InBalance (word + BitVec.ofInt w d) share flight' := by
  unfold InBalance at h ⊢
  rw [h, gone, ← BitVec.ofInt_add]
  congr 1
  ring

/-- While the total fits the word, the word is the total. -/
theorem toNat_eq (h : InBalance word share flight) {v : ℕ} (total : ∑ i, share i - flight.sum = v)
    (fits : v < 2 ^ w) : word.toNat = v := by
  rw [h, total]
  simp [Nat.mod_eq_of_lt fits]

end InBalance

theorem balanced_zero (share : ι → ℤ) (none : ∀ i, share i = 0) :
    InBalance (0 : BitVec w) share [] := by
  simp [InBalance, none]

section Masks

/-- The low `k` bits of a word are clear exactly when it is a multiple of `2 ^ k`. -/
theorem and_low_eq_zero {x m : BitVec w} {k : ℕ} (low : m.toNat = 2 ^ k - 1) :
    x &&& m = 0#w ↔ x.toNat % 2 ^ k = 0 := by
  rw [← BitVec.toNat_inj, BitVec.toNat_and, low, Nat.and_two_pow_sub_one_eq_mod]
  simp

/-- The bits from `k` on are clear exactly when the word is below `2 ^ k`. -/
theorem and_high_eq_zero {x : BitVec w} {k : ℕ} :
    x &&& (BitVec.allOnes w <<< k) = 0#w ↔ x.toNat < 2 ^ k := by
  have bits : x &&& (BitVec.allOnes w <<< k) = 0#w ↔ ∀ i, k ≤ i → x.getLsbD i = false := by
    constructor
    · intro h i hi
      have bit := congrArg (fun y => y.getLsbD i) h
      by_cases hw : i < w
      · simpa [BitVec.getLsbD_and, BitVec.getLsbD_shiftLeft, hw, Nat.not_lt.mpr hi] using bit
      · exact BitVec.getLsbD_of_ge x i (by omega)
    · intro h
      apply BitVec.eq_of_getLsbD_eq
      intro i _
      by_cases hk : k ≤ i
      · simp [BitVec.getLsbD_and, h i hk]
      · simp [BitVec.getLsbD_and, BitVec.getLsbD_shiftLeft, hk]
  rw [bits]
  constructor
  · exact fun h => Nat.lt_pow_two_of_testBit _ h
  · intro h i hi
    exact Nat.testBit_lt_two_pow (h.trans_le (Nat.pow_le_pow_right (by decide) hi))

end Masks

end FoMPI.Foundation
