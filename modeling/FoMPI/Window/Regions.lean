import FoMPI.Foundation.Blocks

/-!
# Attached regions of a dynamic window

How an access to a dynamic window finds the regions it touches. A region stands
for its descriptor as well; the list is the local copy of what the target has
attached, in the order of attachment.
-/
namespace FoMPI.Window
open FoMPI.Foundation

/-- `foMPI_Win_dynamic_element_t`. -/
structure Region where
  base : ℤ
  size : ℤ
  deriving DecidableEq

namespace Region

def hasByte (r : Region) (x : ℤ) : Bool := r.base ≤ x ∧ x < r.base + r.size

/-- The whole access of `extent` bytes at `x` is inside. -/
def covers (r : Region) (x extent : ℤ) : Bool := r.base ≤ x ∧ x + extent ≤ r.base + r.size

end Region

/-- The scan for one region that holds the whole access: a later one overrides an earlier one. -/
def wholeRegion (regions : List Region) (x extent : ℤ) : Option Region :=
  (regions.filter fun r => r.covers x extent).getLast?

/-- `find_seg_and_size`. -/
def findSegAndSize (regions : List Region) (size : ℕ) (x : ℤ) : Option (Region × ℕ) :=
  (regions.find? fun r => r.hasByte x).map fun r =>
    (r, if x + size > r.base + r.size then (r.base + r.size - x).toNat else size)

/-- The loop on one block, `while (remaining_size > 0)`. The result of `find_seg_and_size` is not
looked at; where it finds no region the pieces are undefined. -/
def splitLoop (regions : List Region) (target : ℤ) : ℕ → Chunk → Option (List (Region × Chunk))
  | 0, c => if c.size = 0 then some [] else none
  | fuel + 1, c =>
    if c.size = 0 then some []
    else do
      let (r, n) ← findSegAndSize regions c.size (target + c.targetOffset)
      let rest ← splitLoop regions target fuel ⟨c.originOffset + n, c.targetOffset + n, c.size - n⟩
      return (r, ⟨c.originOffset, c.targetOffset, n⟩) :: rest

/-- The pieces of a block at `target`. A piece has at least one byte, so that the loop runs once
per byte at most. -/
def splitBlock (regions : List Region) (target : ℤ) (c : Chunk) : Option (List (Region × Chunk)) :=
  splitLoop regions target c.size c

/-- Every byte of the chunk lies in some region. -/
def Covered (regions : List Region) (target : ℤ) (c : Chunk) : Prop :=
  ∀ k : ℕ, k < c.size → ∃ r ∈ regions, r.hasByte (target + c.targetOffset + k)

variable {regions : List Region} {target : ℤ} {c : Chunk}

/-- The first piece has bytes, no more than the block, and stays in its region. -/
theorem findSegAndSize_spec (covered : Covered regions target c) (more : 0 < c.size) :
    ∃ r n, findSegAndSize regions c.size (target + c.targetOffset) = some (r, n) ∧
      0 < n ∧ n ≤ c.size ∧ r ∈ regions ∧ r.covers (target + c.targetOffset) n := by
  obtain ⟨r₀, mem₀, byte₀⟩ := covered 0 more
  rw [Nat.cast_zero, add_zero] at byte₀
  obtain ⟨r, found⟩ : ∃ r, (regions.find? fun r => r.hasByte (target + c.targetOffset)) = some r :=
    Option.isSome_iff_exists.mp (List.find?_isSome.mpr ⟨r₀, mem₀, byte₀⟩)
  have byte := List.find?_some found
  simp only [Region.hasByte, decide_eq_true_eq] at byte
  refine ⟨r, _, by rw [findSegAndSize, found]; rfl, ?_, ?_, List.mem_of_find?_eq_some found, ?_⟩
  · split <;> omega
  · split <;> omega
  · simp only [Region.covers, decide_eq_true_eq]
    refine ⟨byte.1, ?_⟩
    split <;> omega

theorem Covered.drop (covered : Covered regions target c) {n : ℕ} :
    Covered regions target ⟨c.originOffset + n, c.targetOffset + n, c.size - n⟩ := by
  intro k lt
  obtain ⟨r, mem, byte⟩ := covered (n + k) (by dsimp only at lt; omega)
  refine ⟨r, mem, ?_⟩
  rwa [Nat.cast_add, ← add_assoc, add_assoc target] at byte

/-- The loop ends and cuts the block into consecutive pieces, each inside its region. -/
theorem splitLoop_spec (fuel : ℕ) (covered : Covered regions target c) (enough : c.size ≤ fuel) :
    ∃ pieces, splitLoop regions target fuel c = some pieces ∧
      pairs (pieces.map Prod.snd) = c.pairs ∧
      ∀ p ∈ pieces, p.1 ∈ regions ∧ p.1.covers (target + p.2.targetOffset) p.2.size := by
  induction fuel generalizing c with
  | zero =>
    have none : c.size = 0 := Nat.le_zero.mp enough
    exact ⟨[], if_pos none, by simp [Chunk.pairs, none, pairs], by simp⟩
  | succ fuel ih =>
    by_cases none : c.size = 0
    · exact ⟨[], if_pos none, by simp [Chunk.pairs, none, pairs], by simp⟩
    · obtain ⟨r, n, found, pos, le, mem, inside⟩ :=
        findSegAndSize_spec covered (Nat.pos_of_ne_zero none)
      obtain ⟨rest, run, paired, stay⟩ := ih (covered.drop (n := n)) (by dsimp only; omega)
      refine ⟨_, by rw [splitLoop, if_neg none, found]; simp [run]; rfl, ?_, ?_⟩
      · rw [List.map_cons, pairs_cons, paired, c.pairs_split le]
      · intro p hp
        obtain rfl | hp := List.mem_cons.mp hp
        · exact ⟨mem, inside⟩
        · exact stay p hp

/-- A covered block is cut into pieces that make up its bytes, each inside its region. -/
theorem splitBlock_spec (covered : Covered regions target c) :
    ∃ pieces, splitBlock regions target c = some pieces ∧
      pairs (pieces.map Prod.snd) = c.pairs ∧
      ∀ p ∈ pieces, p.1 ∈ regions ∧ p.1.covers (target + p.2.targetOffset) p.2.size :=
  splitLoop_spec c.size covered (le_refl c.size)

end FoMPI.Window
