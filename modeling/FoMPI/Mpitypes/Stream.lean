import FoMPI.Foundation.Blocks
import FoMPI.Mpitypes.Segment
import Mathlib.Algebra.BigOperators.Ring.List

/-!
# The stream of a dataloop

A dataloop stands for a list of bytes, in the order in which they are packed. What is left of it
can be read off the stack of a segment: the rest of each active loop, from the innermost one
outwards.
-/
namespace FoMPI.Mpitypes
open FoMPI.Foundation

namespace LoopParams

/-- Where block `i` begins. -/
def offset : LoopParams → ℕ → ℤ
  | .contig _, _ => 0
  | .vector _ _ stride, i => i * stride
  | .blockindexed _ _ offsetArray, i | .indexed _ _ offsetArray _, i => offsetArray.getD i 0

/-- The blocks of a leaf whose elements have `size` bytes. -/
def blocks (l : LoopParams) (o : ℤ) (size : ℕ) : List Block :=
  (List.range l.count).map fun i => ⟨o + l.offset i, l.blocksize i * size⟩

/-- Where the elements of block `i` begin. -/
def placesAt (l : LoopParams) (o extent : ℤ) (i : ℕ) : List ℤ :=
  (List.range (l.blocksize i)).map fun j : ℕ => o + l.offset i + j * extent

def places (l : LoopParams) (o extent : ℤ) : List ℤ := (List.range l.count).flatMap (l.placesAt o extent)

/-- The arrays are of the length that is given with them. -/
def Filled : LoopParams → Prop
  | .contig _ | .vector _ _ _ => True
  | .blockindexed count _ offsetArray => offsetArray.length = count
  | .indexed count blocksizeArray offsetArray totalBlocks =>
    blocksizeArray.length = count ∧ offsetArray.length = count ∧ totalBlocks = blocksizeArray.sum

/-- Nothing is empty. -/
structure Sound (l : LoopParams) : Prop where
  filled : l.Filled
  some_blocks : 0 < l.count
  positive : ∀ i < l.count, 0 < l.blocksize i

/-- What the blocks are counted with, and the elements of a block, fits an `int`. -/
structure Narrow (l : LoopParams) : Prop where
  count : l.count < 2147483648
  blocksize : ∀ i < l.count, l.blocksize i < 2147483648

end LoopParams

namespace Dataloop

/-- The packed bytes of a datatype at the address `o`. -/
def bytes : Dataloop → ℤ → List ℤ
  | .final l size _, o => Foundation.bytes (l.blocks o size)
  | .nested l _ extent d, o => (l.places o extent).flatMap d.bytes

def Sound : Dataloop → Prop
  | .final l size _ => l.Sound ∧ 0 < size
  | .nested l _ _ d => l.Sound ∧ d.Sound

/-- The loops that push others are narrow. -/
def Narrow : Dataloop → Prop
  | .final .. => True
  | .nested l _ _ d => l.Narrow ∧ d.Narrow

end Dataloop

section Blocks
variable {l : LoopParams} {o extent : ℤ} {size c : ℕ}

theorem range_drop (lt : c < l.count) : (List.range l.count).drop c = c :: (List.range l.count).drop (c + 1) := by
  rw [List.drop_eq_getElem_cons (by simpa using lt), List.getElem_range]

theorem blocks_drop (lt : c < l.count) : (l.blocks o size).drop c =
    ⟨o + l.offset c, l.blocksize c * size⟩ :: (l.blocks o size).drop (c + 1) := by
  rw [LoopParams.blocks, ← List.map_drop, range_drop lt, List.map_cons, List.map_drop]

theorem blocks_drop_count : (l.blocks o size).drop l.count = [] :=
  List.drop_eq_nil_of_le (by simp [LoopParams.blocks])

theorem dvd_total_drop : size ∣ total ((l.blocks o size).drop c) := by
  rw [total, LoopParams.blocks, ← List.map_drop, List.map_map]
  refine List.dvd_sum fun n mem => ?_
  obtain ⟨i, -, rfl⟩ := List.mem_map.mp mem
  exact Dvd.intro_left _ rfl

theorem total_blocks_congr {o' : ℤ} : total (l.blocks o size) = total (l.blocks o' size) := by
  simp [LoopParams.blocks, total, Function.comp_def]

theorem length_places {o' : ℤ} : (l.places o extent).length = (l.places o' extent).length := by
  simp [LoopParams.places, LoopParams.placesAt, List.length_flatMap]

end Blocks

namespace Stackelm

/-- How many blocks are done. -/
def done (e : Stackelm) : ℕ := e.origCount - e.curcount

/-- What is left of a leaf. -/
def restBlocks (e : Stackelm) (l : LoopParams) (size : ℕ) : List Block :=
  ⟨e.curoffset, e.curblock * size⟩ :: (l.blocks e.origOffset size).drop (e.done + 1)

/-- Where the elements begin that another loop has yet to push. -/
def restPlaces (e : Stackelm) (l : LoopParams) (extent : ℤ) : List ℤ :=
  (l.placesAt e.origOffset extent e.done).drop (l.blocksize e.done - e.curblock) ++
    ((List.range l.count).drop (e.done + 1)).flatMap (l.placesAt e.origOffset extent)

/-- The bytes that are left of a loop, less those of the element that it has pushed. -/
def rest (e : Stackelm) : List ℤ :=
  match e.loopP with
  | .final l size _ => bytes (e.restBlocks l size)
  | .nested l _ extent d => (e.restPlaces l extent).flatMap d.bytes

/-- What holds of an element with `loop_p` in any case. -/
structure Loaded (e : Stackelm) (d : Dataloop) : Prop where
  loop : e.loopP = d
  count : e.origCount = d.loopParams.count
  /-- A leaf of indexed blocks does not look at `orig_block`. -/
  block : (∃ count sizes offsets total, d.loopParams = .indexed count sizes offsets total ∧ d.isFinal = true) ∨
    e.origBlock = d.loopParams.blocksize 0

/-- A leaf that the walk is at. -/
structure AtLeaf (e : Stackelm) (l : LoopParams) (size : ℕ) (extent : ℤ) : Prop where
  loaded : e.Loaded (.final l size extent)
  some_left : 0 < e.curcount
  within : e.curcount ≤ e.origCount
  block : 0 < e.curblock
  block_le : e.curblock ≤ l.blocksize e.done
  offset : e.curoffset = e.origOffset + l.offset e.done + ((l.blocksize e.done - e.curblock : ℕ) : ℤ) * size

/-- Another loop that is active. -/
structure AtLoop (e : Stackelm) (l : LoopParams) (size : ℕ) (extent : ℤ) (d : Dataloop) : Prop where
  loop : e.loopP = .nested l size extent d
  count : e.origCount = l.count
  some_left : 0 < e.curcount
  within : e.curcount ≤ e.origCount
  block : e.origBlock = l.blocksize e.done
  block_le : e.curblock ≤ e.origBlock
  contig : ∀ count, l = .contig count → e.curoffset = e.origOffset

end Stackelm

section Leaf
variable {e : Stackelm} {l : LoopParams} {size : ℕ} {extent : ℤ}

theorem Stackelm.AtLeaf.done_lt (leaf : e.AtLeaf l size extent) : e.done < l.count := by
  have count : e.origCount = l.count := leaf.loaded.count
  have := leaf.some_left
  have := leaf.within
  unfold Stackelm.done
  omega

/-- What is left of a leaf at the beginning of a block. -/
theorem Stackelm.AtLeaf.restBlocks_start (leaf : e.AtLeaf l size extent) (start : e.curblock = l.blocksize e.done) :
    e.restBlocks l size = (l.blocks e.origOffset size).drop e.done := by
  rw [blocks_drop leaf.done_lt, Stackelm.restBlocks, leaf.offset, start]
  simp

theorem Stackelm.AtLeaf.rest_eq (leaf : e.AtLeaf l size extent) : e.rest = bytes (e.restBlocks l size) := by
  rw [Stackelm.rest, leaf.loaded.loop]

/-- The blocks that are done with, from the beginning of one of them on. -/
theorem wholeBlocks_spec (sound : l.Sound) (pos : 0 < size) (o : ℤ) :
    ∀ curcount curblock myblocks : ℕ, curcount ≤ l.count →
      (0 < curcount → curblock = l.blocksize (l.count - curcount)) →
      myblocks * size ≤ total ((l.blocks o size).drop (l.count - curcount)) →
      ∃ curcount' curblock' left,
        wholeBlocks l.blocksize l.count curcount curblock myblocks = some (curcount', curblock', left) ∧
        curcount' ≤ curcount ∧
        (bytes ((l.blocks o size).drop (l.count - curcount))).drop (myblocks * size) =
          (bytes ((l.blocks o size).drop (l.count - curcount'))).drop (left * size) ∧
        (curcount' = 0 → left = 0) ∧
        (0 < curcount' → left < curblock' ∧ curblock' = l.blocksize (l.count - curcount')) := by
  intro curcount
  induction curcount with
  | zero =>
    intro curblock myblocks le start room
    rw [Nat.sub_zero, blocks_drop_count] at room
    obtain rfl : myblocks = 0 := by
      have zero : myblocks * size = 0 := Nat.le_zero.mp (by simpa [total] using room)
      exact (Nat.mul_eq_zero.mp zero).resolve_right pos.ne'
    exact ⟨0, curblock, 0, by simp [wholeBlocks], le_rfl, rfl, fun _ => rfl, fun h => absurd h (lt_irrefl 0)⟩
  | succ n ih =>
    intro curblock myblocks le start room
    have here : l.count - (n + 1) < l.count := by omega
    have next : l.count - (n + 1) + 1 = l.count - n := by omega
    have start := start (Nat.succ_pos n)
    have block_pos : 0 < curblock := start ▸ sound.positive _ here
    rw [blocks_drop here, next, total_cons] at room
    by_cases more : 0 < myblocks ∧ curblock ≤ myblocks
    · have fewer : (myblocks - curblock) * size ≤ total ((l.blocks o size).drop (l.count - n)) := by
        rw [Nat.sub_mul, start]
        exact Nat.sub_le_iff_le_add'.mpr room
      obtain ⟨curcount', curblock', left, run, less, same, none, some_left⟩ :=
        ih (l.blocksize (l.count - n)) (myblocks - curblock) (by omega) (fun _ => rfl) fewer
      refine ⟨curcount', curblock', left, by rw [wholeBlocks, if_pos more, run], by omega, ?_, none, some_left⟩
      rw [← same, blocks_drop here, next, bytes_cons]
      have long : (Block.mk (o + l.offset (l.count - (n + 1))) (l.blocksize (l.count - (n + 1)) * size)).bytes.length ≤
          myblocks * size := by
        rw [Block.length_bytes, ← start]
        exact Nat.mul_le_mul_right size more.2
      rw [List.drop_append, List.drop_eq_nil_of_le long, List.nil_append, Block.length_bytes, ← start, Nat.sub_mul]
    · refine ⟨n + 1, curblock, myblocks, by rw [wholeBlocks, if_neg more], le_rfl, rfl, by omega, fun _ => ⟨?_, start⟩⟩
      omega

/-- Division does what the loop does where all blocks have one size. -/
theorem wholeBlocks_const {B : ℕ} (pos : 0 < B) (n : ℕ) : ∀ curcount myblocks : ℕ, myblocks ≤ curcount * B →
    wholeBlocks (fun _ => B) n curcount B myblocks = some (curcount - myblocks / B, B, myblocks % B) := by
  intro curcount
  induction curcount with
  | zero =>
    intro myblocks le
    obtain rfl : myblocks = 0 := by omega
    simp [wholeBlocks]
  | succ k ih =>
    intro myblocks le
    by_cases more : 0 < myblocks ∧ B ≤ myblocks
    · rw [Nat.succ_mul] at le
      rw [wholeBlocks, if_pos more, ih _ (by omega), Nat.div_eq_sub_div pos more.2, ← Nat.mod_eq_sub_mod more.2]
      congr 2
      omega
    · have small : myblocks < B := by omega
      rw [wholeBlocks, if_neg more, Nat.div_eq_of_lt small, Nat.mod_eq_of_lt small, Nat.sub_zero]

end Leaf

end FoMPI.Mpitypes
