import FoMPI.Foundation.Gathering
import FoMPI.Mpitypes.Walk

/-!
# What piece functions are given

A rule for piece functions: `A false` holds of the parameters and of the bytes that were
processed, in their order, and is kept by each piece; `A true` is what is left of it when the
end of the range cuts a piece off; `E` holds when a piece function has asked to stop in front
of a byte.
-/
namespace FoMPI.Mpitypes
open FoMPI.Foundation

variable {P : Type}

/-- `m` of `n` blocks were processed, whose bytes are `new`. -/
structure Served (size : ℕ) (A : P → List ℤ → Prop) (E : P → List ℤ → ℤ → Prop) (done new : List ℤ) (n m : ℕ)
    (exit : Bool) (p : P) : Prop where
  goes_on : exit = false → m = n ∧ A p (done ++ new)
  stops : exit = true → m < n ∧ ∃ x rest, new.drop (m * size) = x :: rest ∧ E p (done ++ new.take (m * size)) x

/-- A piece function on all blocks of a loop, or as many as the end of the range leaves. -/
def Handles (size : ℕ) (A : Bool → P → List ℤ → Prop) (E : P → List ℤ → ℤ → Prop) (bufp : ℤ)
    (f : ℕ → ℤ → ℤ → P → Option (P × ℕ × Bool)) (l : LoopParams) : Prop :=
  ∀ (c : Bool) (n : ℕ) (relOff : ℤ) (p : P) (done : List ℤ), 0 < n → n * size ≤ total (l.blocks 0 size) →
    (c = false → n * size = total (l.blocks 0 size)) → A false p done →
    ∃ p' m exit, f n relOff bufp p = some (p', m, exit) ∧
      Served size (A c) E done ((bytes (l.blocks (bufp + relOff) size)).take (n * size)) n m exit p'

/-- The piece functions on a leaf. A vector may be walked from any of its blocks on. -/
structure Serves (fns : PieceFns P) (l : LoopParams) (size : ℕ) (A : Bool → P → List ℤ → Prop)
    (E : P → List ℤ → ℤ → Prop) (bufp : ℤ) : Prop where
  weaken : ∀ p done, A false p done → A true p done
  null : fns.contigfn = none → ∀ p done new, A false p done → A false p (done ++ new)
  contig : ∀ f, fns.contigfn = some f → ∀ n, Handles size A E bufp (fun n => f n size) (.contig n)
  vector : ∀ f, fns.vectorfn = some f → ∀ count blksz stride, l = .vector count blksz stride →
    ∀ k, 0 < k → k ≤ count → Handles size A E bufp (fun n => f n k blksz stride size) (.vector k blksz stride)
  blkidx : ∀ f, fns.blkidxfn = some f → ∀ count blksz offsets, l = .blockindexed count blksz offsets →
    Handles size A E bufp (fun n => f n count blksz offsets size) l
  index : ∀ f, fns.indexfn = some f → ∀ count sizes offsets totalBlocks,
    l = .indexed count sizes offsets totalBlocks → Handles size A E bufp (fun n => f n count sizes offsets size) l

section Regions
variable {l : LoopParams} {o ptr : ℤ} {size : ℕ}

theorem map_bytes_blocks (l : LoopParams) (o : ℤ) :
    (bytes (l.blocks o size)).map (ptr + ·) = bytes (l.blocks (ptr + o) size) := by
  simp only [bytes, LoopParams.blocks, List.map_flatMap, List.flatMap_map, Block.map_bytes, add_assoc]

theorem Block.take_bytes (b : Block) (k : ℕ) : b.bytes.take k = Block.bytes ⟨b.displ, min k b.blocklen⟩ := by
  simp only [Block.bytes, ← List.map_take, List.take_range]

/-- The first region of those that are asked for. -/
theorem take_region {i left : ℕ} (here : i < l.count) : (bytes ((l.blocks o size).drop i)).take (left * size) =
    (Block.mk (o + l.offset i) (min (l.blocksize i) left * size)).bytes ++
      (bytes ((l.blocks o size).drop (i + 1))).take ((left - min (l.blocksize i) left) * size) := by
  have first : min (left * size) (l.blocksize i * size) = min (l.blocksize i) left * size := by
    rw [← Nat.mul_min_mul_right, min_comm]
  have rest : left * size - l.blocksize i * size = (left - min (l.blocksize i) left) * size := by
    rw [← Nat.sub_mul]
    congr 1
    omega
  rw [blocks_drop here, bytes_cons, List.take_append, Block.take_bytes, Block.length_bytes, first, rest]

theorem blocks_contig (n : ℕ) : (LoopParams.contig n).blocks o size = [⟨o, n * size⟩] := by
  simp [LoopParams.blocks, LoopParams.count, LoopParams.blocksize, LoopParams.offset]

theorem take_contig {m n : ℕ} (le : n * size ≤ total ((LoopParams.contig m).blocks 0 size)) :
    (bytes ((LoopParams.contig m).blocks o size)).take (n * size) = (Block.mk o (n * size)).bytes := by
  have within : n * size ≤ m * size := by simpa [blocks_contig, total] using le
  rw [blocks_contig, show bytes [_] = _ from List.append_nil _, Block.take_bytes, min_eq_left within]

theorem blocks_vector_drop {count blksz c : ℕ} {stride : ℤ} :
    ((LoopParams.vector count blksz stride).blocks o size).drop c =
    (LoopParams.vector (count - c) blksz stride).blocks (o + c * stride) size := by
  apply List.ext_getElem
  · simp [LoopParams.blocks, LoopParams.count]
  · intro i lt lt'
    simp only [LoopParams.blocks, List.getElem_drop, List.getElem_map, List.getElem_range, LoopParams.offset,
      LoopParams.blocksize, Block.mk.injEq, and_true]
    push_cast
    ring

end Regions

section Choose
variable {e : Stackelm} {l : LoopParams} {size : ℕ} {extent : ℤ} {fns : PieceFns P}
  {A : Bool → P → List ℤ → Prop} {E : P → List ℤ → ℤ → Prop}

theorem Served.weaken {done new : List ℤ} {n m : ℕ} {exit : Bool} {p : P} {B C : P → List ℤ → Prop}
    (served : Served size B E done new n m exit p) (le : B p (done ++ new) → C p (done ++ new)) :
    Served size C E done new n m exit p where
  goes_on more := ⟨(served.goes_on more).1, le (served.goes_on more).2⟩
  stops := served.stops

/-- Blocks in front of those that were processed. -/
theorem Served.after {done front more new : List ℤ} {b n m : ℕ} {exit : Bool} {p : P} {B : P → List ℤ → Prop}
    (served : Served size B E (done ++ front) more n m exit p) (together : new = front ++ more)
    (length : front.length = b * size) : Served size B E done new (b + n) (b + m) exit p where
  goes_on goes_on := by
    obtain ⟨all, acc⟩ := served.goes_on goes_on
    rw [together, ← List.append_assoc]
    exact ⟨by rw [all], acc⟩
  stops exits := by
    obtain ⟨lt, x, rest, next, stopped⟩ := served.stops exits
    have more_bytes : (b + m) * size = front.length + m * size := by rw [length, Nat.add_mul]
    rw [together, more_bytes, List.drop_append, List.drop_eq_nil_of_le (Nat.le_add_right _ _), List.take_append,
      List.take_of_length_le (Nat.le_add_right _ _), Nat.add_sub_cancel_left, List.nil_append, ← List.append_assoc]
    exact ⟨by omega, x, rest, next, stopped⟩

/-- What a piece function is asked for: blocks from the front of what is left of the leaf. -/
structure Chosen (fns : PieceFns P) (e : Stackelm) (l : LoopParams) (size : ℕ) (A : Bool → P → List ℤ → Prop)
    (E : P → List ℤ → ℤ → Prop) (ptr : ℤ) : Prop where
  block : e.curblock ≤ (fns.choose e).2
  start : (fns.choose e).2 = e.curblock ∨ e.curblock = l.blocksize e.done
  within : (fns.choose e).2 * size ≤ e.rest.length
  served : ∀ c n p done, 0 < n → n ≤ (fns.choose e).2 → (c = false → n = (fns.choose e).2) → A false p done →
    ∃ p' m exit, fns.call (fns.choose e).1 n e ptr p = some (p', m, exit) ∧
      Served size (A c) E done ((e.rest.map (ptr + ·)).take (n * size)) n m exit p'

variable {ptr : ℤ}

namespace Stackelm.AtLeaf

theorem length_rest (leaf : e.AtLeaf l size extent) : e.rest.length = total (e.restBlocks l size) := by
  rw [leaf.rest_eq, length_bytes]

/-- The current block goes to the contiguous piece function, if there is one. -/
theorem chosen_contig (leaf : e.AtLeaf l size extent) (serves : Serves fns l size A E ptr)
    (chosen : fns.choose e = (if fns.contigfn.isSome then .contig else .null, e.curblock)) :
    Chosen fns e l size A E ptr where
  block := by rw [chosen]
  start := by
    rw [chosen]
    exact .inl rfl
  within := by
    rw [chosen, leaf.length_rest, total_rest]
    exact Nat.le_add_right _ _
  served c n p done some_blocks le all acc := by
    rw [chosen] at le all ⊢
    have first : (e.rest.map (ptr + ·)).take (n * size) =
        (bytes ((LoopParams.contig n).blocks (ptr + e.curoffset) size)).take (n * size) := by
      have long : n * size ≤ e.curblock * size := Nat.mul_le_mul_right size le
      rw [leaf.rest_eq, restBlocks, bytes_cons, List.map_append, List.take_append_of_le_length (by simpa using long),
        Block.map_bytes, blocks_contig, Block.take_bytes]
      simp only [bytes, List.flatMap_cons, List.flatMap_nil, List.append_nil, Block.take_bytes, min_self,
        min_eq_left long]
    rw [first]
    have elSize : e.loopP.elSize = size := by rw [leaf.loaded.loop]; rfl
    have weaken {p'} {bs : List ℤ} : A false p' bs → A c p' bs := by
      cases c with
      | false => exact id
      | true => exact serves.weaken p' bs
    cases some_fn : fns.contigfn with
    | none =>
      refine ⟨p, n, false, rfl, fun _ => ⟨rfl, weaken (serves.null some_fn p done _ acc)⟩, by simp⟩
    | some f =>
      have whole : n * size = total ((LoopParams.contig n).blocks 0 size) := by
        rw [blocks_contig]
        simp [total]
      obtain ⟨p', m, exit, run, served⟩ :=
        serves.contig f some_fn n false n e.curoffset p done some_blocks whole.le (fun _ => whole) acc
      refine ⟨p', m, exit, ?_, served.weaken weaken⟩
      simpa [PieceFns.call, some_fn, elSize] using run

/-- The other piece functions get all that is left of the leaf. -/
theorem chosen_other {l' : LoopParams} {relOff : ℤ} {f : ℕ → ℤ → ℤ → P → Option (P × ℕ × Bool)}
    (leaf : e.AtLeaf l size extent) (piece : Piece) (n : ℕ) (handles : Handles size A E ptr f l')
    (chosen : fns.choose e = (piece, n))
    (block : e.curblock ≤ n) (start : e.curblock = l.blocksize e.done)
    (rest : e.restBlocks l size = l'.blocks relOff size) (whole : n * size = total (e.restBlocks l size))
    (call : ∀ k p, fns.call piece k e ptr p = f k relOff ptr p) : Chosen fns e l size A E ptr where
  block := by rw [chosen]; exact block
  start := .inr start
  within := by rw [chosen, leaf.length_rest, whole]
  served c k p done some_blocks le all acc := by
    rw [chosen] at le all ⊢
    have same : total (l'.blocks 0 size) = n * size := by rw [whole, rest, total_blocks_congr]
    have within : k * size ≤ total (l'.blocks 0 size) := same ▸ Nat.mul_le_mul_right size le
    obtain ⟨p', m, exit, run, served⟩ := handles c k relOff p done some_blocks within
      (fun uncut => by rw [all uncut, same]) acc
    refine ⟨p', m, exit, (call k p).trans run, ?_⟩
    rwa [leaf.rest_eq, rest, map_bytes_blocks]

theorem chosen (leaf : e.AtLeaf l size extent) (sound : l.Sound) (pos : 0 < size) (serves : Serves fns l size A E ptr) :
    Chosen fns e l size A E ptr := by
  have params : e.loopP.loopParams = l := by rw [leaf.loaded.loop]; rfl
  have elSize : e.loopP.elSize = size := by rw [leaf.loaded.loop]; rfl
  have some_left := leaf.some_left
  have count := leaf.count_eq
  have block_le := leaf.block_le
  have first (whole : e.origCount = e.curcount) : e.done = 0 := by
    unfold done
    omega
  cases l with
  | contig n => exact leaf.chosen_contig serves (by simp [PieceFns.choose, params])
  | vector n blksz stride =>
    by_cases given : fns.vectorfn.isSome ∧ e.origBlock = e.curblock
    · obtain ⟨f, some_fn⟩ := Option.isSome_iff_exists.mp given.1
      have block : e.curblock = blksz := given.2.symm.trans (leaf.origBlock_eq (by simp))
      have fewer : e.curcount ≤ n := leaf.within.trans_eq count
      have left : n - e.done = e.curcount := by
        have : e.origCount = n := count
        unfold done
        omega
      have rest : e.restBlocks (.vector n blksz stride) size =
          (LoopParams.vector e.curcount blksz stride).blocks e.curoffset size := by
        rw [leaf.restBlocks_start block, blocks_vector_drop, left, leaf.offset, block]
        simp [LoopParams.offset, LoopParams.blocksize]
      refine leaf.chosen_other .vector (e.curblock * e.curcount)
        (serves.vector f some_fn n blksz stride rfl e.curcount some_left fewer) (by simp [PieceFns.choose, params, given])
        (Nat.le_mul_of_pos_right _ some_left) block rest ?_ fun k p => ?_
      · rw [rest, ← List.drop_zero (l := LoopParams.blocks _ _ _), total_uniform (B := blksz) (fun _ => rfl), block]
        simp only [LoopParams.count, Nat.sub_zero]
        ring
      · simp [PieceFns.call, params, some_fn, elSize, given.2, block]
    · exact leaf.chosen_contig serves (by simp only [PieceFns.choose, params, if_neg given])
  | blockindexed n blksz offsets =>
    by_cases given : fns.blkidxfn.isSome ∧ e.origBlock = e.curblock ∧ e.origCount = e.curcount
    · obtain ⟨f, some_fn⟩ := Option.isSome_iff_exists.mp given.1
      have block : e.curblock = blksz := given.2.1.symm.trans (leaf.origBlock_eq (by simp))
      have whole : e.curcount = n := given.2.2.symm.trans count
      have rest : e.restBlocks (.blockindexed n blksz offsets) size =
          (LoopParams.blockindexed n blksz offsets).blocks e.origOffset size := by
        rw [leaf.restBlocks_start block, first given.2.2, List.drop_zero]
      refine leaf.chosen_other .blockindexed (e.curblock * e.curcount) (serves.blkidx f some_fn n blksz offsets rfl)
        (by simp [PieceFns.choose, params, given])
        (Nat.le_mul_of_pos_right _ some_left) block rest ?_ fun k p => ?_
      · rw [rest, ← List.drop_zero (l := LoopParams.blocks _ _ _), total_uniform (B := blksz) (fun _ => rfl),
          block, whole]
        simp only [LoopParams.count, Nat.sub_zero]
        ring
      · simp [PieceFns.call, params, some_fn, elSize, given.2.1, block, whole]
    · exact leaf.chosen_contig serves (by simp only [PieceFns.choose, params, if_neg given])
  | indexed n sizes offsets totalBlocks =>
    by_cases given : fns.indexfn.isSome ∧ e.origCount = e.curcount ∧ e.curblock = sizes.getD 0 0
    · obtain ⟨f, some_fn⟩ := Option.isSome_iff_exists.mp given.1
      have block : e.curblock = (LoopParams.indexed n sizes offsets totalBlocks).blocksize e.done := by
        rw [given.2.2, first given.2.1]
        rfl
      have whole : e.curcount = n := given.2.1.symm.trans count
      have rest : e.restBlocks (.indexed n sizes offsets totalBlocks) size =
          (LoopParams.indexed n sizes offsets totalBlocks).blocks e.origOffset size := by
        rw [leaf.restBlocks_start block, first given.2.1, List.drop_zero]
      obtain ⟨length, -, sum⟩ := sound.filled
      have contents : (List.range n).map (fun i => sizes.getD i 0) = sizes := by
        apply List.ext_getElem
        · simp [length]
        · intro i lt lt'
          simp [List.getD, lt']
      have all : totalBlocks * size = total (e.restBlocks (.indexed n sizes offsets totalBlocks) size) :=
        calc totalBlocks * size = ((List.range n).map fun i => sizes.getD i 0).sum * size := by rw [contents, sum]
          _ = ((List.range n).map fun i => sizes.getD i 0 * size).sum := (List.sum_map_mul_right _ _ _).symm
          _ = total (e.restBlocks (.indexed n sizes offsets totalBlocks) size) := by
            rw [rest, total, LoopParams.blocks, List.map_map]
            rfl
      refine leaf.chosen_other .indexed totalBlocks (serves.index f some_fn n sizes offsets totalBlocks rfl)
        (by simp [PieceFns.choose, params, given]) ?_ block rest all fun k p => ?_
      · rw [total_rest] at all
        exact Nat.le_of_mul_le_mul_right (all ▸ Nat.le_add_right _ _) pos
      · simp [PieceFns.call, params, some_fn, elSize, whole]
    · exact leaf.chosen_contig serves (by simp only [PieceFns.choose, params, if_neg given])

end Stackelm.AtLeaf

end Choose

end FoMPI.Mpitypes
