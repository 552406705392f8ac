import FoMPI.Mpitypes.Stream

/-!
# The elements of the stack

What a leaf does with the blocks that were processed, and how another loop pushes the loop
inside it once for each of its elements.
-/
namespace FoMPI.Mpitypes
open FoMPI.Foundation

theorem Block.bytes_drop {b : Block} {k : ℕ} (le : k ≤ b.blocklen) :
    b.bytes.drop k = Block.bytes ⟨b.displ + k, b.blocklen - k⟩ := by
  rw [b.bytes_split le, List.drop_left' (by simp)]

section Leaf
variable {e e' : Stackelm} {l : LoopParams} {size m : ℕ} {extent : ℤ}

namespace Stackelm.AtLeaf

theorem count_eq (leaf : e.AtLeaf l size extent) : e.origCount = l.count := leaf.loaded.count

theorem total_rest (e : Stackelm) : total (e.restBlocks l size) =
    e.curblock * size + total ((l.blocks e.origOffset size).drop (e.done + 1)) := by
  simp [restBlocks]

/-- What is left when the current block and more is done with. -/
theorem whole (leaf : e.AtLeaf l size extent) (sound : l.Sound) (pos : 0 < size) (ge : e.curblock ≤ m)
    (room : m * size ≤ total (e.restBlocks l size)) :
    ∃ curcount curblock left,
      wholeBlocks l.blocksize e.origCount e.curcount e.curblock m = some (curcount, curblock, left) ∧
      curcount < e.curcount ∧
      e.rest.drop (m * size) = (bytes ((l.blocks e.origOffset size).drop (l.count - curcount))).drop (left * size) ∧
      (curcount = 0 → left = 0) ∧
      (0 < curcount → left < curblock ∧ curblock = l.blocksize (l.count - curcount)) := by
  obtain ⟨k, count⟩ : ∃ k, e.curcount = k + 1 := Nat.exists_eq_succ_of_ne_zero leaf.some_left.ne'
  have within := leaf.within
  rw [leaf.count_eq] at within
  have next : e.done + 1 = l.count - k := by
    unfold done
    rw [leaf.count_eq]
    omega
  rw [total_rest, next] at room
  have fewer : (m - e.curblock) * size ≤ total ((l.blocks e.origOffset size).drop (l.count - k)) := by
    rw [Nat.sub_mul]
    omega
  obtain ⟨curcount, curblock, left, run, less, same, none, some_left⟩ :=
    wholeBlocks_spec sound pos e.origOffset k (l.blocksize (l.count - k)) (m - e.curblock) (by omega)
      (fun _ => rfl) fewer
  refine ⟨curcount, curblock, left, ?_, by omega, ?_, none, some_left⟩
  · rw [leaf.count_eq, count, wholeBlocks, if_pos ⟨leaf.block.trans_le ge, ge⟩, run]
  · have long : e.curblock * size ≤ m * size := Nat.mul_le_mul_right size ge
    rw [leaf.rest_eq, restBlocks, bytes_cons, List.drop_append, List.drop_eq_nil_of_le (by simpa using long),
      List.nil_append, Block.length_bytes, next, ← same, Nat.sub_mul]

/-- A leaf goes on in a later block. -/
theorem resume (leaf : e.AtLeaf l size extent) (loaded : e'.Loaded (.final l size extent)) {left : ℕ}
    (some_left : 0 < e'.curcount) (less : e'.curcount < e.curcount) (same : e'.origOffset = e.origOffset)
    (inside : left < l.blocksize (l.count - e'.curcount))
    (curblock : e'.curblock = l.blocksize (l.count - e'.curcount) - left)
    (curoffset : e'.curoffset = e.origOffset + l.offset (l.count - e'.curcount) + left * size) :
    e'.AtLeaf l size extent ∧
      e'.rest = (bytes ((l.blocks e.origOffset size).drop (l.count - e'.curcount))).drop (left * size) := by
  have count : e'.origCount = l.count := loaded.count
  have done_eq : e'.done = l.count - e'.curcount := by rw [done, count]
  have within := leaf.within
  rw [leaf.count_eq] at within
  have back : l.blocksize (l.count - e'.curcount) - e'.curblock = left := by omega
  have at_leaf : e'.AtLeaf l size extent :=
    ⟨loaded, some_left, by omega, by omega, by rw [done_eq]; omega, by rw [done_eq, back, same, curoffset]⟩
  refine ⟨at_leaf, ?_⟩
  have le : left * size ≤ l.blocksize (l.count - e'.curcount) * size := Nat.mul_le_mul_right size inside.le
  have here : l.count - e'.curcount < l.count := by omega
  rw [at_leaf.rest_eq, restBlocks, done_eq, same, blocks_drop here, bytes_cons, bytes_cons, List.drop_append,
    Block.bytes_drop le, Block.length_bytes, Nat.sub_eq_zero_of_le le, List.drop_zero, curoffset, curblock,
    Nat.sub_mul, Nat.cast_mul]

theorem loaded_of_eq (leaf : e.AtLeaf l size extent) (loop : e'.loopP = e.loopP) (count : e'.origCount = e.origCount)
    (block : (∃ count sizes offsets total, l = .indexed count sizes offsets total) ∨ e'.origBlock = e.origBlock) :
    e'.Loaded (.final l size extent) := by
  refine ⟨loop.trans leaf.loaded.loop, count.trans leaf.loaded.count, ?_⟩
  obtain ⟨n, sizes, offsets, total, rfl⟩ | same := block
  · exact .inl ⟨n, sizes, offsets, total, rfl, rfl⟩
  · rw [same]
    exact leaf.loaded.block

theorem origBlock_eq (leaf : e.AtLeaf l size extent)
    (indexed : ∀ count sizes offsets total, l ≠ .indexed count sizes offsets total) :
    e.origBlock = l.blocksize 0 := by
  obtain ⟨n, sizes, offsets, total, rfl, -⟩ | block := leaf.loaded.block
  · exact absurd rfl (indexed n sizes offsets total)
  · exact block

theorem total_uniform {B : ℕ} (uniform : ∀ i, l.blocksize i = B) (o : ℤ) (c : ℕ) :
    total ((l.blocks o size).drop c) = (l.count - c) * (B * size) := by
  have constant : Block.blocklen ∘ (fun i => (⟨o + l.offset i, l.blocksize i * size⟩ : Block)) = fun _ => B * size := by
    funext i
    simp [uniform]
  rw [total, LoopParams.blocks, ← List.map_drop, List.map_map, constant]
  simp

/-- The division in the case of a vector. -/
theorem division {count B : ℕ} {stride : ℤ} (leaf : e.AtLeaf (.vector count B stride) size extent)
    (pos : 0 < size) (ge : e.curblock ≤ m) (start : m = e.curblock ∨ e.curblock = B)
    (room : m * size ≤ total (e.restBlocks (.vector count B stride) size)) :
    wholeBlocks (fun _ => B) e.origCount e.curcount e.curblock m =
      some (e.curcount - m / e.curblock, B, m % e.curblock) := by
  obtain ⟨k, some_left⟩ : ∃ k, e.curcount = k + 1 := Nat.exists_eq_succ_of_ne_zero leaf.some_left.ne'
  obtain rfl | start := start
  · rw [Nat.div_self leaf.block, Nat.mod_self, some_left, wholeBlocks, if_pos ⟨leaf.block, le_rfl⟩, Nat.sub_self,
      Nat.add_sub_cancel]
    cases k <;> simp [wholeBlocks]
  · have blocks : m ≤ e.curcount * B := by
      have within := leaf.within
      rw [leaf.count_eq] at within
      rw [leaf.restBlocks_start start, total_uniform (B := B) (fun _ => rfl), ← mul_assoc] at room
      have le := Nat.le_of_mul_le_mul_right room pos
      rwa [show LoopParams.count (.vector count B stride) - e.done = e.curcount by
        unfold done
        rw [leaf.count_eq]
        omega] at le
    have block_pos := leaf.block
    rw [start] at block_pos ⊢
    exact wholeBlocks_const block_pos _ _ _ blocks

/-- A leaf that has processed the rest of a block, or any number of whole ones and a part. -/
theorem advance_spec (leaf : e.AtLeaf l size extent) (sound : l.Sound) (pos : 0 < size) (ge : e.curblock ≤ m)
    (start : m = e.curblock ∨ e.curblock = l.blocksize e.done) (room : m * size ≤ total (e.restBlocks l size)) :
    ∃ e' popped, e.advance m = some (e', popped) ∧
      (popped = true → e'.Loaded (.final l size extent) ∧ e.rest.drop (m * size) = []) ∧
      (popped = false → e'.AtLeaf l size extent ∧ e'.rest = e.rest.drop (m * size)) := by
  obtain ⟨curcount, curblock, left, run, less, rest, none, some_left⟩ := leaf.whole sound pos ge room
  have finished (zero : curcount = 0) : e.rest.drop (m * size) = [] := by
    rw [rest, zero, Nat.sub_zero, blocks_drop_count]
    exact List.drop_nil
  have loop : e.loopP.loopParams = l := by rw [leaf.loaded.loop]; rfl
  have elSize : e.loopP.elSize = size := by rw [leaf.loaded.loop]; rfl
  unfold advance
  cases l with
  | contig count =>
    have one : e.curcount = 1 := by
      have within : e.curcount ≤ 1 := leaf.within.trans_eq leaf.count_eq
      have := leaf.some_left
      omega
    obtain rfl : curcount = 0 := by omega
    have last : (LoopParams.blocks (.contig count) e.origOffset size).drop (e.done + 1) = [] :=
      List.drop_eq_nil_of_le (by simp [LoopParams.blocks, LoopParams.count])
    rw [total_rest, last] at room
    have all : m = e.curblock := le_antisymm (Nat.le_of_mul_le_mul_right (by simpa [total] using room) pos) ge
    refine ⟨e, true, ?_, fun _ => ⟨leaf.loaded, finished rfl⟩, by simp⟩
    simp [loop, all, one]
  | vector count B stride =>
    have quotient := leaf.division pos ge start room
    obtain ⟨rfl, rfl, rfl⟩ : e.curcount - m / e.curblock = curcount ∧ B = curblock ∧ m % e.curblock = left := by
      have both := Option.some.inj (quotient.symm.trans run)
      simpa only [Prod.mk.injEq] using both
    have block : e.origBlock = B := leaf.origBlock_eq (by simp)
    simp only [loop, elSize]
    by_cases zero : e.curcount - m / e.curblock = 0
    · rw [if_pos zero, if_pos (none zero)]
      exact ⟨_, _, rfl, fun _ => ⟨leaf.loaded_of_eq rfl rfl (.inr rfl), finished zero⟩, by simp⟩
    · obtain ⟨inside, -⟩ := some_left (Nat.pos_of_ne_zero zero)
      rw [if_neg zero, block, Nat.sub_sub_self inside.le, rest]
      refine ⟨_, _, rfl, by simp, fun _ => ?_⟩
      apply leaf.resume
      · exact leaf.loaded_of_eq rfl rfl (.inr block.symm)
      · exact Nat.pos_of_ne_zero zero
      · exact less
      · rfl
      · exact inside
      · rfl
      · simp [LoopParams.offset, leaf.count_eq]
  | blockindexed count B offsets =>
    have block : e.origBlock = B := leaf.origBlock_eq (by simp)
    have run : wholeBlocks (fun _ => B) e.origCount e.curcount e.curblock m = some (curcount, curblock, left) := run
    simp only [loop, elSize, block, run, Option.bind_eq_bind, Option.bind_some]
    by_cases zero : curcount = 0
    · rw [if_pos zero, if_pos (none zero)]
      exact ⟨_, _, rfl, fun _ => ⟨leaf.loaded_of_eq rfl rfl (.inr block.symm), finished zero⟩, by simp⟩
    · obtain ⟨inside, rfl⟩ := some_left (Nat.pos_of_ne_zero zero)
      rw [if_neg zero, rest]
      refine ⟨_, _, rfl, by simp, fun _ => ?_⟩
      apply leaf.resume
      · exact leaf.loaded_of_eq rfl rfl (.inr block.symm)
      · exact Nat.pos_of_ne_zero zero
      · exact less
      · rfl
      · exact inside
      · rfl
      · simp [LoopParams.offset, leaf.count_eq]
  | indexed count sizes offsets totalBlocks =>
    have run : wholeBlocks (fun i => sizes.getD i 0) e.origCount e.curcount e.curblock m =
      some (curcount, curblock, left) := run
    simp only [loop, elSize, run, Option.bind_eq_bind, Option.bind_some]
    by_cases zero : curcount = 0
    · rw [if_pos zero, if_pos (none zero)]
      exact ⟨_, _, rfl, fun _ => ⟨leaf.loaded_of_eq rfl rfl (.inl ⟨_, _, _, _, rfl⟩), finished zero⟩, by simp⟩
    · obtain ⟨inside, rfl⟩ := some_left (Nat.pos_of_ne_zero zero)
      rw [if_neg zero, rest]
      refine ⟨_, _, rfl, by simp, fun _ => ?_⟩
      apply leaf.resume
      · exact leaf.loaded_of_eq rfl rfl (.inl ⟨_, _, _, _, rfl⟩)
      · exact Nat.pos_of_ne_zero zero
      · exact less
      · rfl
      · exact inside
      · rfl
      · simp [LoopParams.offset, leaf.count_eq]

/-- A leaf in the middle of a block. -/
theorem inBlock (leaf : e.AtLeaf l size extent) (lt : m < e.curblock) :
    Stackelm.AtLeaf { e with curoffset := e.curoffset + m * size, curblock := e.curblock - m } l size extent ∧
      Stackelm.rest { e with curoffset := e.curoffset + m * size, curblock := e.curblock - m } =
        e.rest.drop (m * size) := by
  have next : Stackelm.AtLeaf { e with curoffset := e.curoffset + m * size, curblock := e.curblock - m } l size
      extent := by
    refine ⟨leaf.loaded_of_eq rfl rfl (.inr rfl), leaf.some_left, leaf.within, Nat.sub_pos_of_lt lt,
      (Nat.sub_le _ _).trans leaf.block_le, ?_⟩
    have le := leaf.block_le
    have further : l.blocksize e.done - (e.curblock - m) = l.blocksize e.done - e.curblock + m := by omega
    change e.curoffset + m * size =
      e.origOffset + l.offset e.done + ((l.blocksize e.done - (e.curblock - m) : ℕ) : ℤ) * size
    rw [leaf.offset, further, Nat.cast_add]
    ring
  refine ⟨next, ?_⟩
  have le : m * size ≤ e.curblock * size := Nat.mul_le_mul_right size lt.le
  rw [next.rest_eq, leaf.rest_eq, restBlocks, restBlocks, bytes_cons, bytes_cons, List.drop_append,
    Block.bytes_drop le, Block.length_bytes, Nat.sub_eq_zero_of_le le, List.drop_zero, Nat.sub_mul, Nat.cast_mul]
  rfl

end Stackelm.AtLeaf

end Leaf

section Loop
variable {e : Stackelm} {l : LoopParams} {size : ℕ} {extent : ℤ} {d : Dataloop}

namespace Stackelm.AtLoop

theorem done_lt (loop : e.AtLoop l size extent d) : e.done < l.count := by
  have := loop.count
  have := loop.some_left
  have := loop.within
  unfold Stackelm.done
  omega

theorem rest_eq (loop : e.AtLoop l size extent d) : e.rest = (e.restPlaces l extent).flatMap d.bytes := by
  rw [rest, loop.loop]

theorem nextOffset_eq (loop : e.AtLoop l size extent d) (narrow : l.Narrow) : e.nextOffset =
    e.origOffset + l.offset e.done + ((l.blocksize e.done - e.curblock : ℕ) : ℤ) * extent := by
  have params : e.loopP.loopParams = l := by rw [loop.loop]; rfl
  have spacing : e.loopP.elExtent = extent := by rw [loop.loop]; rfl
  have countIndex : asInt (e.origCount - e.curcount : ℕ) = e.done := by
    have := loop.done_lt
    have := narrow.count
    exact asInt_eq (by omega) (by unfold done at *; omega)
  have blockIndex : asInt (l.blocksize e.done - e.curblock : ℕ) = (l.blocksize e.done - e.curblock : ℕ) := by
    have := narrow.blocksize e.done loop.done_lt
    exact asInt_eq (by omega) (by omega)
  unfold nextOffset
  rw [← loop.block] at blockIndex ⊢
  rw [params, spacing, countIndex, blockIndex]
  cases l with
  | contig count =>
    have start := loop.contig count rfl
    simp only [LoopParams.offset, start, add_zero]
  | vector => simp only [LoopParams.offset, done]
  | blockindexed | indexed =>
    simp only [LoopParams.offset, done, Int.toNat_natCast]
    ring

/-- One element is pushed. -/
theorem push (loop : e.AtLoop l size extent d) (narrow : l.Narrow) (some_left : 0 < e.curblock) :
    AtLoop { e with curblock := e.curblock - 1 } l size extent d ∧
      e.restPlaces l extent = e.nextOffset :: restPlaces { e with curblock := e.curblock - 1 } l extent := by
  refine ⟨⟨loop.loop, loop.count, loop.some_left, loop.within, loop.block, (Nat.sub_le _ _).trans loop.block_le,
    loop.contig⟩, ?_⟩
  have le : e.curblock ≤ l.blocksize e.done := loop.block ▸ loop.block_le
  have lt : l.blocksize e.done - e.curblock < (l.placesAt e.origOffset extent e.done).length := by
    simp only [LoopParams.placesAt, List.length_map, List.length_range]
    omega
  have next : l.blocksize e.done - e.curblock + 1 = l.blocksize e.done - (e.curblock - 1) := by omega
  have here : (l.placesAt e.origOffset extent e.done)[l.blocksize e.done - e.curblock] = e.nextOffset := by
    rw [loop.nextOffset_eq narrow]
    simp [LoopParams.placesAt]
  rw [restPlaces, List.drop_eq_getElem_cons lt, here, next]
  rfl

theorem restPlaces_last (zero : e.curblock = 0) : e.restPlaces l extent =
    ((List.range l.count).drop (e.done + 1)).flatMap (l.placesAt e.origOffset extent) := by
  rw [restPlaces, zero, Nat.sub_zero, List.drop_eq_nil_of_le (by simp [LoopParams.placesAt]), List.nil_append]

/-- A block is at its end. -/
theorem endBlock_spec (loop : e.AtLoop l size extent d) (zero : e.curblock = 0) :
    (e.endBlock.2 = true → e.endBlock.1.Loaded (.nested l size extent d) ∧ e.rest = []) ∧
      (e.endBlock.2 = false → e.endBlock.1.AtLoop l size extent d ∧ e.endBlock.1.curcount < e.curcount ∧
        e.endBlock.1.restPlaces l extent = e.restPlaces l extent) := by
  have params : e.loopP.loopParams = l := by rw [loop.loop]; rfl
  have some_left := loop.some_left
  have within := loop.within
  have count := loop.count
  have newBlock : e.endBlock.1.origBlock =
      l.blocksize (if e.curcount - 1 ≠ 0 then e.origCount - (e.curcount - 1) else 0) := by
    have block := loop.block
    unfold endBlock
    rw [params]
    cases l with
    | indexed => rfl
    | _ => exact block
  constructor
  · intro last
    have none : e.curcount - 1 = 0 := of_decide_eq_true last
    rw [if_neg (not_not.mpr none)] at newBlock
    refine ⟨⟨loop.loop, loop.count, .inr newBlock⟩, ?_⟩
    have all : (List.range l.count).drop (e.done + 1) = [] := List.drop_eq_nil_of_le (by
      simp only [List.length_range, done]
      omega)
    rw [loop.rest_eq, restPlaces_last zero, all]
    rfl
  · intro more
    have others : e.curcount - 1 ≠ 0 := of_decide_eq_false more
    have next : e.endBlock.1.done = e.done + 1 := by
      simp only [endBlock, done]
      omega
    rw [if_pos others] at newBlock
    have at_loop : e.endBlock.1.AtLoop l size extent d :=
      ⟨loop.loop, loop.count, Nat.pos_of_ne_zero others, (Nat.sub_le _ _).trans within, newBlock, le_rfl, loop.contig⟩
    refine ⟨at_loop, Nat.sub_lt some_left Nat.one_pos, ?_⟩
    have full : l.blocksize e.endBlock.1.done - e.endBlock.1.curblock = 0 := by
      rw [← at_loop.block]
      exact Nat.sub_self _
    have lt : e.done + 1 < l.count := next ▸ at_loop.done_lt
    rw [restPlaces_last zero, range_drop lt, restPlaces, full, List.drop_zero, next]
    rfl

end Stackelm.AtLoop

namespace Stackelm.Loaded

/-- A leaf is pushed. -/
theorem enter_leaf (loaded : e.Loaded (.final l size extent)) (sound : l.Sound) (x : ℤ) :
    (e.enter x).AtLeaf l size extent ∧ (e.enter x).rest = (Dataloop.final l size extent).bytes x := by
  have params : e.loopP.loopParams = l := by rw [loaded.loop]; rfl
  have count : e.origCount = l.count := loaded.count
  have start : (e.enter x).done = 0 := Nat.sub_self _
  have block : (e.enter x).curblock = l.blocksize 0 := by
    obtain ⟨n, sizes, offsets, total, rfl, -⟩ | same := loaded.block
    · simp [enter, params, LoopParams.blocksize]
    · simp only [enter, params]
      cases l with
      | indexed => rfl
      | _ => exact same
  have offset : (e.enter x).curoffset = x + l.offset 0 := by
    cases l <;> simp [enter, params, LoopParams.offset]
  have at_leaf : (e.enter x).AtLeaf l size extent := by
    refine ⟨⟨loaded.loop, loaded.count, loaded.block⟩, ?_, le_rfl, ?_, ?_, ?_⟩
    · change 0 < e.origCount
      rw [count]
      exact sound.some_blocks
    · rw [block]
      exact sound.positive 0 sound.some_blocks
    · rw [block, start]
    · rw [block, start, offset, Nat.sub_self, Nat.cast_zero, zero_mul, add_zero]
      rfl
  refine ⟨at_leaf, ?_⟩
  rw [at_leaf.rest_eq, at_leaf.restBlocks_start (by rw [block, start]), start, List.drop_zero]
  rfl

/-- Another loop is pushed. -/
theorem enter_loop (loaded : e.Loaded (.nested l size extent d)) (sound : l.Sound) (x : ℤ) :
    (e.enter x).AtLoop l size extent d ∧ (e.enter x).rest = (Dataloop.nested l size extent d).bytes x ∧
      (e.enter x).restPlaces l extent = l.places x extent ∧ (e.enter x).curcount = l.count := by
  have params : e.loopP.loopParams = l := by rw [loaded.loop]; rfl
  have count : e.origCount = l.count := loaded.count
  have start : (e.enter x).done = 0 := Nat.sub_self _
  have same : e.origBlock = l.blocksize 0 := by
    obtain ⟨n, sizes, offsets, total, -, leaf⟩ | same := loaded.block
    · contradiction
    · exact same
  have block : (e.enter x).curblock = l.blocksize 0 := by
    simp only [enter, params]
    cases l with
    | indexed => rfl
    | _ => exact same
  have at_loop : (e.enter x).AtLoop l size extent d := by
    refine ⟨loaded.loop, loaded.count, ?_, le_rfl, ?_, ?_, ?_⟩
    · change 0 < e.origCount
      rw [count]
      exact sound.some_blocks
    · rw [start]
      exact same
    · rw [block]
      exact same.ge
    · rintro n rfl
      simp [enter, params]
  have places : (e.enter x).restPlaces l extent = l.places x extent := by
    have whole : (List.range l.count).drop 0 = 0 :: (List.range l.count).drop (0 + 1) := range_drop sound.some_blocks
    rw [List.drop_zero] at whole
    rw [restPlaces, start, block, Nat.sub_self, List.drop_zero, LoopParams.places, whole]
    rfl
  refine ⟨at_loop, ?_, places, count⟩
  rw [at_loop.rest_eq, places]
  rfl

end Stackelm.Loaded

theorem Stackelm.loaded_load (e : Stackelm) (d : Dataloop) : (e.load d).Loaded d := ⟨rfl, rfl, .inr rfl⟩

/-- The first element begins as those that are pushed do. -/
theorem Stackelm.begin_load (e : Stackelm) (d : Dataloop) : (e.load d).begin = (e.load d).enter 0 := by
  have params : (e.load d).loopP.loopParams = d.loopParams := rfl
  unfold Stackelm.begin Stackelm.enter
  rw [params]
  cases loop : d.loopParams <;> simp [Stackelm.load, loop, LoopParams.firstOffset, LoopParams.blocksize]

end Loop

end FoMPI.Mpitypes
