import FoMPI.Mpitypes.Manipulate

/-!
# Counting regions

The piece functions of `MPIT_Type_blockct` keep the number of regions so far and where the last
one ends. Those for more than one region take it that they are asked for all of them; that for
indexed blocks does not look between these, which are merged when such a loop is built.
-/
namespace FoMPI.Mpitypes
open FoMPI.Foundation

/-- `contig_blocks_params`. -/
@[ext]
structure ContigBlocksParams where
  count : ℤ
  lastLoc : ℤ
  deriving DecidableEq, Repr

/-- The region begins where the last one ends. -/
def ContigBlocksParams.adjacent (params : ContigBlocksParams) (loc : ℤ) : Prop :=
  0 < params.count ∧ loc = params.lastLoc

instance (params : ContigBlocksParams) (loc : ℤ) : Decidable (params.adjacent loc) :=
  inferInstanceAs (Decidable (_ ∧ _))

/-- `DLOOP_Leaf_contig_count_block`. -/
def leafContigCountBlock (blocks elSize : ℕ) (relOff _bufp : ℤ) (params : ContigBlocksParams) :
    Option (ContigBlocksParams × ℕ × Bool) :=
  if 0 < blocks then
    let size := blocks * elSize
    if params.adjacent relOff then some ({ params with lastLoc := params.lastLoc + size }, blocks, false)
    else some (⟨params.count + 1, relOff + size⟩, blocks, false)
  else none

/-- `DLOOP_Leaf_vector_count_block`. -/
def leafVectorCountBlock (blocks count blksz : ℕ) (stride : ℤ) (elSize : ℕ) (relOff _bufp : ℤ)
    (params : ContigBlocksParams) :
    Option (ContigBlocksParams × ℕ × Bool) :=
  if 0 < count ∧ 0 < blksz ∧ 0 < blocks then
    let size : ℤ := elSize * blksz
    let newBlkCount : ℤ := if size = stride then 1 else count
    let newBlkCount := if params.adjacent relOff then newBlkCount - 1 else newBlkCount
    some (⟨params.count + newBlkCount, relOff + (count - 1) * stride + size⟩, blocks, false)
  else none

/-- The loop of `DLOOP_Leaf_blkidx_count_block` from block `i` on, of which `count` are left. -/
def blkidxCount (relOff : ℤ) (offsetarray : List ℤ) (size : ℤ) : (count i : ℕ) → (newBlkCount lastLoc : ℤ) → ℤ × ℤ
  | 0, _, newBlkCount, lastLoc => (newBlkCount, lastLoc)
  | count + 1, i, newBlkCount, lastLoc =>
    let loc := relOff + offsetarray.getD i 0
    blkidxCount relOff offsetarray size count (i + 1) (if lastLoc = loc then newBlkCount - 1 else newBlkCount)
      (loc + size)

/-- `DLOOP_Leaf_blkidx_count_block`. -/
def leafBlkidxCountBlock (blocks count blksz : ℕ) (offsetarray : List ℤ) (elSize : ℕ) (relOff _bufp : ℤ)
    (params : ContigBlocksParams) : Option (ContigBlocksParams × ℕ × Bool) :=
  if 0 < count ∧ 0 < blksz ∧ 0 < blocks then
    let size : ℤ := elSize * blksz
    let loc := relOff + offsetarray.getD 0 0
    let (newBlkCount, lastLoc) :=
      blkidxCount relOff offsetarray size (count - 1) 1 (if params.adjacent loc then count - 1 else count) (loc + size)
    some (⟨params.count + newBlkCount, lastLoc⟩, blocks, false)
  else none

/-- `DLOOP_Leaf_index_count_block`. -/
def leafIndexCountBlock (blocks count : ℕ) (blockarray : List ℕ) (offsetarray : List ℤ) (elSize : ℕ) (relOff _bufp : ℤ)
    (params : ContigBlocksParams) : Option (ContigBlocksParams × ℕ × Bool) :=
  if 0 < count ∧ 0 < blocks then
    let newBlkCount : ℤ := if params.adjacent (relOff + offsetarray.getD 0 0) then count - 1 else count
    let lastLoc := relOff + offsetarray.getD (count - 1) 0 + blockarray.getD (count - 1) 0 * elSize
    some (⟨params.count + newBlkCount, lastLoc⟩, blocks, false)
  else none

def countFns : PieceFns ContigBlocksParams where
  contigfn := some leafContigCountBlock
  vectorfn := some leafVectorCountBlock
  blkidxfn := some leafBlkidxCountBlock
  indexfn := some leafIndexCountBlock

/-- `Segment_count_contig_blocks`, with the value of `*lastp` that it leaves. -/
def segmentCountContigBlocks (fuel : ℕ) (s : Segment) (first last : ℤ) : Option (Segment × ℤ × ℤ) :=
  (s.manipulate countFns fuel first last ⟨0, 0⟩).map fun (s, last, params) => (s, last, params.count)

/-- `MPIT_Type_blockct` of a type that was initialised: whether it returns `MPI_SUCCESS`, and the value of
`*blocksp`. -/
def mpitTypeBlockct (fuel count : ℕ) (type : Handle) (start stop : ℤ) (stack : ℕ → Stackelm) : Option (Bool × ℤ) :=
  (segmentInit 0 count type stack).bind fun s =>
    (segmentCountContigBlocks fuel s start stop).map fun (_, last, blocks) => (last = stop, blocks)

section Steps
variable {params : ContigBlocksParams} {bufp : ℤ} {done : List ℤ} {b : Block} {bs : List Block}

/-- The number of runs so far, and where the last one ends. -/
structure Counts (bufp : ℤ) (params : ContigBlocksParams) (done : List ℤ) : Prop where
  count : params.count = (runs done).length
  lastLoc : ∀ a, (runs done).getLast? = some a → a.stop = bufp + params.lastLoc

/-- One more region. -/
def ContigBlocksParams.next (params : ContigBlocksParams) (b : Block) : ContigBlocksParams :=
  ⟨if params.adjacent b.displ then params.count else params.count + 1, b.stop⟩

theorem Counts.adjacent_iff (counts : Counts bufp params done) (loc : ℤ) :
    params.adjacent loc ↔ ∃ a, (runs done).getLast? = some a ∧ a.stop = bufp + loc := by
  unfold ContigBlocksParams.adjacent
  rw [counts.count]
  constructor
  · rintro ⟨some_runs, rfl⟩
    have nonempty : runs done ≠ [] := List.ne_nil_of_length_pos (by omega)
    exact ⟨_, List.getLast?_eq_getLast_of_ne_nil nonempty,
      counts.lastLoc _ (List.getLast?_eq_getLast_of_ne_nil nonempty)⟩
  · rintro ⟨a, last, stop⟩
    have nonempty : runs done ≠ [] := fun none => by simp [none] at last
    have long := List.length_pos_of_ne_nil nonempty
    have same := counts.lastLoc a last
    exact ⟨by omega, by omega⟩

theorem Counts.next (counts : Counts bufp params done) (pos : 0 < b.blocklen) :
    Counts bufp (params.next b) (done ++ (Block.mk (bufp + b.displ) b.blocklen).bytes) := by
  have runs_eq := runs_attach (b := ⟨bufp + b.displ, b.blocklen⟩) pos done
  constructor
  · rw [runs_eq, ContigBlocksParams.next]
    by_cases adjacent : params.adjacent b.displ
    · obtain ⟨a, last, stop⟩ := (counts.adjacent_iff _).mp adjacent
      rw [if_pos adjacent, attach_of_adjacent last stop, counts.count]
    · have apart : ∀ a, (runs done).getLast? = some a → a.stop ≠ bufp + b.displ :=
        fun a last stop => adjacent ((counts.adjacent_iff _).mpr ⟨a, last, stop⟩)
      rw [if_neg adjacent, attach_of_apart apart, counts.count, List.length_append, List.length_singleton]
      push_cast
      rfl
  · intro a last
    obtain ⟨c, last', stop⟩ := getLast_attach (runs done) ⟨bufp + b.displ, b.blocklen⟩
    rw [runs_eq, last'] at last
    obtain rfl := Option.some.inj last
    rw [stop]
    simp only [ContigBlocksParams.next, Block.stop]
    ring

/-- One region after the other. -/
theorem Counts.foldl (counts : Counts bufp params done) (positive : Positive bs) :
    Counts bufp (bs.foldl ContigBlocksParams.next params) (done ++ (bytes bs).map (bufp + ·)) := by
  induction bs generalizing params done with
  | nil => simpa [bytes] using counts
  | cons b bs ih =>
    rw [bytes_cons, List.map_append, Block.map_bytes, ← List.append_assoc]
    exact ih (counts.next positive.head) positive.tail

/-- Regions of which none touches the next. -/
theorem foldl_separated (separated : Separated (b :: bs)) : (b :: bs).foldl ContigBlocksParams.next params =
    ⟨params.count + (if params.adjacent b.displ then bs.length else bs.length + 1 : ℤ),
      ((b :: bs).getLast (List.cons_ne_nil b bs)).stop⟩ := by
  induction bs generalizing b params with
  | nil =>
    simp only [List.foldl_cons, List.foldl_nil, ContigBlocksParams.next, List.getLast_singleton,
      List.length_nil, Nat.cast_zero]
    split <;> simp
  | cons c bs ih =>
    obtain ⟨apart, separated'⟩ := List.isChain_cons_cons.mp separated
    have next_apart : ¬(params.next b).adjacent c.displ := fun touches => apart touches.2.symm
    rw [List.foldl_cons, ih separated', if_neg next_apart, List.getLast_cons (List.cons_ne_nil c bs)]
    simp only [ContigBlocksParams.next, List.length_cons, ContigBlocksParams.mk.injEq, and_true]
    split
    · push_cast
      ring
    · push_cast
      ring

end Steps

section Leaves
variable {l : LoopParams} {size : ℕ} {o bufp : ℤ} {params : ContigBlocksParams} {done : List ℤ}

theorem blocks_first (some_blocks : 0 < l.count) : l.blocks o size =
    ⟨o + l.offset 0, l.blocksize 0 * size⟩ :: (l.blocks o size).drop 1 := blocks_drop some_blocks

theorem foldl_blocks (some_blocks : 0 < l.count) (separated : Separated (l.blocks o size)) :
    (l.blocks o size).foldl ContigBlocksParams.next params =
      ⟨params.count + (if params.adjacent (o + l.offset 0) then l.count - 1 else l.count : ℤ),
        o + l.offset (l.count - 1) + l.blocksize (l.count - 1) * size⟩ := by
  have first : l.blocks o size = ⟨o + l.offset 0, _⟩ :: _ := blocks_first some_blocks
  have length : (((l.blocks o size).drop 1).length : ℤ) = l.count - 1 := by
    simp only [LoopParams.blocks, List.length_drop, List.length_map, List.length_range]
    omega
  have last (nonempty : l.blocks o size ≠ []) : ((l.blocks o size).getLast nonempty).stop =
      o + l.offset (l.count - 1) + l.blocksize (l.count - 1) * size := by
    simp [LoopParams.blocks, List.getLast_map, List.getLast_range, Block.stop]
  have nonempty : l.blocks o size ≠ [] := by
    rw [first]
    exact List.cons_ne_nil _ _
  rw [← last nonempty]
  revert last nonempty separated
  rw [first]
  intro separated nonempty last
  rw [foldl_separated separated, length, sub_add_cancel]

theorem positive_blocks (sound : l.Sound) (pos : 0 < size) : Positive (l.blocks o size) := by
  intro b mem
  obtain ⟨i, lt, rfl⟩ := List.mem_map.mp mem
  exact Nat.mul_pos (sound.positive i (List.mem_range.mp lt)) pos

/-- All regions of a leaf. -/
theorem Counts.blocks (counts : Counts bufp params done) (sound : l.Sound) (pos : 0 < size) :
    Counts bufp ((l.blocks o size).foldl ContigBlocksParams.next params)
    (done ++ bytes (l.blocks (bufp + o) size)) := by
  rw [← map_bytes_blocks]
  exact counts.foldl (positive_blocks sound pos)

/-- The loop: by induction on the blocks that are left. -/
theorem blkidxCount_spec {n blksz : ℕ} {offsets : List ℤ} :
    ∀ (count i : ℕ) (new c lastLoc : ℤ), i + count = n → 0 < c →
      blkidxCount o offsets (size * blksz) count i new lastLoc =
        (new - count - c + ((((LoopParams.blockindexed n blksz offsets).blocks o size).drop i).foldl
          ContigBlocksParams.next
            ⟨c, lastLoc⟩).count,
          ((((LoopParams.blockindexed n blksz offsets).blocks o size).drop i).foldl ContigBlocksParams.next
            ⟨c, lastLoc⟩).lastLoc) := by
  intro count
  induction count with
  | zero =>
    intro i new c lastLoc all pos
    have none : ((LoopParams.blockindexed n blksz offsets).blocks o size).drop i = [] := by
      apply List.drop_eq_nil_of_le
      simp only [LoopParams.blocks, List.length_map, List.length_range, LoopParams.count]
      omega
    rw [none, blkidxCount]
    simp
  | succ count ih =>
    intro i new c lastLoc all pos
    have here : i < (LoopParams.blockindexed n blksz offsets).count := by
      simp only [LoopParams.count]
      omega
    have stop : o + offsets.getD i 0 + ((blksz * size : ℕ) : ℤ) = o + offsets.getD i 0 + size * blksz := by
      push_cast
      ring
    rw [blocks_drop here, List.foldl_cons, blkidxCount]
    simp only [ContigBlocksParams.next, ContigBlocksParams.adjacent, pos, true_and, Block.stop, LoopParams.offset,
      LoopParams.blocksize, stop]
    by_cases touches : lastLoc = o + offsets.getD i 0
    · rw [if_pos touches, if_pos touches.symm, ih (i + 1) _ c _ (by omega) pos, Prod.mk.injEq]
      refine ⟨?_, rfl⟩
      push_cast
      ring
    · rw [if_neg touches, if_neg fun same => touches same.symm, ih (i + 1) _ (c + 1) _ (by omega) (by omega),
        Prod.mk.injEq]
      refine ⟨?_, rfl⟩
      push_cast
      ring

/-- The count is exact, or no less than it should be when a piece was cut off. -/
def Counted (bufp : ℤ) : Bool → ContigBlocksParams → List ℤ → Prop
  | false => Counts bufp
  | true => fun params done => ((runs done).length : ℤ) ≤ params.count

theorem Counts.counted (counts : Counts bufp params done) (c : Bool) : Counted bufp c params done := by
  cases c with
  | false => exact counts
  | true => exact counts.count.ge

/-- Piece functions that take the regions for whole. -/
theorem handles_whole {f : ℕ → ℤ → ℤ → ContigBlocksParams → Option (ContigBlocksParams × ℕ × Bool)} {E}
    (whole : ∀ blocks relOff params done, 0 < blocks → Counts bufp params done →
      ∃ params', f blocks relOff bufp params = some (params', blocks, false) ∧
        Counts bufp params' (done ++ bytes (l.blocks (bufp + relOff) size))) :
    Handles size (Counted bufp) E bufp f l := by
  intro c blocks relOff params done some_blocks within all counts
  obtain ⟨params', run, counts'⟩ := whole blocks relOff params done some_blocks counts
  refine ⟨params', blocks, false, run, fun _ => ⟨rfl, ?_⟩, by simp⟩
  cases c with
  | false =>
    have length : (bytes (l.blocks (bufp + relOff) size)).length = blocks * size := by
      rw [length_bytes, all rfl]
      exact total_blocks_congr
    rw [← length, List.take_length]
    exact counts'
  | true =>
    -- the regions behind the end of the range are counted, too
    have fewer := length_runs_le (done ++ (bytes (l.blocks (bufp + relOff) size)).take (blocks * size))
      ((bytes (l.blocks (bufp + relOff) size)).drop (blocks * size))
    rw [List.append_assoc, List.take_append_drop] at fewer
    change (_ : ℤ) ≤ params'.count
    rw [counts'.count]
    exact_mod_cast fewer

theorem leafContigCountBlock_eq {blocks : ℕ} {relOff : ℤ} (some_blocks : 0 < blocks) :
    leafContigCountBlock blocks size relOff bufp params =
      some (params.next ⟨relOff, blocks * size⟩, blocks, false) := by
  unfold leafContigCountBlock ContigBlocksParams.next
  rw [if_pos some_blocks]
  by_cases touches : params.adjacent relOff
  · have same : params.lastLoc = relOff := touches.2.symm
    simp [touches, Block.stop, same]
  · simp [touches, Block.stop]

theorem vector_count {k blksz : ℕ} {stride : ℤ} (sound : (LoopParams.vector k blksz stride).Sound)
    (pos : 0 < size) {E} :
    Handles size (Counted bufp) E bufp (fun n => leafVectorCountBlock n k blksz stride size)
    (.vector k blksz stride) := by
  have k_pos : 0 < k := sound.some_blocks
  have blksz_pos : 0 < blksz := sound.positive 0 k_pos
  refine handles_whole fun blocks relOff params done some_blocks counts => ?_
  unfold leafVectorCountBlock
  rw [if_pos ⟨k_pos, blksz_pos, some_blocks⟩]
  refine ⟨_, rfl, ?_⟩
  by_cases dense : (size : ℤ) * blksz = stride
  · -- the regions are adjacent to one another
    have one : bytes ((LoopParams.vector k blksz stride).blocks (bufp + relOff) size) =
        (Block.mk (bufp + relOff) (k * (blksz * size))).bytes := by
      rw [contiguous_items, bytes, LoopParams.blocks, List.flatMap_map]
      congr 1
      funext i
      congr 2
      simp only [LoopParams.offset, ← dense]
      push_cast
      ring
    have next := counts.next (b := ⟨relOff, k * (blksz * size)⟩) (Nat.mul_pos k_pos (Nat.mul_pos blksz_pos pos))
    rw [one]
    convert next using 1
    rw [if_pos dense, ContigBlocksParams.next, ContigBlocksParams.mk.injEq]
    constructor
    · dsimp only
      split
      · rw [sub_self, add_zero]
      · rfl
    · rw [← dense]
      simp only [Block.stop]
      push_cast
      ring
  · have separated : Separated ((LoopParams.vector k blksz stride).blocks relOff size) := by
      refine List.isChain_iff_getElem.mpr fun i lt touches => dense ?_
      simp only [LoopParams.blocks, List.getElem_map, List.getElem_range, Block.stop, LoopParams.offset,
        LoopParams.blocksize] at touches
      push_cast at touches
      linarith
    have all := counts.blocks (o := relOff) sound pos
    rw [foldl_blocks sound.some_blocks separated] at all
    convert all using 1
    have last : ((k - 1 : ℕ) : ℤ) = k - 1 := by omega
    simp only [if_neg dense, LoopParams.offset, LoopParams.count, LoopParams.blocksize, last,
      ContigBlocksParams.mk.injEq,
      Nat.cast_zero, zero_mul, add_zero, true_and]
    ring

theorem blkidx_count {n blksz : ℕ} {offsets : List ℤ} (sound : (LoopParams.blockindexed n blksz offsets).Sound)
    (pos : 0 < size) {E} :
    Handles size (Counted bufp) E bufp (fun k => leafBlkidxCountBlock k n blksz offsets size)
    (.blockindexed n blksz offsets) := by
  have n_pos : 0 < n := sound.some_blocks
  have blksz_pos : 0 < blksz := sound.positive 0 n_pos
  refine handles_whole fun blocks relOff params done some_blocks counts => ?_
  have all := counts.blocks (o := relOff) sound pos
  have first : (LoopParams.blockindexed n blksz offsets).blocks relOff size =
    ⟨relOff + offsets.getD 0 0, blksz * size⟩ ::
      ((LoopParams.blockindexed n blksz offsets).blocks relOff size).drop 1 := blocks_first sound.some_blocks
  have stop : relOff + offsets.getD 0 0 + ((blksz * size : ℕ) : ℤ) = relOff + offsets.getD 0 0 + size * blksz := by
    push_cast
    ring
  have nonneg : 0 ≤ params.count := counts.count ▸ Int.natCast_nonneg _
  have less : ((n - 1 : ℕ) : ℤ) = n - 1 := by omega
  rw [first, List.foldl_cons] at all
  simp only [ContigBlocksParams.next, Block.stop, stop] at all
  unfold leafBlkidxCountBlock
  rw [if_pos ⟨n_pos, blksz_pos, some_blocks⟩]
  refine ⟨_, rfl, ?_⟩
  convert all using 1
  by_cases touches : params.adjacent (relOff + offsets.getD 0 0)
  · rw [if_pos touches, if_pos touches, blkidxCount_spec (n := n) (n - 1) 1 _ params.count _ (by omega) touches.1, less]
    apply ContigBlocksParams.ext
    · dsimp only
      ring
    · rfl
  · rw [if_neg touches, if_neg touches, blkidxCount_spec (n := n) (n - 1) 1 _ (params.count + 1) _ (by omega)
      (by omega), less]
    apply ContigBlocksParams.ext
    · dsimp only
      ring
    · rfl

theorem index_count {n totalBlocks : ℕ} {sizes : List ℕ} {offsets : List ℤ}
    (sound : (LoopParams.indexed n sizes offsets totalBlocks).Sound) (pos : 0 < size)
    (separated : ∀ o, Separated ((LoopParams.indexed n sizes offsets totalBlocks).blocks o size)) {E} :
    Handles size (Counted bufp) E bufp (fun k => leafIndexCountBlock k n sizes offsets size)
    (.indexed n sizes offsets totalBlocks) := by
  have n_pos : 0 < n := sound.some_blocks
  refine handles_whole fun blocks relOff params done some_blocks counts => ?_
  have all := counts.blocks (o := relOff) sound pos
  rw [foldl_blocks sound.some_blocks (separated relOff)] at all
  unfold leafIndexCountBlock
  rw [if_pos ⟨n_pos, some_blocks⟩]
  exact ⟨_, rfl, all⟩

/-- Indexed blocks are merged where they touch when the loop is built. -/
def Merged (l : LoopParams) (size : ℕ) : Prop :=
  match l with
  | .indexed .. => Separated (l.blocks 0 size)
  | _ => True

theorem separated_add (separated : Separated (l.blocks 0 size)) (o : ℤ) : Separated (l.blocks o size) := by
  refine List.isChain_iff_getElem.mpr fun i lt => ?_
  have long : i + 1 < (l.blocks 0 size).length := by simpa [LoopParams.blocks] using lt
  have apart := List.isChain_iff_getElem.mp separated i long
  simp only [LoopParams.blocks, List.getElem_map, List.getElem_range, Block.stop] at apart ⊢
  omega

theorem serves_count (sound : l.Sound) (pos : 0 < size) (merged : Merged l size) (bufp : ℤ) :
    Serves countFns l size (Counted bufp) (fun _ _ _ => False) bufp where
  weaken params done counts := Counts.counted counts true
  null none := by simp [countFns] at none
  contig f found m c blocks relOff params done some_blocks within all counts := by
    obtain rfl : leafContigCountBlock = f := by simpa [countFns] using found
    have next := Counts.next (b := ⟨relOff, blocks * size⟩) counts (Nat.mul_pos some_blocks pos)
    refine ⟨_, blocks, false, leafContigCountBlock_eq some_blocks, fun _ => ⟨rfl, ?_⟩, by simp⟩
    rw [take_contig within]
    exact next.counted c
  vector f found count blksz stride same k k_pos _ := by
    obtain rfl : leafVectorCountBlock = f := by simpa [countFns] using found
    subst same
    exact vector_count ⟨trivial, k_pos, fun _ _ => sound.positive 0 sound.some_blocks⟩ pos
  blkidx f found count blksz offsets same := by
    obtain rfl : leafBlkidxCountBlock = f := by simpa [countFns] using found
    subst same
    exact blkidx_count sound pos
  index f found count sizes offsets totalBlocks same := by
    obtain rfl : leafIndexCountBlock = f := by simpa [countFns] using found
    subst same
    exact index_count sound pos (separated_add merged)

end Leaves

section Types
variable {h : Handle} {count fuel : ℕ} {start stop : ℤ}

/-- What `Segment_count_contig_blocks` makes of a new segment. -/
theorem count_spec (sound : h.Sound) (some_items : 0 < count) (shallow : (h.loopOf count).depth < maxDatatypeDepth)
    (merged : Merged (h.loopOf count).leaf.1 h.elSize) (positive : 0 ≤ start) (whole : (h.elSize : ℤ) ∣ start)
    (inside : start < (h.stream count).length) (short : (h.stream count).length < 2147483648)
    (ordered : stop = ignoreLast ∨ start ≤ stop) (enough : (h.loopOf count).work < fuel) (stack : ℕ → Stackelm) :
    ∃ s t k, segmentInit 0 count h stack = some s ∧
      segmentCountContigBlocks fuel s start stop =
        some (t, start + (between start stop h.elSize (h.stream count)).length, k) ∧
      (runs (between start stop h.elSize (h.stream count))).length ≤ k ∧
      (stop = ignoreLast ∨ (h.stream count).length ≤ stop →
        k = (runs (between start stop h.elSize (h.stream count))).length) := by
  obtain ⟨sound', leaf, bytes⟩ := loopOf_spec sound some_items
  obtain ⟨s, init, fresh⟩ := init_spec sound' shallow 0 stack
  have stream : (h.loopOf count).bytes 0 = h.stream count := by simpa using bytes 0
  have same : ((h.loopOf count).bytes 0).map (0 + ·) = h.stream count := (bytes_add _ 0 0).symm.trans stream
  have nonempty : start.toNat < ((h.loopOf count).bytes 0).length := by
    rw [stream]
    omega
  have pair : (h.loopOf count).leaf = ((h.loopOf count).leaf.1, h.elSize) := by rw [← leaf]
  have serves := serves_count sound'.leaf_pos.1 sound.elSize_pos merged 0
  have empty : Counted 0 false ⟨0, 0⟩ [] := ⟨rfl, fun a none => by simp [runs] at none⟩
  obtain ⟨t, k, params, run, settles⟩ :=
    manipulate_spec fresh sound' (sound'.narrow (stream ▸ short)) pair sound.elSize_pos serves empty positive whole
      nonempty ordered enough
  rw [same, stream] at settles
  obtain ⟨rfl, fewer, exact⟩ | ⟨_, _, _, -, -, stopped⟩ := settles
  · refine ⟨s, t, params.count, init, ?_, fewer, fun all => (exact all).count⟩
    rw [segmentCountContigBlocks, run, Option.map_some]
  · contradiction

/-- `MPIT_Type_blockct` never counts fewer regions than the range has, and counts them exactly when the range
goes to the end of the stream. -/
theorem blockct_runs (sound : h.Sound) (some_items : 0 < count) (shallow : (h.loopOf count).depth < maxDatatypeDepth)
    (merged : Merged (h.loopOf count).leaf.1 h.elSize) (positive : 0 ≤ start) (whole : (h.elSize : ℤ) ∣ start)
    (inside : start < (h.stream count).length) (short : (h.stream count).length < 2147483648)
    (ordered : stop = ignoreLast ∨ start ≤ stop) (enough : (h.loopOf count).work < fuel) (stack : ℕ → Stackelm) :
    ∃ k, mpitTypeBlockct fuel count h start stop stack =
        some (decide (start + (between start stop h.elSize (h.stream count)).length = stop), k) ∧
      (runs (between start stop h.elSize (h.stream count))).length ≤ k ∧
      (stop = ignoreLast ∨ (h.stream count).length ≤ stop →
        k = (runs (between start stop h.elSize (h.stream count))).length) := by
  obtain ⟨s, t, k, init, run, fewer, exact⟩ :=
    count_spec sound some_items shallow merged positive whole inside short ordered enough stack
  exact ⟨k, by rw [mpitTypeBlockct, init, Option.bind_some, run, Option.map_some], fewer, exact⟩

theorem blockct_runs_gapped : ∃ k, mpitTypeBlockct 30 2 gapped 4 16 cleared = some (true, k) ∧ k = 2 := by
  obtain ⟨k, run, -, all⟩ := blockct_runs gapped_sound (by decide : 0 < 2) (by decide) trivial (by decide : (0 : ℤ) ≤ 4)
    (by decide) (by decide) (by decide) (.inr (by decide : (4 : ℤ) ≤ 16))
      (by decide : (gapped.loopOf 2).work < 30) cleared
  have stops : decide ((4 : ℤ) + (between 4 16 gapped.elSize (gapped.stream 2)).length = 16) = true := by decide
  rw [stops] at run
  exact ⟨k, run, (all (.inr (by decide))).trans (by decide)⟩

end Types

end FoMPI.Mpitypes
