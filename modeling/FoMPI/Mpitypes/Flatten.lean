import FoMPI.Mpitypes.Manipulate

/-!
# Flattening a type

The piece functions of `MPIT_Type_flatten` write displacements and lengths in bytes, one entry for
each region that does not begin where the one in front of it ends. When all entries are used up
they stop at the next such region.
-/
namespace FoMPI.Mpitypes
open FoMPI.Foundation

/-- `mpi_flatten_params`; `index` is how many entries of `disps` and `blklens` are written. If an `int` was given a
value that it cannot hold there is `overflow`, and nothing is said of the entries. -/
structure FlattenParams where
  length : ℕ
  entries : List Block
  overflow : Bool
  deriving DecidableEq, Repr

/-- An `int` is given the value `n`. -/
def FlattenParams.int (params : FlattenParams) (n : ℕ) : FlattenParams :=
  { params with overflow := params.overflow || decide (2147483648 ≤ n) }

/-- A region of `size` bytes at `loc`, unless all entries are used up and it does not fit on the end of the last
one. There is at least one entry. -/
def FlattenParams.region (params : FlattenParams) (loc : ℤ) (size : ℕ) : Option FlattenParams :=
  match params.entries.getLast? with
  | none => 
    if params.entries.length = params.length then none
    else some { params.int size with entries := [⟨loc, size⟩] }
  | some last =>
    if params.entries.length = params.length ∧ last.stop ≠ loc then none
    else if last.stop = loc then
      -- added to the last one
      some { params.int (last.blocklen + size) with
        entries := params.entries.dropLast ++ [⟨last.displ, last.blocklen + size⟩] }
    else some { params.int size with entries := params.entries ++ [⟨loc, size⟩] }

/-- `DLOOP_Leaf_contig_mpi_flatten`. -/
def leafContigMpiFlatten (blocks elSize : ℕ) (relOff bufp : ℤ) (params : FlattenParams) :
    Option (FlattenParams × ℕ × Bool) :=
  match params.region (bufp + relOff) (blocks * elSize) with
  | none => some (params, 0, true)
  | some params => some (params, blocks, false)

/-- The loop over noncontiguous regions, from region `i` on, of which `count` are left; `blocks_left` is an `int` and
never more than in the beginning. -/
def flattenRegions (blocks elSize : ℕ) (loc : ℕ → ℤ) (blksz : ℕ → ℕ) :
    (count i blocksLeft : ℕ) → FlattenParams → Option (FlattenParams × ℕ × Bool)
  | 0, _, blocksLeft, params => if blocksLeft = 0 then some (params, blocks, false) else none
  | count + 1, i, blocksLeft, params =>
    if blocksLeft = 0 then some (params, blocks, false)
    else
      let (size, blocksLeft) :=
        if blksz i < blocksLeft then (blksz i * elSize, blocksLeft - blksz i) else (blocksLeft * elSize, 0)
      match params.region (loc i) size with
      | none => some (params, blocks - (blocksLeft + size / elSize), true)
      | some params => flattenRegions blocks elSize loc blksz count (i + 1) blocksLeft params

/-- `DLOOP_Leaf_vector_mpi_flatten`. -/
def leafVectorMpiFlatten (blocks count blksz : ℕ) (stride : ℤ) (elSize : ℕ) (relOff bufp : ℤ) (params : FlattenParams) :
    Option (FlattenParams × ℕ × Bool) :=
  flattenRegions blocks elSize (fun i => bufp + (relOff + i * stride)) (fun _ => blksz) count 0 blocks
    (params.int blocks)

/-- `DLOOP_Leaf_blkidx_mpi_flatten`. -/
def leafBlkidxMpiFlatten (blocks count blksz : ℕ) (offsetarray : List ℤ) (elSize : ℕ) (relOff bufp : ℤ)
    (params : FlattenParams) :
    Option (FlattenParams × ℕ × Bool) :=
  flattenRegions blocks elSize (fun i => bufp + relOff + offsetarray.getD i 0) (fun _ => blksz) count 0 blocks
    (params.int blocks)

/-- `DLOOP_Leaf_index_mpi_flatten`. -/
def leafIndexMpiFlatten (blocks count : ℕ) (blockarray : List ℕ) (offsetarray : List ℤ) (elSize : ℕ) (relOff bufp : ℤ)
    (params : FlattenParams) : Option (FlattenParams × ℕ × Bool) :=
  flattenRegions blocks elSize (fun i => bufp + relOff + offsetarray.getD i 0)
    (fun i => blockarray.getD i 0) count 0 blocks (params.int blocks)

def flattenFns : PieceFns FlattenParams where
  contigfn := some leafContigMpiFlatten
  vectorfn := some leafVectorMpiFlatten
  blkidxfn := some leafBlkidxMpiFlatten
  indexfn := some leafIndexMpiFlatten

/-- `Segment_mpi_flatten`, with the value of `*lastp` that it leaves. -/
def segmentMpiFlatten (fuel : ℕ) (s : Segment) (first last : ℤ) (length : ℕ) : Option (Segment × ℤ × List Block) :=
  if length = 0 then none
  else
    (s.manipulate flattenFns fuel first last ⟨length, [], false⟩).bind fun (s, last, params) =>
      if params.overflow then none else some (s, last, params.entries)

/-- `MPIT_Type_flatten` of a type that was initialised: whether it returns `MPI_SUCCESS`, and the entries, of which
`*lengthp` is the number. -/
def mpitTypeFlatten (fuel : ℕ) (typeptr : ℤ) (count : ℕ) (type : Handle) (start stop : ℤ) (length : ℕ)
    (stack : ℕ → Stackelm) : Option (Bool × List Block) :=
  (segmentInit typeptr count type stack).bind fun s =>
    (segmentMpiFlatten fuel s start stop length).map fun (_, last, entries) => (last = stop, entries)

section Region
variable {params params' : FlattenParams} {n size : ℕ} {loc x : ℤ} {done : List ℤ}

/-- The entries are the runs of what was processed. -/
structure Gathers (n : ℕ) (params : FlattenParams) (done : List ℤ) : Prop where
  length : params.length = n
  entries : params.entries = runs done
  room : params.entries.length ≤ n
  fits : params.overflow = true → 2147483648 ≤ done.length

/-- No entry is left for what begins at `x`. -/
structure Exhausted (n : ℕ) (params : FlattenParams) (done : List ℤ) (x : ℤ) : Prop where
  gathers : Gathers n params done
  full : params.entries.length = n
  apart : ∀ a, params.entries.getLast? = some a → a.stop ≠ x

theorem region_none (gathers : Gathers n params done) (none : params.region loc size = none) :
    Exhausted n params done loc := by
  refine ⟨gathers, ?_, ?_⟩
  · rw [← gathers.length]
    unfold FlattenParams.region at none
    split at none
    · by_contra more
      rw [if_neg more] at none
      contradiction
    · by_contra more
      rw [if_neg fun both => more both.1] at none
      split at none <;> contradiction
  · intro a last adjacent
    unfold FlattenParams.region at none
    rw [last] at none
    simp [adjacent] at none

theorem overflow_int {k : ℕ} (excess : (params.int k).overflow = true) :
    params.overflow = true ∨ 2147483648 ≤ k := by
  simpa [FlattenParams.int] using excess

theorem Gathers.int (gathers : Gathers n params done) {k : ℕ} (small : k < 2147483648) :
    Gathers n (params.int k) done where
  length := gathers.length
  entries := gathers.entries
  room := gathers.room
  fits excess := gathers.fits ((overflow_int excess).resolve_right (Nat.not_le.mpr small))

/-- No run is longer than all of them. -/
theorem blocklen_runs_le {a : Block} (mem : a ∈ runs done) : a.blocklen ≤ done.length := by
  rw [← total_runs]
  exact List.le_sum_of_mem (List.mem_map_of_mem mem)

theorem region_some (gathers : Gathers n params done) (pos : 0 < size) (next : params.region loc size = some params') :
    Gathers n params' (done ++ (Block.mk loc size).bytes) := by
  have added : params'.length = params.length ∧ params'.entries = attach params.entries ⟨loc, size⟩ ∧
      params'.entries.length ≤ n ∧ (params'.overflow = true →
        params.overflow = true ∨ ∃ a ∈ params'.entries, 2147483648 ≤ a.blocklen) := by
    have room := gathers.room
    have length := gathers.length
    unfold FlattenParams.region at next
    unfold attach
    cases last : params.entries.getLast? with
    | none =>
      rw [last] at next
      dsimp only at next ⊢
      split at next
      · contradiction
      · rename_i more
        obtain rfl := Option.some.inj next
        refine ⟨rfl, rfl, ?_, fun excess =>
          (overflow_int excess).imp_right fun long => ⟨⟨loc, size⟩, by simp, long⟩⟩
        rw [List.length_singleton]
        omega
    | some a =>
      rw [last] at next
      dsimp only at next ⊢
      have some_entries : params.entries ≠ [] := fun empty => by simp [empty] at last
      have long := List.length_pos_of_ne_nil some_entries
      split at next
      · contradiction
      · rename_i more
        split at next
        · rename_i fits
          obtain rfl := Option.some.inj next
          refine ⟨rfl, by rw [if_pos fits], ?_, fun excess =>
            (overflow_int excess).imp_right fun long => ⟨⟨a.displ, a.blocklen + size⟩, by simp, long⟩⟩
          simp only [List.length_append, List.length_dropLast, List.length_singleton]
          omega
        · rename_i apart
          obtain rfl := Option.some.inj next
          refine ⟨rfl, by rw [if_neg apart], ?_, fun excess =>
            (overflow_int excess).imp_right fun long => ⟨⟨loc, size⟩, by simp, long⟩⟩
          have more := fun full => more ⟨full, apart⟩
          simp only [List.length_append, List.length_singleton]
          omega
  obtain ⟨length, entries, room, excess⟩ := added
  have all : params'.entries = runs (done ++ (Block.mk loc size).bytes) := by
    rw [entries, runs_attach pos, gathers.entries]
  refine ⟨length.trans gathers.length, all, room, fun overflow => ?_⟩
  obtain before | ⟨a, mem, long⟩ := excess overflow
  · have := gathers.fits before
    rw [List.length_append]
    omega
  · exact long.trans (blocklen_runs_le (all ▸ mem))

end Region

section Leaves
variable {n : ℕ} {l : LoopParams} {size : ℕ} {o : ℤ}

/-- The loop: by induction on the regions that are left. -/
theorem flattenRegions_spec (sound : l.Sound) (pos : 0 < size) {blocks : ℕ} {loc : ℕ → ℤ}
    (at_offset : ∀ i, loc i = o + l.offset i) :
    ∀ (count i left : ℕ) (params : FlattenParams) (done : List ℤ), i + count = l.count →
      left * size ≤ total ((l.blocks o size).drop i) → Gathers n params done →
      ∃ params' r exit, flattenRegions blocks size loc l.blocksize count i left params =
        some (params', blocks - r, exit) ∧ r ≤ left ∧
        Served size (Gathers n) (Exhausted n) done ((bytes ((l.blocks o size).drop i)).take (left * size)) left
          (left - r) exit
          params' := by
  have finished (i : ℕ) (params : FlattenParams) (done : List ℤ) (gathers : Gathers n params done) :
      Served size (Gathers n) (Exhausted n) done ((bytes ((l.blocks o size).drop i)).take (0 * size)) 0 (0 - 0)
        false params :=
    ⟨fun _ => ⟨rfl, by simpa using gathers⟩, by simp⟩
  intro count
  induction count with
  | zero =>
    intro i left params done all within gathers
    obtain rfl : left = 0 := by
      rw [List.drop_eq_nil_of_le (by simp [LoopParams.blocks]; omega)] at within
      exact (Nat.mul_eq_zero.mp (Nat.le_zero.mp within)).resolve_right pos.ne'
    exact ⟨params, 0, false, rfl, le_rfl, finished i params done gathers⟩
  | succ count ih =>
    intro i left params done all within gathers
    have here : i < l.count := by omega
    by_cases zero : left = 0
    · subst zero
      exact ⟨params, 0, false, rfl, le_rfl, finished i params done gathers⟩
    have block := sound.positive i here
    -- this pass takes `b` of the blocks
    obtain ⟨b, taken⟩ : ∃ b, b = min (l.blocksize i) left := ⟨_, rfl⟩
    have split : (bytes ((l.blocks o size).drop i)).take (left * size) = (Block.mk (o + l.offset i) (b * size)).bytes ++
        (bytes ((l.blocks o size).drop (i + 1))).take ((left - b) * size) := by
      rw [taken]
      exact take_region here
    have b_pos : 0 < b := by omega
    have le : b ≤ left := by omega
    have pick : (if l.blocksize i < left then (l.blocksize i * size, left - l.blocksize i) else (left * size, 0)) =
        (b * size, left - b) := by
      split
      · rw [taken, min_eq_left (by omega)]
      · rw [taken, min_eq_right (by omega), Nat.sub_self]
    have region_pos : 0 < b * size := Nat.mul_pos b_pos pos
    unfold flattenRegions
    rw [if_neg zero, pick, at_offset i]
    dsimp only
    cases next : params.region (o + l.offset i) (b * size) with
    | none =>
      have stopped := region_none gathers next
      refine ⟨params, left, true, by rw [Nat.mul_div_cancel _ pos, Nat.sub_add_cancel le], le_rfl,
        ⟨by simp, fun _ => ⟨by omega, ?_⟩⟩⟩
      obtain ⟨k, bytes⟩ : ∃ k, b * size = k + 1 := ⟨b * size - 1, by omega⟩
      rw [split, bytes, Block.cons_bytes, Nat.sub_self, Nat.zero_mul, List.drop_zero, List.take_zero, List.append_nil]
      exact ⟨_, _, rfl, stopped⟩
    | some params' =>
      have gathers' := region_some gathers region_pos next
      have within' : (left - b) * size ≤ total ((l.blocks o size).drop (i + 1)) := by
        rw [blocks_drop here, total_cons] at within
        obtain all | whole := min_choice (l.blocksize i) left
        · rw [taken, all, Nat.sub_mul]
          exact Nat.sub_le_iff_le_add'.mpr within
        · rw [taken, whole, Nat.sub_self, Nat.zero_mul]
          exact Nat.zero_le _
      obtain ⟨params'', r, exit, run, r_le, served⟩ := ih (i + 1) (left - b) params' _ (by omega) within' gathers'
      refine ⟨params'', r, exit, run, by omega, ?_⟩
      have all_of := served.after split (Block.length_bytes _)
      rwa [Nat.add_sub_cancel' le, ← Nat.add_sub_assoc r_le, Nat.add_sub_cancel' le] at all_of

theorem handles_regions (sound : l.Sound) (pos : 0 < size) (short : total (l.blocks 0 size) < 2147483648) {bufp : ℤ}
    {loc : ℤ → ℕ → ℤ}
    (at_offset : ∀ relOff i, loc relOff i = bufp + relOff + l.offset i) :
    Handles size (fun _ => Gathers n) (Exhausted n) bufp
      (fun blocks relOff _ params => flattenRegions blocks size (loc relOff) l.blocksize l.count 0 blocks
        (params.int blocks)) l := by
  intro c blocks relOff params done some_blocks within all gathers
  have same : total (l.blocks (bufp + relOff) size) = total (l.blocks 0 size) := total_blocks_congr
  have within' : blocks * size ≤ total ((l.blocks (bufp + relOff) size).drop 0) := by rwa [List.drop_zero, same]
  have small : blocks < 2147483648 := ((Nat.le_mul_of_pos_right _ pos).trans within).trans_lt short
  obtain ⟨params', r, exit, run, le, served⟩ :=
    flattenRegions_spec sound pos (at_offset relOff) l.count 0 blocks (params.int blocks) done (Nat.zero_add _) within'
      (gathers.int small)
  exact ⟨params', blocks - r, exit, run, served⟩

theorem serves_flatten (sound : l.Sound) (pos : 0 < size) (short : total (l.blocks 0 size) < 2147483648) (bufp : ℤ) :
    Serves flattenFns l size (fun _ => Gathers n) (Exhausted n) bufp where
  weaken _ _ := id
  null none := by simp [flattenFns] at none
  contig f found m c blocks relOff params done some_blocks within all gathers := by
    obtain rfl : leafContigMpiFlatten = f := by simpa [flattenFns] using found
    have piece_pos : 0 < blocks * size := Nat.mul_pos some_blocks pos
    rw [take_contig within]
    unfold leafContigMpiFlatten
    cases next : params.region (bufp + relOff) (blocks * size) with
    | none =>
      refine ⟨params, 0, true, by dsimp only; rw [next], by simp, fun _ => ⟨some_blocks, ?_⟩⟩
      obtain ⟨k, bytes⟩ : ∃ k, blocks * size = k + 1 := ⟨blocks * size - 1, by omega⟩
      rw [bytes, Block.cons_bytes, Nat.zero_mul, List.drop_zero, List.take_zero, List.append_nil]
      exact ⟨_, _, rfl, region_none gathers next⟩
    | some params' => exact ⟨params', blocks, false, by dsimp only; rw [next], fun _ =>
      ⟨rfl, region_some gathers piece_pos next⟩, by simp⟩
  vector f found count blksz stride same k k_pos fewer := by
    obtain rfl : leafVectorMpiFlatten = f := by simpa [flattenFns] using found
    subst same
    have part : total ((LoopParams.vector k blksz stride).blocks 0 size) ≤
        total ((LoopParams.vector count blksz stride).blocks 0 size) := by
      simpa [total, LoopParams.blocks, LoopParams.count, LoopParams.blocksize, Function.comp_def] using
        Nat.mul_le_mul_right (blksz * size) fewer
    exact handles_regions (l := .vector k blksz stride)
      ⟨trivial, k_pos, fun _ _ => sound.positive 0 sound.some_blocks⟩ pos (part.trans_lt short)
      fun relOff i => (add_assoc _ _ _).symm
  blkidx f found count blksz offsets same := by
    obtain rfl : leafBlkidxMpiFlatten = f := by simpa [flattenFns] using found
    subst same
    exact handles_regions sound pos short fun relOff i => rfl
  index f found count sizes offsets totalBlocks same := by
    obtain rfl : leafIndexMpiFlatten = f := by simpa [flattenFns] using found
    subst same
    exact handles_regions sound pos short fun relOff i => rfl

end Leaves

section Types
variable {h : Handle} {count n fuel : ℕ} {start stop : ℤ}

/-- Where the piece functions end, the entries are the first runs of the range. -/
theorem entries_of_settles {range : List ℤ} {all : Prop} {k : ℕ} {params : FlattenParams}
    (settles : Settles (fun _ => Gathers n) (Exhausted n) range all k params) :
    params.entries = (runs range).take n ∧ k = total params.entries ∧
      (params.overflow = true → 2147483648 ≤ range.length) := by
  obtain ⟨rfl, gathers, -⟩ | ⟨front, x, rest, rfl, rfl, stopped⟩ := settles
  · rw [← gathers.entries, List.take_of_length_le gathers.room, gathers.entries, total_runs]
    exact ⟨rfl, rfl, gathers.fits⟩
  · have gathers := stopped.gathers
    have apart : ∀ a, (runs front).getLast? = some a → a.stop ≠ x := gathers.entries ▸ stopped.apart
    rw [runs_append_of_apart apart, ← gathers.entries, ← stopped.full, List.take_left]
    refine ⟨rfl, by rw [gathers.entries, total_runs], fun excess => (gathers.fits excess).trans ?_⟩
    rw [List.length_append]
    exact Nat.le_add_right _ _

/-- What `Segment_mpi_flatten` makes of a new segment. -/
theorem flatten_spec (sound : h.Sound) (some_items : 0 < count) (shallow : (h.loopOf count).depth < maxDatatypeDepth)
    (positive : 0 ≤ start) (whole : (h.elSize : ℤ) ∣ start) (inside : start < (h.stream count).length)
    (short : (h.stream count).length < 2147483648) (ordered : stop = ignoreLast ∨ start ≤ stop) (some_room : 0 < n)
    (enough : (h.loopOf count).work < fuel) (ptr : ℤ) (stack : ℕ → Stackelm) :
    ∃ s t, segmentInit ptr count h stack = some s ∧
      let entries := (runs (between start stop h.elSize ((h.stream count).map (ptr + ·)))).take n
      segmentMpiFlatten fuel s start stop n = some (t, start + total entries, entries) := by
  obtain ⟨sound', leaf, bytes⟩ := loopOf_spec sound some_items
  obtain ⟨s, init, fresh⟩ := init_spec sound' shallow ptr stack
  have stream : (h.loopOf count).bytes 0 = h.stream count := by simpa using bytes 0
  have nonempty : start.toNat < ((h.loopOf count).bytes 0).length := by
    rw [stream]
    omega
  have pair : (h.loopOf count).leaf = ((h.loopOf count).leaf.1, h.elSize) := by rw [← leaf]
  have short' : ((h.loopOf count).bytes 0).length < 2147483648 := stream ▸ short
  have leaf_short : total ((h.loopOf count).leaf.1.blocks 0 h.elSize) < 2147483648 :=
    leaf ▸ sound'.total_leaf_le.trans_lt short'
  have serves := serves_flatten (n := n) sound'.leaf_pos.1 sound.elSize_pos leaf_short ptr
  have empty : Gathers n ⟨n, [], false⟩ [] := ⟨rfl, rfl, Nat.zero_le n, by simp⟩
  obtain ⟨t, k, params, run, settles⟩ :=
    manipulate_spec fresh sound' (sound'.narrow short') pair sound.elSize_pos serves empty positive whole nonempty
      ordered enough
  rw [stream] at settles
  obtain ⟨entries, processed, excess⟩ := entries_of_settles settles
  have fits : ¬params.overflow = true := fun overflow => by
    have long := (excess overflow).trans length_between_le
    rw [List.length_map] at long
    omega
  refine ⟨s, t, init, ?_⟩
  unfold segmentMpiFlatten
  rw [if_neg some_room.ne', run, Option.bind_some]
  dsimp only
  rw [if_neg fits, ← entries, processed]

/-- `MPIT_Type_flatten` gives the first runs of the bytes in the range, however deep the type is nested and whatever
loops it is made of, and succeeds if these are all and the range ends where they do. -/
theorem flatten_runs (sound : h.Sound) (some_items : 0 < count) (shallow : (h.loopOf count).depth < maxDatatypeDepth)
    (positive : 0 ≤ start) (whole : (h.elSize : ℤ) ∣ start) (inside : start < (h.stream count).length)
    (short : (h.stream count).length < 2147483648) (ordered : stop = ignoreLast ∨ start ≤ stop) (some_room : 0 < n)
    (enough : (h.loopOf count).work < fuel) (ptr : ℤ) (stack : ℕ → Stackelm) :
    mpitTypeFlatten fuel ptr count h start stop n stack =
      let entries := (runs (between start stop h.elSize ((h.stream count).map (ptr + ·)))).take n
      some (decide (start + total entries = stop), entries) := by
  obtain ⟨s, t, init, run⟩ :=
    flatten_spec sound some_items shallow positive whole inside short ordered some_room enough ptr stack
  rw [mpitTypeFlatten, init, Option.bind_some, run, Option.map_some]

/-- Two items of which the first four bytes are left out; there is room for one of the two entries. -/
theorem flatten_runs_gapped : mpitTypeFlatten 30 100 2 gapped 4 16 1 cleared = some (false, [⟨108, 8⟩]) := by
  have run := flatten_runs (n := 1) gapped_sound (by decide : 0 < 2) (by decide) (by decide : (0 : ℤ) ≤ 4) (by decide)
    (by decide) (by decide) (.inr (by decide : (4 : ℤ) ≤ 16)) (by decide)
      (by decide : (gapped.loopOf 2).work < 30) 100 cleared
  exact run.trans (by decide)

end Types

end FoMPI.Mpitypes
