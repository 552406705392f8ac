import FoMPI.Foundation.Scatter
import FoMPI.Mpitypes.Manipulate

/-!
# Copying a type

`MPIT_Type_memcpy` copies the bytes of a datatype to a contiguous buffer or from there. Its piece functions
copy elements of 2, 4 and 8 bytes one at a time, with an `int` for a stride, and others in blocks. All of them
go on in the stream by what they have copied, but for one: blocks of several such elements at a list of
offsets.
-/
namespace FoMPI.Mpitypes
open FoMPI.Foundation

/-- `MPIT_MEMCPY_TO_USERBUF` and `MPIT_MEMCPY_FROM_USERBUF`. -/
inductive Direction
  | toUserbuf
  | fromUserbuf
  deriving DecidableEq, Repr

/-- `m2m_params`, with the memory that each pointer points into. The buffers do not overlap. -/
structure M2mParams (β : Type) where
  direction : Direction
  streambuf : ℤ
  userbuf : ℤ
  stream : ℤ → β
  user : ℤ → β

section Copies
variable {β : Type} (source : ℤ → β)

/-- `memcpy`. -/
def memcpy (dest src : ℤ) (n : ℕ) (target : ℤ → β) : ℤ → β := store target dest (load source src n)

/-- The inner loops of the macros: `nelms` elements of `width` bytes. -/
def copyElements (width : ℕ) : (nelms : ℕ) → (src dest : ℤ) → (ℤ → β) → ℤ → β
  | 0, _, _, target => target
  | nelms + 1, src, dest, target =>
    copyElements width nelms (src + width) (dest + width) (memcpy source dest src width target)

/-- `MPIDI_COPY_FROM_VEC`, whose `l_stride` is `stride`: what it leaves in `src`, in `dest` and in the memory. -/
def copyFromVec (stride : ℤ) (width nelms : ℕ) : (count : ℕ) → (src dest : ℤ) → (ℤ → β) → ℤ × ℤ × (ℤ → β)
  | 0, src, dest, target => (src, dest, target)
  | count + 1, src, dest, target =>
    copyFromVec stride width nelms count (src + stride) (dest + nelms * width)
      (copyElements source width nelms src dest target)

/-- `MPIDI_COPY_TO_VEC`. -/
def copyToVec (stride : ℤ) (width nelms : ℕ) : (count : ℕ) → (src dest : ℤ) → (ℤ → β) → ℤ × ℤ × (ℤ → β)
  | 0, src, dest, target => (src, dest, target)
  | count + 1, src, dest, target =>
    copyToVec stride width nelms count (src + nelms * width) (dest + stride)
      (copyElements source width nelms src dest target)

/-- `MPIR_ALIGN8_TEST` and `MPIR_ALIGN4_TEST`. -/
def alignTest (width p1 p2 : ℤ) : Prop := width ∣ p1 ∧ width ∣ p2

/-- Elements that are copied as `int64_t`, `int32_t` or `int16_t`. -/
def Typed (elSize : ℕ) (p1 p2 : ℤ) : Prop :=
  elSize = 8 ∧ alignTest 8 p1 p2 ∨ elSize = 4 ∧ alignTest 4 p1 p2 ∨ elSize = 2

instance (elSize : ℕ) (p1 p2 : ℤ) : Decidable (Typed elSize p1 p2) := by
  unfold Typed alignTest
  infer_instance

end Copies

section PieceFunctions
variable {β : Type}

/-- `Segment_contig_m2m`. -/
def segmentContigM2m (blocks elSize : ℕ) (relOff _bufp : ℤ) (params : M2mParams β) : Option (M2mParams β × ℕ × Bool) :=
  let size := blocks * elSize
  let loc := params.userbuf + relOff
  match params.direction with
  | .toUserbuf =>
    some ({ params with
      user := memcpy params.stream loc params.streambuf size params.user
      streambuf := params.streambuf + size }, blocks, false)
  | .fromUserbuf =>
    some ({ params with
      stream := memcpy params.user params.streambuf loc size params.stream
      streambuf := params.streambuf + size }, blocks, false)

/-- `Segment_vector_m2m`. A block that is copied with `memcpy` is one element of its size. The macros keep the stride
in an `int`. -/
def segmentVectorM2m (blocks _count blksz : ℕ) (stride : ℤ) (elSize : ℕ) (relOff _bufp : ℤ) (params : M2mParams β) :
    Option (M2mParams β × ℕ × Bool) :=
  let cbufp := params.userbuf + relOff
  let wholeCount := if 0 < blksz then blocks / blksz else 0
  let blocksLeft := if 0 < blksz then blocks % blksz else 0
  match params.direction with
  | .toUserbuf =>
    let (width, nelms, lStride) :=
      if Typed elSize params.streambuf cbufp then (elSize, blksz, asInt stride) else (blksz * elSize, 1, stride)
    let (src, dest, user) := copyToVec params.stream lStride width nelms wholeCount params.streambuf cbufp params.user
    let (width, nelms) := if Typed elSize params.streambuf cbufp then (elSize, blocksLeft) else (blocksLeft * elSize, 1)
    let (src, _, user) := copyToVec params.stream 0 width nelms 1 src dest user
    some ({ params with streambuf := src, user := user }, blocks, false)
  | .fromUserbuf =>
    let (width, nelms, lStride) :=
      if Typed elSize cbufp params.streambuf then (elSize, blksz, asInt stride) else (blksz * elSize, 1, stride)
    let (src, dest, stream) := copyFromVec params.user lStride width nelms wholeCount cbufp params.streambuf
      params.stream
    let (width, nelms) := if Typed elSize cbufp params.streambuf then (elSize, blocksLeft) else (blocksLeft * elSize, 1)
    let (_, dest, stream) := copyFromVec params.user 0 width nelms 1 src dest stream
    some ({ params with streambuf := dest, stream := stream }, blocks, false)

/-- The loop over blocks at offsets, from block `curblock` on, of which `count` are left. -/
def blocksM2m (blksz : ℕ → ℕ) (loc : ℕ → ℤ) (copy : (loc : ℤ) → (nelms : ℕ) → M2mParams β → M2mParams β) :
    (count curblock blocksLeft : ℕ) → M2mParams β → Option (M2mParams β)
  | _, _, 0, params => some params
  | 0, _, _ + 1, _ => none
  | count + 1, curblock, blocksLeft + 1, params =>
    let nelms := min (blksz curblock) (blocksLeft + 1)
    blocksM2m blksz loc copy count (curblock + 1) (blocksLeft + 1 - nelms) (copy (loc curblock) nelms params)

/-- A block of `Segment_blkidx_m2m`. Single elements have a loop of their own. The macro puts `dest` behind what
it has copied, but leaves `src` where it is. -/
def blkidxBlock (blocklen elSize : ℕ) (loc : ℤ) (nelms : ℕ) (params : M2mParams β) : M2mParams β :=
  match params.direction with
  | .toUserbuf =>
    if blocklen ≠ 1 ∧ Typed elSize params.streambuf loc then
      let (src, _, user) := copyFromVec params.stream 0 elSize nelms 1 params.streambuf loc params.user
      { params with streambuf := src, user := user }
    else
      { params with
        streambuf := params.streambuf + nelms * elSize
        user := memcpy params.stream loc params.streambuf (nelms * elSize) params.user }
  | .fromUserbuf =>
    if blocklen ≠ 1 ∧ Typed elSize loc params.streambuf then
      let (_, dest, stream) := copyFromVec params.user 0 elSize nelms 1 loc params.streambuf params.stream
      { params with streambuf := dest, stream := stream }
    else
      { params with
        streambuf := params.streambuf + nelms * elSize
        stream := memcpy params.user params.streambuf loc (nelms * elSize) params.stream }

/-- `Segment_blkidx_m2m`. There are `count` offsets. -/
def segmentBlkidxM2m (blocks count blocklen : ℕ) (offsetarray : List ℤ) (elSize : ℕ) (relOff _bufp : ℤ)
    (params : M2mParams β) :
    Option (M2mParams β × ℕ × Bool) :=
  (blocksM2m (fun _ => blocklen) (fun i => params.userbuf + relOff + offsetarray.getD i 0) (blkidxBlock blocklen elSize)
    count 0 blocks params).map fun params => (params, blocks, false)

/-- A block of `Segment_index_m2m`. -/
def indexBlock (elSize : ℕ) (loc : ℤ) (curBlockSz : ℕ) (params : M2mParams β) : M2mParams β :=
  let copy (source : ℤ → β) (src dest : ℤ) (target : ℤ → β) : ℤ → β :=
    if Typed elSize src dest then (copyFromVec source 0 elSize curBlockSz 1 src dest target).2.2
    else memcpy source dest src (curBlockSz * elSize) target
  let params :=
    match params.direction with
    | .toUserbuf => { params with user := copy params.stream params.streambuf loc params.user }
    | .fromUserbuf => { params with stream := copy params.user loc params.streambuf params.stream }
  { params with streambuf := params.streambuf + curBlockSz * elSize }

/-- `Segment_index_m2m`. -/
def segmentIndexM2m (blocks count : ℕ) (blockarray : List ℕ) (offsetarray : List ℤ) (elSize : ℕ) (relOff _bufp : ℤ)
    (params : M2mParams β) : Option (M2mParams β × ℕ × Bool) :=
  (blocksM2m (fun i => blockarray.getD i 0) (fun i => params.userbuf + relOff + offsetarray.getD i 0)
    (indexBlock elSize)
    count 0 blocks params).map fun params => (params, blocks, false)

def m2mFns : PieceFns (M2mParams β) where
  contigfn := some segmentContigM2m
  vectorfn := some segmentVectorM2m
  blkidxfn := some segmentBlkidxM2m
  indexfn := some segmentIndexM2m

/-- `MPIT_Type_memcpy` of a type that was initialised: whether it returns `MPI_SUCCESS`, and the memories behind
it. -/
def mpitTypeMemcpy (fuel : ℕ) (typeptr : ℤ) (count : ℕ) (type : Handle) (streamptr : ℤ) (direction : Direction)
    (start stop : ℤ)
    (stack : ℕ → Stackelm) (stream user : ℤ → β) : Option (Bool × (ℤ → β) × (ℤ → β)) :=
  (segmentInit typeptr count type stack).bind fun s =>
    (s.manipulate m2mFns fuel start stop ⟨direction, streamptr, typeptr, stream, user⟩).map fun (_, last, params) =>
      (last = stop, params.stream, params.user)

end PieceFunctions

section Loops
variable {β : Type} {source target : ℤ → β} {dest src stride : ℤ} {n k width nelms count : ℕ}

theorem memcpy_add : memcpy source (dest + n) (src + n) k (memcpy source dest src n target) =
    memcpy source dest src (n + k) target := by
  rw [memcpy, memcpy, memcpy, load_append, store_append, load_length]

/-- Elements without gaps between them are a block. -/
theorem copyElements_eq : copyElements source width nelms src dest target =
    memcpy source dest src (nelms * width) target := by
  induction nelms generalizing src dest target with
  | zero => simp [copyElements, memcpy, load, store]
  | succ nelms ih => rw [copyElements, ih, memcpy_add, Nat.succ_mul, Nat.add_comm]

theorem copyFromVec_one : copyFromVec source stride width nelms 1 src dest target =
    (src + stride, dest + ((nelms * width : ℕ) : ℤ), memcpy source dest src (nelms * width) target) := by
  rw [copyFromVec, copyFromVec, copyElements_eq, Nat.cast_mul]

theorem copyToVec_one : copyToVec source stride width nelms 1 src dest target =
    (src + ((nelms * width : ℕ) : ℤ), dest + stride, memcpy source dest src (nelms * width) target) := by
  rw [copyToVec, copyToVec, copyElements_eq, Nat.cast_mul]

end Loops

section Moves
variable {β : Type} {p : M2mParams β} {bs cs : List Block} {done : List ℤ} {x : ℤ} {n : ℕ}

namespace M2mParams

/-- One block, whichever way it is copied. -/
def move (p : M2mParams β) (b : Block) : M2mParams β :=
  match p.direction with
  | .toUserbuf =>
    { p with
      user := memcpy p.stream b.displ p.streambuf b.blocklen p.user
      streambuf := p.streambuf + b.blocklen }
  | .fromUserbuf =>
    { p with
      stream := memcpy p.user p.streambuf b.displ b.blocklen p.stream
      streambuf := p.streambuf + b.blocklen }

def moves (p : M2mParams β) (bs : List Block) : M2mParams β := bs.foldl move p

/-- The bytes at these addresses are copied. -/
def moved (p : M2mParams β) (done : List ℤ) : M2mParams β :=
  match p.direction with
  | .toUserbuf =>
    { p with
      user := scatter p.user done (load p.stream p.streambuf done.length)
      streambuf := p.streambuf + done.length }
  | .fromUserbuf =>
    { p with
      stream := store p.stream p.streambuf (done.map p.user)
      streambuf := p.streambuf + done.length }

@[simp] theorem moves_nil : p.moves [] = p := rfl

@[simp] theorem moves_cons {b : Block} : p.moves (b :: bs) = (p.move b).moves bs := rfl

theorem moves_append : p.moves (bs ++ cs) = (p.moves bs).moves cs := List.foldl_append

@[simp] theorem direction_moved : (p.moved done).direction = p.direction := by
  unfold moved
  split <;> rfl

@[simp] theorem userbuf_moved : (p.moved done).userbuf = p.userbuf := by
  unfold moved
  split <;> rfl

@[simp] theorem direction_move {b : Block} : (p.move b).direction = p.direction := by
  unfold move
  split <;> rfl

@[simp] theorem userbuf_move {b : Block} : (p.move b).userbuf = p.userbuf := by
  unfold move
  split <;> rfl

theorem moved_nil : p.moved [] = p := by
  unfold moved
  split <;> simp [load, store]

/-- A block is copied byte for byte. -/
theorem move_moved (b : Block) : (p.moved done).move b = p.moved (done ++ b.bytes) := by
  have length : (done ++ b.bytes).length = done.length + b.blocklen := by rw [List.length_append, Block.length_bytes]
  have off : p.streambuf + done.length + b.blocklen = p.streambuf + ((done.length + b.blocklen : ℕ) : ℤ) := by
    push_cast
    ring
  unfold move
  rw [direction_moved]
  unfold moved
  cases p.direction with
  | toUserbuf =>
    simp only [length, off, memcpy, load_append, store_eq_scatter, load_length]
    rw [scatter_append (load_length _).symm]
  | fromUserbuf =>
    simp only [length, off, memcpy, load_eq_map, List.map_append, store_append, List.length_map]

theorem moves_moved : (p.moved done).moves bs = p.moved (done ++ bytes bs) := by
  induction bs generalizing done with
  | nil => simp [bytes]
  | cons b bs ih => rw [moves_cons, move_moved, ih, bytes_cons, List.append_assoc]

end M2mParams

end Moves

section Leaves
variable {β : Type} {p : M2mParams β} {l : LoopParams} {o stride : ℤ} {size width nelms n : ℕ}
open M2mParams

theorem segmentContigM2m_eq (blocks elSize : ℕ) (relOff bufp : ℤ) : segmentContigM2m blocks elSize relOff bufp p =
    some (p.move ⟨p.userbuf + relOff, blocks * elSize⟩, blocks, false) := by
  unfold segmentContigM2m move
  cases p.direction <;> rfl

/-- Blocks of one size with a stride. -/
def strided (o stride : ℤ) (size : ℕ) : ℕ → List Block
  | 0 => []
  | count + 1 => ⟨o, size⟩ :: strided (o + stride) stride size count

theorem copyToVec_spec (direction : p.direction = .toUserbuf) (o stride : ℤ) (nelms width count : ℕ) :
    ∃ q : M2mParams β, p.moves (strided o stride (nelms * width) count) =
      { p with streambuf := q.streambuf, user := q.user } ∧
      copyToVec p.stream stride width nelms count p.streambuf o p.user = (q.streambuf, o + count * stride, q.user) := by
  induction count generalizing p o with
  | zero => exact ⟨p, rfl, by simp [copyToVec]⟩
  | succ count ih =>
    have first : p.move ⟨o, nelms * width⟩ = { p with
        user := memcpy p.stream o p.streambuf (nelms * width) p.user
        streambuf := p.streambuf + ((nelms * width : ℕ) : ℤ) } := by
      unfold move
      rw [direction]
    have kept := (direction_move (b := ⟨o, nelms * width⟩)).trans direction
    obtain ⟨q, moves, run⟩ := ih kept (o + stride)
    rw [first] at moves run
    refine ⟨q, ?_, ?_⟩
    · rw [strided, moves_cons, first, moves]
    · rw [copyToVec, copyElements_eq, ← Nat.cast_mul, run]
      push_cast
      congr 2
      ring

theorem copyFromVec_spec (direction : p.direction = .fromUserbuf) (o stride : ℤ) (nelms width count : ℕ) :
    ∃ q : M2mParams β, p.moves (strided o stride (nelms * width) count) =
      { p with streambuf := q.streambuf, stream := q.stream } ∧
      copyFromVec p.user stride width nelms count o p.streambuf p.stream =
          (o + count * stride, q.streambuf, q.stream) := by
  induction count generalizing p o with
  | zero => exact ⟨p, rfl, by simp [copyFromVec]⟩
  | succ count ih =>
    have first : p.move ⟨o, nelms * width⟩ = { p with
        stream := memcpy p.user p.streambuf o (nelms * width) p.stream
        streambuf := p.streambuf + ((nelms * width : ℕ) : ℤ) } := by
      unfold move
      rw [direction]
    have kept := (direction_move (b := ⟨o, nelms * width⟩)).trans direction
    obtain ⟨q, moves, run⟩ := ih kept (o + stride)
    rw [first] at moves run
    refine ⟨q, ?_, ?_⟩
    · rw [strided, moves_cons, first, moves]
    · rw [copyFromVec, copyElements_eq, ← Nat.cast_mul, run]
      push_cast
      congr 1
      ring

/-- However the elements are copied, the blocks are of the same size. -/
theorem pick_width (typed : Prop) [Decidable typed] (n elSize : ℕ) :
    ∃ width nelms, (if typed then (elSize, n) else (n * elSize, 1)) = (width, nelms) ∧ nelms * width = n * elSize := by
  split
  · exact ⟨_, _, rfl, rfl⟩
  · exact ⟨_, _, rfl, Nat.one_mul _⟩

/-- Nor does the stride depend on it where it is an `int`. -/
theorem pick_stride (fits : asInt stride = stride) (typed : Prop) [Decidable typed] (n elSize : ℕ) :
    ∃ width nelms, (if typed then (elSize, n, asInt stride) else (n * elSize, 1, stride)) = (width, nelms, stride) ∧
      nelms * width = n * elSize := by
  rw [fits]
  split
  · exact ⟨_, _, rfl, rfl⟩
  · exact ⟨_, _, rfl, Nat.one_mul _⟩

theorem segmentVectorM2m_eq (blocks count : ℕ) {blksz : ℕ} (pos : 0 < blksz) (fits : asInt stride = stride)
    (elSize : ℕ) (relOff bufp : ℤ) :
    segmentVectorM2m blocks count blksz stride elSize relOff bufp p =
      some (p.moves (strided (p.userbuf + relOff) stride (blksz * elSize) (blocks / blksz) ++
        [⟨p.userbuf + relOff + (blocks / blksz : ℕ) * stride, blocks % blksz * elSize⟩]), blocks, false) := by
  unfold segmentVectorM2m
  rw [if_pos pos, if_pos pos, moves_append]
  dsimp only
  cases direction : p.direction with
  | toUserbuf =>
    obtain ⟨w, n, pick, whole⟩ := pick_stride fits (Typed elSize p.streambuf (p.userbuf + relOff)) blksz elSize
    obtain ⟨w', n', pick', rest⟩ := pick_width (Typed elSize p.streambuf (p.userbuf + relOff)) (blocks % blksz) elSize
    obtain ⟨q, moves, run⟩ := copyToVec_spec direction (p.userbuf + relOff) stride n w (blocks / blksz)
    rw [whole] at moves
    rw [pick, pick', moves]
    dsimp only
    rw [run, moves_cons, moves_nil, move, direction]
    dsimp only
    rw [copyToVec_one, rest]
  | fromUserbuf =>
    obtain ⟨w, n, pick, whole⟩ := pick_stride fits (Typed elSize (p.userbuf + relOff) p.streambuf) blksz elSize
    obtain ⟨w', n', pick', rest⟩ := pick_width (Typed elSize (p.userbuf + relOff) p.streambuf) (blocks % blksz) elSize
    obtain ⟨q, moves, run⟩ := copyFromVec_spec direction (p.userbuf + relOff) stride n w (blocks / blksz)
    rw [whole] at moves
    rw [pick, pick', moves]
    dsimp only
    rw [run, moves_cons, moves_nil, move, direction]
    dsimp only
    rw [copyFromVec_one, rest]

/-- The first `left` elements of a leaf, from block `i` on, of which `count` are left. -/
def touched (l : LoopParams) (o : ℤ) (size : ℕ) : (count i left : ℕ) → List Block
  | _, _, 0 => []
  | 0, _, _ + 1 => []
  | count + 1, i, left + 1 =>
    ⟨o + l.offset i, min (l.blocksize i) (left + 1) * size⟩ ::
      touched l o size count (i + 1) (left + 1 - min (l.blocksize i) (left + 1))

theorem bytes_touched (l : LoopParams) (o : ℤ) (size count i left : ℕ) (all : i + count = l.count) :
    bytes (touched l o size count i left) = (bytes ((l.blocks o size).drop i)).take (left * size) := by
  induction count generalizing i left with
  | zero =>
    have none : (l.blocks o size).drop i = [] := by
      rw [← Nat.add_zero i, all]
      exact blocks_drop_count
    rw [none]
    cases left <;> simp [touched, bytes]
  | succ count ih =>
    cases left with
    | zero => simp [touched, bytes]
    | succ left => rw [touched, bytes_cons, ih (i + 1) _ (by omega), ← take_region (by omega)]

/-- No elements are left for the blocks behind the last one. -/
theorem none_left {i left : ℕ} (pos : 0 < size) (end_of : l.count ≤ i)
    (within : left * size ≤ total ((l.blocks o size).drop i)) :
    left = 0 := by
  rw [List.drop_eq_nil_of_le (by simpa [LoopParams.blocks] using end_of)] at within
  exact (Nat.mul_eq_zero.mp (Nat.le_zero.mp within)).resolve_right pos.ne'

/-- What is left behind the first block. -/
theorem rest_within {i left : ℕ} (here : i < l.count) (within : left * size ≤ total ((l.blocks o size).drop i)) :
    (left - min (l.blocksize i) left) * size ≤ total ((l.blocks o size).drop (i + 1)) := by
  rw [blocks_drop here, total_cons] at within
  obtain all | whole := min_choice (l.blocksize i) left
  · rw [all, Nat.sub_mul]
    exact Nat.sub_le_iff_le_add'.mpr within
  · rw [whole, Nat.sub_self, Nat.zero_mul]
    exact Nat.zero_le _

/-- A loop that copies each block goes over the first elements of the leaf. -/
theorem blocksM2m_spec {loc : ℕ → ℤ} {copy : ℤ → ℕ → M2mParams β → M2mParams β} (pos : 0 < size)
    (at_offset : ∀ i, loc i = o + l.offset i)
    {direction : Direction} (copies : ∀ (q : M2mParams β) x n, q.direction = direction →
      copy x n q = q.move ⟨x, n * size⟩) :
    ∀ (count i left : ℕ) (p : M2mParams β), p.direction = direction → i + count = l.count →
      left * size ≤ total ((l.blocks o size).drop i) →
      blocksM2m l.blocksize loc copy count i left p = some (p.moves (touched l o size count i left)) := by
  intro count
  induction count with
  | zero =>
    intro i left p same all within
    obtain rfl : left = 0 := none_left pos (by omega) within
    rfl
  | succ count ih =>
    intro i left p same all within
    cases left with
    | zero => rfl
    | succ left =>
      rw [blocksM2m, touched, moves_cons, copies p _ _ same, at_offset]
      exact ih (i + 1) _ _ (direction_move.trans same) (by omega) (rest_within (by omega) within)

theorem copyFromVec_block {source target : ℤ → β} {dest src : ℤ} : copyFromVec source 0 width nelms 1 src dest target =
    (src, dest + ((nelms * width : ℕ) : ℤ), memcpy source dest src (nelms * width) target) := by
  rw [copyFromVec_one, add_zero]

/-- What `Segment_blkidx_m2m` copies right: from the user buffer all blocks, to it single elements, and elements
that are not of 2, 4 or 8 bytes. -/
def Advances (direction : Direction) (blocklen elSize : ℕ) : Prop :=
  direction = .fromUserbuf ∨ blocklen = 1 ∨ elSize ≠ 2 ∧ elSize ≠ 4 ∧ elSize ≠ 8

theorem blkidxBlock_eq {blocklen : ℕ} (advances : Advances p.direction blocklen size) (x : ℤ) (n : ℕ) :
    blkidxBlock blocklen size x n p = p.move ⟨x, n * size⟩ := by
  have plain (to_user : p.direction = .toUserbuf) (src dest : ℤ) : ¬(blocklen ≠ 1 ∧ Typed size src dest) := by
    obtain from_user | one | untyped := advances
    · exact absurd (to_user.symm.trans from_user) (by decide)
    · exact fun both => both.1 one
    · unfold Typed
      rintro ⟨-, typed⟩
      omega
  unfold blkidxBlock move
  cases direction : p.direction with
  | toUserbuf =>
    dsimp only
    rw [if_neg (plain direction _ _), Nat.cast_mul]
  | fromUserbuf =>
    dsimp only
    rw [copyFromVec_block, Nat.cast_mul]
    split <;> rfl

theorem indexBlock_eq (x : ℤ) (n : ℕ) : indexBlock size x n p = p.move ⟨x, n * size⟩ := by
  unfold indexBlock move
  cases p.direction <;> simp only [copyFromVec_block, ite_self, Nat.cast_mul]

/-- Whole blocks of a vector and a part of another one are its first elements. -/
theorem bytes_strided {blksz r : ℕ} (w k : ℕ) (o : ℤ) (part : r < blksz) (within : w * blksz + r ≤ k * blksz) :
    bytes (strided o stride (blksz * size) w ++ [⟨o + w * stride, r * size⟩]) =
      (bytes ((LoopParams.vector k blksz stride).blocks o size)).take ((w * blksz + r) * size) := by
  induction w generalizing k o with
  | zero =>
    by_cases zero : r = 0
    · simp [zero, strided, bytes, Block.bytes]
    · have here : 0 < (LoopParams.vector k blksz stride).count := Nat.pos_of_mul_pos_right (by omega : 0 < k * blksz)
      have all : (bytes (((LoopParams.vector k blksz stride).blocks o size).drop 0)).take (r * size) = _ :=
        take_region here
      simp only [LoopParams.blocksize, LoopParams.offset, min_eq_right part.le, Nat.sub_self] at all
      simpa [strided, bytes] using all.symm
  | succ w ih =>
    rw [Nat.succ_mul] at within ⊢
    have here : 0 < (LoopParams.vector k blksz stride).count := Nat.pos_of_mul_pos_right (by omega : 0 < k * blksz)
    obtain ⟨k, rfl⟩ : ∃ j, k = j + 1 := ⟨k - 1, (Nat.sub_add_cancel here).symm⟩
    rw [Nat.succ_mul] at within
    have all : (bytes (((LoopParams.vector (k + 1) blksz stride).blocks o size).drop 0)).take
        ((w * blksz + blksz + r) * size) = _ := take_region here
    have last : o + stride + w * stride = o + (w + 1 : ℕ) * stride := by push_cast; ring
    have left : w * blksz + blksz + r - blksz = w * blksz + r := by omega
    have rest := ih k (o + stride) (by omega)
    rw [last] at rest
    simp only [LoopParams.blocksize, LoopParams.offset, min_eq_left (by omega : blksz ≤ w * blksz + blksz + r), left,
      blocks_vector_drop, Nat.add_sub_cancel, Nat.zero_add, Nat.cast_one, Nat.cast_zero, one_mul, zero_mul,
        add_zero, List.drop_zero]
      at all
    rw [all, strided, List.cons_append, bytes_cons, rest]

/-- A piece function that copies blocks. -/
theorem handles_moves {p₀ : M2mParams β} {f : ℕ → ℤ → ℤ → M2mParams β → Option (M2mParams β × ℕ × Bool)}
    (copies : ∀ (n : ℕ) (relOff : ℤ) (p : M2mParams β), 0 < n → n * size ≤ total (l.blocks 0 size) →
      p.direction = p₀.direction →
      p.userbuf = p₀.userbuf → ∃ bs, bytes bs = (bytes (l.blocks (p₀.userbuf + relOff) size)).take (n * size) ∧
        f n relOff p₀.userbuf p = some (p.moves bs, n, false)) :
    Handles size (fun _ p done => p = p₀.moved done) (fun _ _ _ => False) p₀.userbuf f l := by
  intro c n relOff p done some_blocks within _ acc
  subst acc
  obtain ⟨bs, same, run⟩ := copies n relOff _ some_blocks within direction_moved userbuf_moved
  exact ⟨_, n, false, run, fun _ => ⟨rfl, by rw [moves_moved, same]⟩, by simp⟩

/-- A piece function with a loop over the blocks of the leaf. -/
theorem handles_loop {p₀ : M2mParams β} {loc : ℤ → ℕ → ℤ} {copy : ℤ → ℕ → M2mParams β → M2mParams β} (pos : 0 < size)
    (at_offset : ∀ relOff i, loc relOff i = p₀.userbuf + relOff + l.offset i)
    (copies : ∀ (q : M2mParams β) x n, q.direction = p₀.direction → copy x n q = q.move ⟨x, n * size⟩)
    (n : ℕ) (relOff : ℤ) (p : M2mParams β) (within : n * size ≤ total (l.blocks 0 size))
    (direction : p.direction = p₀.direction) :
    ∃ bs, bytes bs = (bytes (l.blocks (p₀.userbuf + relOff) size)).take (n * size) ∧
      blocksM2m l.blocksize (loc relOff) copy l.count 0 n p = some (p.moves bs) := by
  have all := bytes_touched l (p₀.userbuf + relOff) size l.count 0 n (Nat.zero_add _)
  have here : n * size ≤ total ((l.blocks (p₀.userbuf + relOff) size).drop 0) := by
    rwa [List.drop_zero, total_blocks_congr]
  exact ⟨_, all, blocksM2m_spec pos (at_offset relOff) copies l.count 0 n p direction (Nat.zero_add _) here⟩

theorem serves_m2m (sound : l.Sound) (pos : 0 < size) (p₀ : M2mParams β)
    (strides : ∀ count blksz stride, l = .vector count blksz stride → -2147483648 ≤ stride ∧ stride < 2147483648)
    (advances : ∀ count blocklen offsets, l = .blockindexed count blocklen offsets →
      Advances p₀.direction blocklen size) :
    Serves m2mFns l size (fun _ p done => p = p₀.moved done) (fun _ _ _ => False) p₀.userbuf where
  weaken _ _ := id
  null none := by simp [m2mFns] at none
  contig f found m := by
    obtain rfl : segmentContigM2m = f := by simpa [m2mFns] using found
    refine handles_moves fun n relOff p some_blocks within direction userbuf =>
      ⟨[⟨p₀.userbuf + relOff, n * size⟩], ?_, ?_⟩
    · rw [take_contig within]
      exact List.append_nil _
    · rw [segmentContigM2m_eq, userbuf]
      rfl
  vector f found count blksz stride same k k_pos _ := by
    obtain rfl : segmentVectorM2m = f := by simpa [m2mFns] using found
    subst same
    have block : 0 < blksz := sound.positive 0 sound.some_blocks
    obtain ⟨low, high⟩ := strides count blksz stride rfl
    refine handles_moves fun n relOff p some_blocks within direction userbuf =>
      ⟨_, ?_, segmentVectorM2m_eq n k block (asInt_eq (by omega) (by omega)) ..⟩
    have whole := Nat.div_add_mod' n blksz
    have room : n ≤ k * blksz := by
      have all : total (((LoopParams.vector k blksz stride).blocks 0 size).drop 0) = _ :=
        Stackelm.AtLeaf.total_uniform (B := blksz) (fun _ => rfl) 0 0
      rw [List.drop_zero, ← Nat.mul_assoc] at all
      rw [all] at within
      exact Nat.le_of_mul_le_mul_right within pos
    rw [userbuf, bytes_strided (n / blksz) k _ (Nat.mod_lt n block) (by omega), whole]
  blkidx f found count blksz offsets same := by
    obtain rfl : segmentBlkidxM2m = f := by simpa [m2mFns] using found
    subst same
    refine handles_moves fun n relOff p some_blocks within direction userbuf => ?_
    obtain ⟨bs, all, run⟩ := handles_loop pos (fun relOff i => rfl)
      (fun q x n direction => blkidxBlock_eq (direction ▸ advances count blksz offsets rfl) x n) n relOff p
        within direction
    refine ⟨bs, all, ?_⟩
    rw [segmentBlkidxM2m, userbuf]
    exact congrArg (Option.map _) run
  index f found count sizes offsets totalBlocks same := by
    obtain rfl : segmentIndexM2m = f := by simpa [m2mFns] using found
    subst same
    refine handles_moves fun n relOff p some_blocks within direction userbuf => ?_
    obtain ⟨bs, all, run⟩ := handles_loop pos (fun relOff i => rfl)
      (fun q x n _ => indexBlock_eq x n) n relOff p within direction
    refine ⟨bs, all, ?_⟩
    rw [segmentIndexM2m, userbuf]
    exact congrArg (Option.map _) run

end Leaves

section Types
variable {β : Type} {h : Handle} {count fuel : ℕ} {start stop : ℤ}

/-- A range that begins with a whole element and that `fuel` iterations get to the end of. The lengths and the
stride of the leaf are numbers of type `int`. -/
structure Handle.Walkable (h : Handle) (count fuel : ℕ) (start stop : ℤ) : Prop where
  sound : h.Sound
  some_items : 0 < count
  shallow : (h.loopOf count).depth < maxDatatypeDepth
  positive : 0 ≤ start
  whole : (h.elSize : ℤ) ∣ start
  inside : start < (h.stream count).length
  short : (h.stream count).length < 2147483648
  strides : ∀ n blksz stride, (h.loopOf count).leaf.1 = .vector n blksz stride →
    -2147483648 ≤ stride ∧ stride < 2147483648
  ordered : stop = ignoreLast ∨ start ≤ stop
  enough : (h.loopOf count).work < fuel

/-- The bytes of a range, as offsets from where the items begin. -/
def Handle.range (h : Handle) (count : ℕ) (start stop : ℤ) : List ℤ := between start stop h.elSize (h.stream count)

/-- No block of several elements of 2, 4 or 8 bytes is at a list of offsets. -/
def Handle.Advances (h : Handle) (count : ℕ) (direction : Direction) : Prop :=
  ∀ n blocklen offsets, (h.loopOf count).leaf.1 = .blockindexed n blocklen offsets →
    Mpitypes.Advances direction blocklen h.elSize

theorem between_map {f : ℤ → ℤ} {xs : List ℤ} {size : ℕ} :
    between start stop size (xs.map f) = (between start stop size xs).map f := by
  unfold between
  split <;> simp

/-- What `MPIT_Type_memcpy` makes of a range. -/
theorem memcpy_spec (walkable : h.Walkable count fuel start stop) {direction : Direction}
    (advances : h.Advances count direction)
    (ptr buf : ℤ) (stack : ℕ → Stackelm) (stream user : ℤ → β) :
    mpitTypeMemcpy fuel ptr count h buf direction start stop stack stream user =
      some (decide (start + (h.range count start stop).length = stop),
        ((M2mParams.mk direction buf ptr stream user).moved ((h.range count start stop).map (ptr + ·))).stream,
        ((M2mParams.mk direction buf ptr stream user).moved ((h.range count start stop).map (ptr + ·))).user) := by
  obtain ⟨sound, some_items, shallow, positive, whole, inside, short, strides, ordered, enough⟩ := walkable
  obtain ⟨sound', leaf, bytes⟩ := loopOf_spec sound some_items
  obtain ⟨s, init, fresh⟩ := init_spec sound' shallow ptr stack
  have same : (h.loopOf count).bytes 0 = h.stream count := by simpa using bytes 0
  have nonempty : start.toNat < ((h.loopOf count).bytes 0).length := by
    rw [same]
    omega
  have pair : (h.loopOf count).leaf = ((h.loopOf count).leaf.1, h.elSize) := by rw [← leaf]
  have serves := serves_m2m sound'.leaf_pos.1 sound.elSize_pos (M2mParams.mk direction buf ptr stream user) strides
    advances
  obtain ⟨t, k, params, run, settles⟩ :=
    manipulate_spec fresh sound' (sound'.narrow (same ▸ short)) pair sound.elSize_pos serves M2mParams.moved_nil.symm
      positive whole nonempty
      ordered enough
  rw [same, between_map] at settles
  obtain ⟨rfl, rfl, -⟩ | ⟨-, -, -, -, -, stopped⟩ := settles
  · rw [mpitTypeMemcpy, init, Option.bind_some, run, Option.map_some, List.length_map]
    rfl
  · exact stopped.elim

theorem packs_spec (walkable : h.Walkable count fuel start stop) (ptr buf : ℤ) (stack : ℕ → Stackelm)
    (stream user : ℤ → β) :
    mpitTypeMemcpy fuel ptr count h buf .fromUserbuf start stop stack stream user =
      some (decide (start + (h.range count start stop).length = stop),
        store stream buf ((h.range count start stop).map fun y => user (ptr + y)), user) := by
  have run := memcpy_spec walkable (fun _ _ _ _ => .inl rfl : h.Advances count .fromUserbuf) ptr buf stack stream user
  simpa only [M2mParams.moved, List.map_map, Function.comp_def] using run

theorem unpacks_spec (walkable : h.Walkable count fuel start stop) (advances : h.Advances count .toUserbuf)
    (ptr buf : ℤ)
    (stack : ℕ → Stackelm) (stream user : ℤ → β) :
    mpitTypeMemcpy fuel ptr count h buf .toUserbuf start stop stack stream user =
      some (decide (start + (h.range count start stop).length = stop), stream,
        scatter user ((h.range count start stop).map (ptr + ·))
        (load stream buf (h.range count start stop).length)) := by
  have run := memcpy_spec walkable advances ptr buf stack stream user
  simpa only [M2mParams.moved, List.length_map] using run

theorem load_stored (stream : ℤ → β) (buf : ℤ) (f : ℤ → β) (ys : List ℤ) :
    load (store stream buf (ys.map f)) buf ys.length = ys.map f := by
  have back := @load_store _ stream buf (ys.map f)
  rwa [List.length_map] at back

theorem gapped_strides (n blksz : ℕ) (stride : ℤ) (leaf : (gapped.loopOf 2).leaf.1 = .vector n blksz stride) :
    -2147483648 ≤ stride ∧ stride < 2147483648 := by
  simp [gapped, Handle.loopOf, Dataloop.leaf] at leaf
  omega

/-- Two items of which the first four bytes are left out. -/
theorem gapped_walkable : gapped.Walkable 2 30 4 16 :=
  ⟨gapped_sound, by decide, by decide, by decide, by decide, by decide, by decide, gapped_strides, .inr (by decide),
    by decide⟩

theorem gapped_advances (direction : Direction) : gapped.Advances 2 direction := by
  intro n blocklen offsets leaf
  simp [gapped, Handle.loopOf, Dataloop.leaf] at leaf

/-- Packing gathers the bytes of the range in the order of the type map, however deep the type is nested and
wherever the range begins and ends. Nothing else is written. -/
theorem memcpy_packs (walkable : h.Walkable count fuel start stop) (ptr buf : ℤ) (stack : ℕ → Stackelm)
    (stream user : ℤ → β) :
    ∃ stream', mpitTypeMemcpy fuel ptr count h buf .fromUserbuf start stop stack stream user =
        some (decide (start + (h.range count start stop).length = stop), stream', user) ∧
      load stream' buf (h.range count start stop).length = (h.range count start stop).map (fun y => user (ptr + y)) ∧
      ∀ x, x < buf ∨ buf + (h.range count start stop).length ≤ x → stream' x = stream x := by
  exact ⟨_, packs_spec walkable ptr buf stack stream user, load_stored .., fun x outside =>
    store_outside (by rwa [List.length_map])⟩

theorem memcpy_packs_gapped : ∃ stream',
    mpitTypeMemcpy 30 100 2 gapped 0 .fromUserbuf 4 16 cleared (fun _ => 0) (fun x => x) =
      some (true, stream', fun x => x) ∧
    load stream' 0 12 = [108, 109, 110, 111, 112, 113, 114, 115, 120, 121, 122, 123] ∧
    ∀ x, x < 0 ∨ 0 + 12 ≤ x → stream' x = 0 :=
  memcpy_packs gapped_walkable 100 0 cleared (fun _ => (0 : ℤ)) fun x => x

/-- What is packed and unpacked again, into another buffer, is a copy of the bytes of the range, and only these
are written. -/
theorem memcpy_pack_unpack (walkable : h.Walkable count fuel start stop)
    (advances : h.Advances count .toUserbuf) (ptr ptr' buf : ℤ)
    (stack stack' : ℕ → Stackelm) (stream user user' : ℤ → β) :
    ∃ ok stream' copy, mpitTypeMemcpy fuel ptr count h buf .fromUserbuf start stop stack stream user =
      some (ok, stream', user) ∧
      mpitTypeMemcpy fuel ptr' count h buf .toUserbuf start stop stack' stream' user' = some (ok, stream', copy) ∧
      (∀ y ∈ h.range count start stop, copy (ptr' + y) = user (ptr + y)) ∧
      ∀ y ∉ h.range count start stop, copy (ptr' + y) = user' (ptr' + y) := by
  refine ⟨_, _, _, packs_spec walkable ptr buf stack stream user,
    unpacks_spec walkable advances ptr' buf stack' _ user', ?_, ?_⟩
  · intro y inside
    have same : (h.range count start stop).map (fun y => user (ptr + y)) =
        ((h.range count start stop).map (ptr' + ·)).map fun x => user (ptr + (x - ptr')) := by
      simp [List.map_map, Function.comp_def]
    rw [load_stored, same, scatter_map (List.mem_map_of_mem inside), add_sub_cancel_left]
  · intro y outside
    refine scatter_outside fun inside => outside ?_
    obtain ⟨z, mem, same⟩ := List.mem_map.mp inside
    exact add_left_cancel same ▸ mem

theorem memcpy_pack_unpack_gapped : ∃ ok stream' copy,
    mpitTypeMemcpy 30 100 2 gapped 0 .fromUserbuf 4 16 cleared (fun _ => 0) (fun x => x) =
        some (ok, stream', fun x => x) ∧
      mpitTypeMemcpy 30 200 2 gapped 0 .toUserbuf 4 16 cleared stream' (fun _ => 1) = some (ok, stream', copy) ∧
      (∀ y ∈ gapped.range 2 4 16, copy (200 + y) = 100 + y) ∧ ∀ y ∉ gapped.range 2 4 16, copy (200 + y) = 1 :=
  memcpy_pack_unpack gapped_walkable (gapped_advances _) 100 200 0 cleared cleared (fun _ => (0 : ℤ))
    (fun x => x) fun _ => 1

/-- What is unpacked and packed again is the same stream, if the type map lists no byte twice. -/
theorem memcpy_unpack_pack (walkable : h.Walkable count fuel start stop) (advances : h.Advances count .toUserbuf)
    (nodup : (h.stream count).Nodup) (ptr buf buf' : ℤ) (stack stack' : ℕ → Stackelm) (stream stream' user : ℤ → β) :
    ∃ ok user' copy, mpitTypeMemcpy fuel ptr count h buf .toUserbuf start stop stack stream user =
      some (ok, stream, user') ∧
      mpitTypeMemcpy fuel ptr count h buf' .fromUserbuf start stop stack' stream' user' = some (ok, copy, user') ∧
      load copy buf' (h.range count start stop).length = load stream buf (h.range count start stop).length := by
  refine ⟨_, _, _, unpacks_spec walkable advances ptr buf stack stream user,
    packs_spec walkable ptr buf' stack' stream' _, ?_⟩
  have once : (h.range count start stop).Nodup := by
    unfold Handle.range between
    split
    · exact nodup.sublist (List.drop_sublist ..)
    · exact nodup.sublist ((List.take_sublist ..).trans (List.drop_sublist ..))
  rw [load_stored]
  have length : ((h.range count start stop).map (ptr + ·)).length =
      (load stream buf (h.range count start stop).length).length := by rw [List.length_map, load_length]
  have back := map_scatter (m := user) (once.map (add_right_injective ptr)) length
  rwa [List.map_map] at back

theorem memcpy_unpack_pack_gapped : ∃ ok user' copy,
    mpitTypeMemcpy 30 100 2 gapped 0 .toUserbuf 4 16 cleared (fun x => x) (fun _ => 1) = some (ok, fun x => x, user') ∧
      mpitTypeMemcpy 30 100 2 gapped 50 .fromUserbuf 4 16 cleared (fun _ => 0) user' = some (ok, copy, user') ∧
      load copy 50 12 = [0, 1, 2, 3, 4, 5, 6, 7, 8, 9, 10, 11] :=
  memcpy_unpack_pack gapped_walkable (gapped_advances _) (by decide) 100 0 50 cleared cleared (fun x => (x : ℤ))
    (fun _ => 0) fun _ => 1

end Types

section Repeats
variable {β : Type} {p : M2mParams β} {count blocklen elSize fuel : ℕ} {loc : ℕ → ℤ} {offsets : List ℤ}

/-- The memory behind some blocks that were all copied from one place. -/
def repeated (stream : ℤ → β) (src : ℤ) (size : ℕ) (loc : ℕ → ℤ) (user : ℤ → β) (i more : ℕ) : ℤ → β :=
  (List.range' i more).foldl (fun user j => memcpy stream (loc j) src size user) user

/-- To the user buffer, blocks of several aligned elements are all copied from where the stream was in front of
the first one. -/
theorem blocksM2m_repeats (several : 1 < blocklen) (elSize : ℕ) (loc : ℕ → ℤ) :
    ∀ (more i : ℕ) (p : M2mParams β), p.direction = .toUserbuf →
    (∀ j, i ≤ j → j < i + more → Typed elSize p.streambuf (loc j)) →
    blocksM2m (fun _ => blocklen) loc (blkidxBlock blocklen elSize) more i (more * blocklen) p =
      some { p with user := repeated p.stream p.streambuf (blocklen * elSize) loc p.user i more } := by
  intro more
  induction more with
  | zero =>
    intro i p direction typed
    rw [Nat.zero_mul]
    rfl
  | succ more ih =>
    intro i p direction typed
    obtain ⟨left, all⟩ : ∃ left, (more + 1) * blocklen = left + 1 :=
      ⟨(more + 1) * blocklen - 1, by rw [Nat.succ_mul]; omega⟩
    have whole : min blocklen ((more + 1) * blocklen) = blocklen := min_eq_left (Nat.le_mul_of_pos_left _ more.succ_pos)
    have rest : (more + 1) * blocklen - blocklen = more * blocklen := by rw [Nat.succ_mul, Nat.add_sub_cancel]
    have first : blkidxBlock blocklen elSize (loc i) blocklen p =
        { p with user := memcpy p.stream (loc i) p.streambuf (blocklen * elSize) p.user } := by
      unfold blkidxBlock
      rw [direction]
      dsimp only
      rw [if_pos ⟨several.ne', typed i le_rfl (by omega)⟩, copyFromVec_block]
    rw [all, blocksM2m, ← all, whole, rest, first]
    exact ih (i + 1) { p with user := _ } direction fun j ge lt => typed j (by omega) (by omega)

theorem repeated_outside {stream : ℤ → β} {src x : ℤ} {size : ℕ} (more i : ℕ) (user : ℤ → β)
    (outside : ∀ j, i ≤ j → j < i + more → x < loc j ∨ loc j + size ≤ x) :
    repeated stream src size loc user i more x = user x := by
  induction more generalizing i user with
  | zero => rfl
  | succ more ih =>
    rw [repeated, List.range'_succ, List.foldl_cons]
    refine (ih (i + 1) _ fun j ge lt => outside j (by omega) (by omega)).trans ?_
    exact store_outside (by rw [load_length]; exact outside i le_rfl (by omega))

/-- Where the blocks are apart, each one is a copy of the same bytes. -/
theorem repeated_apply {stream : ℤ → β} {src : ℤ} {size : ℕ} (loc : ℕ → ℤ) (apart : ∀ j < count, ∀ i < j,
    loc i + size ≤ loc j ∨ loc j + size ≤ loc i) (more i : ℕ) (user : ℤ → β) (all : i + more = count) {j k : ℕ}
    (ge : i ≤ j) (lt : j < count) (inside : k < size) :
    repeated stream src size loc user i more (loc j + k) = stream (src + k) := by
  induction more generalizing i user with
  | zero => omega
  | succ more ih =>
    by_cases first : j = i
    · subst first
      rw [repeated, List.range'_succ, List.foldl_cons]
      refine (repeated_outside more (j + 1) _ fun i ge lt => ?_).trans (store_load_inside inside)
      have := apart i (by omega) j (by omega)
      omega
    · exact ih (i + 1) _ (by omega) (by omega)

section Piece
variable {P : Type} {fns : PieceFns P} {f : (blocks count blklen : ℕ) → (offsetarray : List ℤ) → (elSize : ℕ) →
    (relOff bufp : ℤ) → P → Option (P × ℕ × Bool)} {ptr : ℤ} {p p' : P} {elExtent : ℤ} {s : Segment}

/-- Blocks at offsets that are not nested are one piece: the piece function gets all of them, and the leaf is popped
behind it. -/
theorem iterate_blockindexed (found : fns.blkidxfn = some f) (some_blocks : 0 < count) (some_elements : 0 < blocklen)
    (curSp : s.curSp = some 0) (off : s.streamOff = 0)
    (here : s.stackelm 0 = ⟨.final (.blockindexed count blocklen offsets) elSize elExtent, count, count, blocklen,
      blocklen, 0, offsets.getD 0 0⟩)
    (called : f (count * blocklen) count blocklen offsets elSize 0 s.ptr p = some (p', count * blocklen, false)) :
    ∃ t, s.iterate fns (count * blocklen * elSize : ℕ) p = some (t, p', true) ∧
      t.streamOff = (count * blocklen * elSize : ℕ) := by
  have final : (s.stackelm 0).loopP.isFinal = true := by
    rw [here]
    rfl
  have left : (s.stackelm 0).curcount ≠ 0 := by
    rw [here]
    exact some_blocks.ne'
  have width : (s.stackelm 0).loopP.elSize = elSize := by
    rw [here]
    rfl
  have elements : 0 < count * blocklen := Nat.mul_pos some_blocks some_elements
  have chosen : fns.choose (s.stackelm 0) = (.blockindexed, count * blocklen) := by
    rw [here]
    simp [PieceFns.choose, Dataloop.loopParams, found, Nat.mul_comm]
  have uncut : ¬cut (count * blocklen * elSize : ℕ) s.streamOff elSize (fns.choose (s.stackelm 0)).2 := by
    rw [chosen, off]
    unfold cut
    push_cast
    omega
  have call : fns.call .blockindexed (count * blocklen) (s.stackelm 0) s.ptr p =
      some (p', count * blocklen, false) := by
    rw [here, ← called]
    simp [PieceFns.call, Dataloop.loopParams, Dataloop.elSize, found]
  have advance : (s.stackelm 0).advance (count * blocklen) =
      some ({ s.stackelm 0 with curcount := 0, curblock := blocklen }, true) := by
    rw [here]
    have rest := wholeBlocks_const some_elements count count (count * blocklen) le_rfl
    rw [Nat.mul_div_cancel _ some_elements, Nat.sub_self, Nat.mul_mod_left] at rest
    simp [Stackelm.advance, Dataloop.loopParams, rest]
  have more : ¬count * blocklen < (s.stackelm 0).curblock := by
    rw [here]
    exact not_lt.mpr (Nat.le_mul_of_pos_left _ some_blocks)
  unfold Segment.iterate
  rw [curSp]
  dsimp only
  rw [if_pos final, if_neg left, s.leaf_of_uncut width uncut, chosen, call, Option.bind_some]
  unfold Segment.consume
  dsimp only
  rw [width, if_neg elements.ne', if_neg more, advance, Option.map_some]
  refine ⟨_, rfl, ?_⟩
  simp [Segment.set, off]

/-- A walk of such blocks calls the piece function once. -/
theorem manipulate_blockindexed (found : fns.blkidxfn = some f) (some_blocks : 0 < count)
    (some_elements : 0 < blocklen) (pos : 0 < elSize)
    (called : f (count * blocklen) count blocklen offsets elSize 0 ptr p = some (p', count * blocklen, false))
    (fuel size : ℕ) (extent elExtent : ℤ) (stack : ℕ → Stackelm) :
    ∃ s t, segmentInit ptr 1 ⟨size, extent, some (.final (.blockindexed count blocklen offsets) elSize elExtent)⟩
        stack = some s ∧
      s.manipulate fns (fuel + 1) 0 (count * blocklen * elSize : ℕ) p =
        some (t, ((count * blocklen * elSize : ℕ) : ℤ), p') := by
  obtain ⟨s, s_eq⟩ : ∃ s : Segment, s = ⟨ptr, 0, some 0, Function.update stack 0
    ⟨.final (.blockindexed count blocklen offsets) elSize elExtent, count, count, blocklen, blocklen, 0,
      offsets.getD 0 0⟩⟩ := ⟨_, rfl⟩
  have init : segmentInit ptr 1 ⟨size, extent, some (.final (.blockindexed count blocklen offsets) elSize elExtent)⟩
      stack = some s := by
    rw [s_eq]
    simp [segmentInit, Handle.loopOf, Dataloop.depth, maxDatatypeDepth, loadAll, Stackelm.load, Stackelm.begin,
      LoopParams.count, LoopParams.blocksize, LoopParams.firstOffset, Dataloop.loopParams]
  have curSp : s.curSp = some 0 := by rw [s_eq]
  have off : s.streamOff = 0 := by rw [s_eq]
  have here : s.stackelm 0 = ⟨.final (.blockindexed count blocklen offsets) elSize elExtent, count, count, blocklen,
      blocklen, 0, offsets.getD 0 0⟩ := by
    rw [s_eq]
    exact Function.update_self (0 : ℕ) _ stack
  have start : s.ptr = ptr := by rw [s_eq]
  obtain ⟨t, step, reached⟩ := iterate_blockindexed found some_blocks some_elements curSp off here
    (by rw [start, called])
  have some_bytes : (0 : ℤ) ≠ (count * blocklen * elSize : ℕ) := by
    have := Nat.mul_pos (Nat.mul_pos some_blocks some_elements) pos
    omega
  have there : s.reposition (fuel + 1) 0 = some s := by
    rw [s_eq]
    simp [Segment.reposition]
  refine ⟨s, t, init, ?_⟩
  rw [Segment.manipulate, if_neg some_bytes, there, Option.bind_some, Segment.loop, step]
  simp [reached]

end Piece

/-- `MPIT_Type_memcpy` to the user buffer fills all blocks of several aligned elements at offsets with the bytes
of the first one, and returns `MPI_SUCCESS`. -/
theorem memcpy_repeats (several : 1 < blocklen) (some_blocks : 0 < count) (ptr buf : ℤ)
    (typed : ∀ i < count, Typed elSize buf (ptr + offsets.getD i 0))
    (apart : ∀ j < count, ∀ i < j, offsets.getD i 0 + (blocklen * elSize : ℕ) ≤ offsets.getD j 0 ∨
      offsets.getD j 0 + (blocklen * elSize : ℕ) ≤ offsets.getD i 0)
    (fuel size : ℕ) (extent elExtent : ℤ) (stack : ℕ → Stackelm) (stream user : ℤ → β) :
    ∃ user', mpitTypeMemcpy (fuel + 1) ptr 1
        ⟨size, extent, some (.final (.blockindexed count blocklen offsets) elSize elExtent)⟩ buf
        .toUserbuf 0 (count * blocklen * elSize : ℕ) stack stream user = some (true, stream, user') ∧
      ∀ i < count, ∀ k < blocklen * elSize, user' (ptr + offsets.getD i 0 + k) = stream (buf + k) := by
  have pos : 0 < elSize := by
    have := typed 0 some_blocks
    unfold Typed at this
    omega
  refine ⟨repeated stream buf (blocklen * elSize) (fun i => ptr + offsets.getD i 0) user 0 count, ?_,
    fun i lt k inside => ?_⟩
  · have piece := blocksM2m_repeats several elSize (fun i => ptr + offsets.getD i 0) count 0
      (M2mParams.mk .toUserbuf buf ptr stream user) rfl fun j _ lt => typed j (by omega)
    have called : segmentBlkidxM2m (count * blocklen) count blocklen offsets elSize 0 ptr
      (M2mParams.mk .toUserbuf buf ptr stream user) =
        some (⟨.toUserbuf, buf, ptr, stream, repeated stream buf (blocklen * elSize)
          (fun i => ptr + offsets.getD i 0) user 0 count⟩, count * blocklen, false) := by
      rw [segmentBlkidxM2m, add_zero]
      exact congrArg (Option.map _) piece
    obtain ⟨s, t, init, run⟩ :=
      manipulate_blockindexed (rfl : (m2mFns : PieceFns (M2mParams β)).blkidxfn = _) some_blocks (by omega) pos called
        fuel size extent elExtent stack
    rw [mpitTypeMemcpy, init, Option.bind_some, run, Option.map_some]
    simp
  · exact repeated_apply (fun i => ptr + offsets.getD i 0)
      (fun j lt i lt' => by have := apart j lt i lt'; omega) count 0 user
      (Nat.zero_add _) (Nat.zero_le i) lt inside

/-- Two pairs of `int`: both get the first one. -/
theorem memcpy_repeats_pairs : ∃ user', mpitTypeMemcpy 1 64 1
    ⟨24, 48, some (.final (.blockindexed 3 2 [0, 16, 40]) 4 4)⟩ 128 .toUserbuf 0
      24 cleared (fun x => x - 128) (fun _ => 0) = some (true, fun x => x - 128, user') ∧
    ∀ i < 3, ∀ k < 8, user' (64 + [(0 : ℤ), 16, 40].getD i 0 + (k : ℕ)) = 128 + k - 128 :=
  memcpy_repeats (by decide : 1 < 2) (by decide : 0 < 3) 64 128 (by decide) (by decide) 0 24 48 4 cleared
    (fun x => x - 128) fun _ => 0

end Repeats

end FoMPI.Mpitypes
