import FoMPI.Mpitypes.Subarray

/-!
# Distributed arrays

`MPIT_Type_convert_darray` makes the type of what one rank of a grid holds of an array whose dimensions are
distributed in blocks, cyclically or not at all. The type map lists what the rank owns, in the order of the array,
and each element is owned by one rank. The code multiplies sizes, blocks and ranks as `int`, with products below
2^31 in what follows.
-/
namespace FoMPI.Mpitypes
open FoMPI.Foundation

/-- `MPI_DISTRIBUTE_BLOCK`, `MPI_DISTRIBUTE_CYCLIC` and `MPI_DISTRIBUTE_NONE`. -/
inductive Distrib
  | block
  | cyclic
  | none
  deriving DecidableEq, Repr

/-- One dimension of a distributed array. An argument `none` is `MPI_DISTRIBUTE_DFLT_DARG`. -/
structure Dim where
  gsize : ℕ
  distrib : Distrib
  darg : Option ℕ
  psize : ℕ
  deriving DecidableEq, Repr

section Convert
variable {ν : Type} (p : Predefined ν)

/-- `MPIOI_Type_block`: the new type and `*st_offset`, or `none` for `MPI_ERR_ARG`. The sizes of the dimensions that
run faster are `front`. -/
def typeBlock (front : List ℕ) (globalSize nprocs rank : ℕ) (darg : Option ℕ) (origExtent : ℤ)
    (typeOld : Datatype ν) : Option (Datatype ν × ℕ) :=
  let blksize := darg.getD ((globalSize + nprocs - 1) / nprocs)
  if darg.isSome ∧ (blksize = 0 ∨ blksize * nprocs < globalSize) then none
  else
    -- a difference below zero counts as zero
    let mysize := min blksize (globalSize - blksize * rank)
    let stride := origExtent * front.prod
    let combiner := if front = [] then Combiner.contiguous mysize else .hvector mysize 1 stride
    some (.derived combiner typeOld, if mysize = 0 then 0 else blksize * rank)

/-- `local_size`. -/
def localSize (globalSize nprocs rank blksize : ℕ) : ℕ :=
  let stIndex := rank * blksize
  if globalSize ≤ stIndex then 0
  else
    let rem := (globalSize - stIndex) % (nprocs * blksize)
    (globalSize - stIndex) / (nprocs * blksize) * blksize + if rem < blksize then rem else blksize

/-- The blocks of a process, the last of which may be smaller. -/
def cyclicBlocks (count blksize rem : ℕ) (stride : ℤ) (typeOld : Datatype ν) : Datatype ν :=
  let whole := Datatype.derived (.hvector count blksize stride) typeOld
  if rem = 0 then whole
  else .struct 2 [⟨1, 0, ⟨0, Nat.zero_lt_two⟩⟩, ⟨rem, count * stride, ⟨1, Nat.one_lt_two⟩⟩] fun i =>
    if i.val = 0 then whole else typeOld

/-- `MPIOI_Type_cyclic`. -/
def typeCyclic (front : List ℕ) (globalSize nprocs rank : ℕ) (darg : Option ℕ) (origExtent : ℤ)
    (typeOld : Datatype ν) : Option (Datatype ν × ℕ) :=
  let blksize := darg.getD 1
  if blksize = 0 then none
  else
    let size := localSize globalSize nprocs rank blksize
    let count := size / blksize
    let rem := size % blksize
    let typeNew := cyclicBlocks count blksize rem (nprocs * blksize * origExtent * front.prod) typeOld
    -- the offset of the fastest dimension is in its type
    if front = [] then some (bounded p (rank * blksize * origExtent) (origExtent * globalSize) typeNew, 0)
    else some (typeNew, if size = 0 then 0 else rank * blksize)

/-- The cases of `Type_convert_darray`. In Fortran order a dimension that is not distributed is a block on one
process; in C order it is one on the processes that the grid has there. -/
def Dim.convert (order : Order) (front : List ℕ) (d : Dim) (coord : ℕ) (origExtent : ℤ) (typeOld : Datatype ν) :
    Option (Datatype ν × ℕ) :=
  match d.distrib with
  | .block => typeBlock front d.gsize d.psize coord d.darg origExtent typeOld
  | .cyclic => typeCyclic p front d.gsize d.psize coord d.darg origExtent typeOld
  | .none =>
    match order with
    | .fortran => typeBlock front d.gsize 1 0 none origExtent typeOld
    | .c => typeBlock front d.gsize d.psize coord none origExtent typeOld

/-- The loop over the dimensions, from the fastest one on, with the coordinates of the rank: the type and
`st_offsets`. -/
def convertDims (order : Order) (origExtent : ℤ) : (front : List ℕ) → List (Dim × ℕ) → Datatype ν →
    Option (Datatype ν × List ℕ)
  | _, [], typeOld => some (typeOld, [])
  | front, (d, coord) :: ds, typeOld =>
    (d.convert p order front coord origExtent typeOld).bind fun new =>
      (convertDims order origExtent (front ++ [d.gsize]) ds new.1).map fun rest => (rest.1, new.2 :: rest.2)

/-- The loop for `coords`. -/
def gridCoords : (procs tmpRank : ℕ) → List ℕ → List ℕ
  | _, _, [] => []
  | procs, tmpRank, n :: psizes => tmpRank / (procs / n) :: gridCoords (procs / n) (tmpRank % (procs / n)) psizes

/-- `Type_convert_darray`; without any dimension there is no type. -/
def convertDarray (size rank : ℕ) (dims : List Dim) (order : Order) (oldtype : Datatype ν) : Option (Datatype ν) :=
  let extent := (oldtype.calcFootprint p).extent
  let coords := gridCoords size rank (dims.map Dim.psize)
  let ordered := order.fastestFirst dims
  if dims = [] then none
  else (convertDims p order extent [] (ordered.zip (order.fastestFirst coords)) oldtype).map fun new =>
      bounded p (displacement 1 ((ordered.map Dim.gsize).zip new.2) * extent)
        (extent * (dims.map Dim.gsize).prod) new.1

end Convert

section Places
variable {g n r b x : ℕ}

/-- What a process holds of a dimension in blocks. -/
theorem block_places (pos : 0 < b) :
    (List.range (min b (g - b * r))).map ((if min b (g - b * r) = 0 then 0 else b * r) + ·) =
      (List.range g).filter fun x => x / b = r := by
  refine (List.pairwise_map.mpr (List.pairwise_lt_range.imp fun lt => Nat.add_lt_add_left lt _)).eq_of_mem_iff
    (List.pairwise_lt_range.filter _) fun x => ?_
  simp only [List.mem_map, List.mem_range, List.mem_filter, decide_eq_true_eq]
  have block : x / b = r ↔ b * r ≤ x ∧ x < b * r + b := by
    rw [Nat.div_eq_iff pos, Nat.mul_comm r b]
    omega
  rw [block]
  constructor
  · rintro ⟨j, lt, rfl⟩
    rw [if_neg (by omega)]
    omega
  · rintro ⟨lt, le, next⟩
    refine ⟨x - b * r, by omega, ?_⟩
    rw [if_neg (by omega)]
    omega

/-- Where the element `k` of a process is. -/
def cyclicPlace (n b k : ℕ) : ℕ := k / b * (n * b) + k % b

theorem cyclicPlace_lt {k k' : ℕ} (some_procs : 0 < n) (pos : 0 < b) (lt : k < k') :
    cyclicPlace n b k < cyclicPlace n b k' := by
  unfold cyclicPlace
  have here := Nat.div_add_mod k b
  have there := Nat.div_add_mod k' b
  have room : b ≤ n * b := Nat.le_mul_of_pos_left b some_procs
  have small := Nat.mod_lt k pos
  obtain same | next := (Nat.div_le_div_right lt.le : k / b ≤ k' / b).eq_or_lt
  · rw [same] at here ⊢
    omega
  · have far : (k / b + 1) * (n * b) ≤ k' / b * (n * b) := Nat.mul_le_mul_right _ next
    rw [Nat.succ_mul] at far
    omega

/-- Element `m` of block `q` is held if it is in the array. -/
theorem lt_localSize {q m : ℕ} (small : m < b) (some_procs : 0 < n) :
    b * q + m < localSize g n r b ↔ q * (n * b) + m < g - r * b := by
  unfold localSize
  dsimp only
  split
  · omega
  · generalize g - r * b = left
    have pos : 0 < n * b := Nat.mul_pos some_procs (by omega)
    have whole := Nat.div_add_mod' left (n * b)
    have rest := Nat.mod_lt left pos
    rw [Nat.mul_comm b q]
    obtain before | here | behind := Nat.lt_trichotomy q (left / (n * b))
    · have blocks : (q + 1) * b ≤ left / (n * b) * b := Nat.mul_le_mul_right _ before
      have rounds : (q + 1) * (n * b) ≤ left / (n * b) * (n * b) := Nat.mul_le_mul_right _ before
      have room : b ≤ n * b := Nat.le_mul_of_pos_left b some_procs
      rw [Nat.succ_mul] at blocks rounds
      omega
    · rw [here]
      split <;> omega
    · have blocks : (left / (n * b) + 1) * b ≤ q * b := Nat.mul_le_mul_right _ behind
      have rounds : (left / (n * b) + 1) * (n * b) ≤ q * (n * b) := Nat.mul_le_mul_right _ behind
      rw [Nat.succ_mul] at blocks rounds
      split <;> omega

/-- What a process holds of a dimension that is distributed cyclically. -/
theorem cyclic_places (pos : 0 < b) (lt : r < n) :
    (List.range (localSize g n r b)).map (fun k => r * b + cyclicPlace n b k) =
      (List.range g).filter fun x => x / b % n = r := by
  have some_procs : 0 < n := by omega
  refine (List.pairwise_map.mpr (List.pairwise_lt_range.imp fun lt =>
    Nat.add_lt_add_left (cyclicPlace_lt some_procs pos lt) _)).eq_of_mem_iff (List.pairwise_lt_range.filter _)
    fun x => ?_
  simp only [List.mem_map, List.mem_range, List.mem_filter, decide_eq_true_eq]
  constructor
  · rintro ⟨k, held, rfl⟩
    have small := Nat.mod_lt k pos
    rw [← Nat.div_add_mod k b, lt_localSize small some_procs] at held
    have digits : r * b + cyclicPlace n b k = b * (r + n * (k / b)) + k % b := by
      unfold cyclicPlace
      ring
    rw [digits, Nat.mul_add_div pos, Nat.div_eq_of_lt small, Nat.add_zero, Nat.add_mul_mod_self_left,
      Nat.mod_eq_of_lt lt, ← digits]
    refine ⟨?_, rfl⟩
    unfold cyclicPlace
    omega
  · rintro ⟨inside, owner⟩
    have small := Nat.mod_lt x pos
    have digits : b * (n * (x / b / n) + r) + x % b = x := by rw [← owner, Nat.div_add_mod, Nat.div_add_mod]
    have split : b * (n * (x / b / n) + r) = r * b + x / b / n * (n * b) := by ring
    refine ⟨b * (x / b / n) + x % b, (lt_localSize small some_procs).mpr (by omega), ?_⟩
    rw [cyclicPlace, Nat.mul_add_div pos, Nat.div_eq_of_lt small, Nat.add_zero, Nat.mul_add_mod, Nat.mod_mod]
    omega

theorem cyclicPlace_block {i j : ℕ} (small : j < b) : cyclicPlace n b (i * b + j) = i * (n * b) + j := by
  have pos : 0 < b := by omega
  rw [cyclicPlace, Nat.mul_comm i b, Nat.mul_add_div pos, Nat.div_eq_of_lt small, Nat.add_zero, Nat.mul_add_mod,
    Nat.mod_eq_of_lt small]

theorem map_cyclicPlace {i m : ℕ} (fits : m ≤ b) : (List.range m).map (fun j => cyclicPlace n b (i * b + j)) =
    (List.range m).map fun j => i * (n * b) + j :=
  List.map_congr_left fun _ mem => cyclicPlace_block (by have := List.mem_range.mp mem; omega)

/-- Blocks one behind the other, and the elements behind them. -/
theorem cyclicPlace_blocks (count : ℕ) {rem : ℕ} (fits : rem ≤ b) :
    (List.range (count * b + rem)).map (cyclicPlace n b) =
      ((List.range count).flatMap fun i => (List.range b).map fun j => i * (n * b) + j) ++
        (List.range rem).map fun j => count * (n * b) + j := by
  have blocks : (List.range (count * b)).map (cyclicPlace n b) =
      (List.range count).flatMap fun i => (List.range b).map fun j => i * (n * b) + j := by
    induction count with
    | zero => simp
    | succ count ih =>
      rw [Nat.succ_mul, List.range_add, List.map_append, ih, List.range_succ, List.flatMap_append,
        List.flatMap_singleton, List.map_map, ← map_cyclicPlace le_rfl]
      rfl
  rw [List.range_add, List.map_append, blocks, List.map_map, ← map_cyclicPlace fits]
  rfl

end Places

section Types
variable {ν : Type} {p : Predefined ν} {front : List ℕ} {g nprocs rank : ℕ} {darg : Option ℕ} {extent : ℤ}
  {typeOld : Datatype ν}

theorem data_cyclicBlocks (count blksize rem : ℕ) (stride : ℤ) (typeOld : Datatype ν) :
    (cyclicBlocks count blksize rem stride typeOld).data p = placed (typeOld.data p)
      (starts (typeOld.calcFootprint p).extent
          ((Combiner.hvector count blksize stride).rows (typeOld.calcFootprint p).extent) ++
        (Row.mk rem (count * stride)).starts (typeOld.calcFootprint p).extent) := by
  unfold cyclicBlocks
  dsimp only
  split
  · rename_i none
    rw [none, Row.starts_zero, List.append_nil]
    rfl
  · rw [placed_append, Datatype.data, List.flatMap_cons, List.flatMap_singleton, Row.starts_one, placed_zero]
    rfl

/-- Blocks of items that lie as far apart as the elements do. -/
theorem starts_cyclic (count n b : ℕ) {rem : ℕ} (fits : rem ≤ b) (extent : ℤ) :
    starts extent ((Combiner.hvector count b (n * b * extent)).rows extent) ++
        (Row.mk rem (count * (n * b * extent))).starts extent =
      scaled extent ((List.range (count * b + rem)).map (cyclicPlace n b)) := by
  rw [cyclicPlace_blocks count fits, scaled, List.map_append]
  congr 1
  · simp only [Combiner.rows, starts, List.flatMap_map, Row.starts, List.map_flatMap, List.map_map]
    refine List.flatMap_congr fun i _ => List.map_congr_left fun j _ => ?_
    simp only [Function.comp_apply]
    push_cast
    ring
  · simp only [Row.starts, List.map_map]
    refine List.map_congr_left fun j _ => ?_
    simp only [Function.comp_apply]
    push_cast
    ring

/-- Blocks of one item each. -/
theorem starts_single (count n : ℕ) (unit : ℤ) :
    starts extent ((Combiner.hvector count 1 (n * unit)).rows extent) =
      scaled unit ((List.range count).map (cyclicPlace n 1)) := by
  rw [starts_hvector, scaled, scaled, List.map_map]
  refine List.map_congr_left fun k _ => ?_
  simp only [Function.comp_apply, cyclicPlace, Nat.div_one, Nat.mod_one, Nat.mul_one, Nat.add_zero]
  push_cast
  ring

theorem typeBlock_spec (some_procs : 0 < nprocs) (valid : ∀ b ∈ darg, 0 < b ∧ g ≤ b * nprocs)
    (first : front = [] → (typeOld.calcFootprint p).extent = extent) :
    ∃ t st ys, typeBlock front g nprocs rank darg extent typeOld = some (t, st) ∧
      t.data p = placed (typeOld.data p) (scaled (extent * front.prod) ys) ∧
      ys.map (st + ·) = (List.range g).filter fun x => x / darg.getD ((g + nprocs - 1) / nprocs) = rank := by
  unfold typeBlock
  dsimp only
  have accepted : ¬(darg.isSome ∧ (darg.getD ((g + nprocs - 1) / nprocs) = 0 ∨
      darg.getD ((g + nprocs - 1) / nprocs) * nprocs < g)) := by
    rintro ⟨some_arg, rejected⟩
    obtain ⟨b, rfl⟩ := Option.isSome_iff_exists.mp some_arg
    have := valid b rfl
    rw [Option.getD_some] at rejected
    omega
  have pos : 0 < g → 0 < darg.getD ((g + nprocs - 1) / nprocs) := fun some_elements => by
    cases darg with
    | none => exact Nat.div_pos (by omega) some_procs
    | some b => exact (valid b rfl).1
  rw [if_neg accepted]
  generalize darg.getD ((g + nprocs - 1) / nprocs) = b at pos ⊢
  refine ⟨_, _, List.range (min b (g - b * rank)), rfl, ?_, ?_⟩
  · split
    · rename_i fastest
      rw [Datatype.data, starts_contiguous, first fastest, fastest]
      simp
    · rw [Datatype.data, starts_hvector]
  · obtain rfl | some_elements := Nat.eq_zero_or_pos g
    · simp
    · exact block_places (pos some_elements)

theorem typeCyclic_spec (lt : rank < nprocs) (pos : 0 < darg.getD 1)
    (first : front = [] → (typeOld.calcFootprint p).extent = extent) (aligned : front = [] ∨ darg.getD 1 = 1) :
    ∃ t st ys, typeCyclic p front g nprocs rank darg extent typeOld = some (t, st) ∧
      t.data p = placed (typeOld.data p) (scaled (extent * front.prod) ys) ∧
      ys.map (st + ·) = (List.range g).filter fun x => x / darg.getD 1 % nprocs = rank := by
  unfold typeCyclic
  dsimp only
  generalize darg.getD 1 = b at pos aligned ⊢
  rw [if_neg pos.ne']
  have whole := Nat.div_add_mod' (localSize g nprocs rank b) b
  have fits := (Nat.mod_lt (localSize g nprocs rank b) pos).le
  by_cases fastest : front = []
  · subst fastest
    refine ⟨_, _, (List.range (localSize g nprocs rank b)).map fun k => rank * b + cyclicPlace nprocs b k, if_pos rfl,
      ?_, ?_⟩
    · have item := starts_cyclic (localSize g nprocs rank b / b) nprocs b fits extent
      rw [whole] at item
      simp only [List.prod_nil, Nat.cast_one, mul_one]
      rw [data_bounded, data_cyclicBlocks, first rfl, item, placed_singleton, ← Nat.cast_mul, scaled_shift,
        List.map_map]
      rfl
    · rw [← cyclic_places pos lt, List.map_map]
      simp
  · obtain rfl := aligned.resolve_left fastest
    refine ⟨_, _, (List.range (localSize g nprocs rank 1)).map (cyclicPlace nprocs 1), if_neg fastest, ?_, ?_⟩
    · rw [data_cyclicBlocks, Nat.div_one, Nat.mod_one, Row.starts_zero, List.append_nil]
      have item := @starts_single (typeOld.calcFootprint p).extent (localSize g nprocs rank 1) nprocs
        (extent * front.prod)
      rw [← item]
      congr 4
      push_cast
      ring
    · rw [← cyclic_places pos lt, List.map_map]
      split
      · rename_i none
        simp [none]
      · rfl

end Types

section Dims
variable {ν : Type} {p : Predefined ν} (order : Order) {front : List ℕ} {d : Dim} {dims : List Dim} {coord rank : ℕ}
  {coords : List ℕ} {extent : ℤ} {item : List ℤ} {as : List Axis} {typeOld oldtype : Datatype ν}

def Dim.blksize (d : Dim) : ℕ :=
  match d.distrib with
  | .block => d.darg.getD ((d.gsize + d.psize - 1) / d.psize)
  | .cyclic => d.darg.getD 1
  | .none => d.gsize

/-- Which coordinate owns a place of a dimension. -/
def Dim.split (d : Dim) : Split :=
  ⟨d.gsize, d.psize, fun x => if d.distrib = .cyclic then x / d.blksize % d.psize else x / d.blksize⟩

/-- What MPI asks of a dimension. -/
structure Dim.Valid (d : Dim) : Prop where
  some_procs : 0 < d.psize
  block : d.distrib = .block → ∀ b ∈ d.darg, 0 < b ∧ d.gsize ≤ b * d.psize
  cyclic : d.distrib = .cyclic → 0 < d.darg.getD 1
  none : d.distrib = .none → d.psize = 1

/-- Blocks of the default size are enough for all places. -/
theorem default_enough {g n : ℕ} (some_procs : 0 < n) : g ≤ (g + n - 1) / n * n := by
  have whole := Nat.div_add_mod' (g + n - 1) n
  have rest := Nat.mod_lt (g + n - 1) some_procs
  omega

theorem Dim.Valid.owned (valid : d.Valid) : d.split.Owned := by
  intro x inside
  have some_procs := valid.some_procs
  simp only [Dim.split] at inside ⊢
  cases kind : d.distrib with
  | block =>
    rw [if_neg (by decide), Dim.blksize, kind]
    refine Nat.div_lt_of_lt_mul (inside.trans_le ?_)
    cases arg : d.darg with
    | none => exact default_enough some_procs
    | some b => exact (valid.block kind b arg).2
  | cyclic =>
    rw [if_pos rfl]
    exact Nat.mod_lt _ some_procs
  | none =>
    rw [if_neg (by decide), Dim.blksize, kind, Nat.div_eq_of_lt inside]
    exact some_procs

/-- One dimension: what its coordinate owns, as offsets from `*st_offset`. -/
theorem Dim.convert_spec (valid : d.Valid) (lt : coord < d.psize)
    (first : front = [] → (typeOld.calcFootprint p).extent = extent)
    (aligned : front ≠ [] → d.distrib = .cyclic → d.blksize = 1) :
    ∃ t st ys, d.convert p order front coord extent typeOld = some (t, st) ∧
      t.data p = placed (typeOld.data p) (scaled (extent * front.prod) ys) ∧
      ys.map (st + ·) = (d.split.axis coord).places := by
  have some_procs := valid.some_procs
  unfold Dim.convert Split.axis Dim.split
  dsimp only
  cases kind : d.distrib with
  | block =>
    have owner : d.blksize = d.darg.getD ((d.gsize + d.psize - 1) / d.psize) := by rw [Dim.blksize, kind]
    simp only [if_neg (by decide : ¬Distrib.block = .cyclic), owner]
    exact typeBlock_spec some_procs (valid.block kind) first
  | cyclic =>
    have owner : d.blksize = d.darg.getD 1 := by rw [Dim.blksize, kind]
    simp only [owner, if_true]
    exact typeCyclic_spec lt (valid.cyclic kind) first
      (or_iff_not_imp_left.mpr fun behind => owner ▸ aligned behind kind)
  | none =>
    have alone := valid.none kind
    have origin : coord = 0 := by omega
    have owner : d.blksize = (none : Option ℕ).getD ((d.gsize + 1 - 1) / 1) := by
      rw [Dim.blksize, kind, Option.getD_none, Nat.add_sub_cancel, Nat.div_one]
    have spec := @typeBlock_spec _ p front d.gsize 1 0 none extent typeOld Nat.one_pos (by simp) first
    simp only [if_neg (by decide : ¬Distrib.none = .cyclic), owner, alone, origin]
    cases order with
    | fortran => exact spec
    | c => exact spec

/-- The loop: each pass adds the part of an axis, relative to its offset. -/
theorem convertDims_spec (valid : ∀ d ∈ dims, d.Valid) (within : List.Forall₂ (· < ·) coords (dims.map Dim.psize))
    (first : front = [] → (typeOld.calcFootprint p).extent = extent)
    (aligned : ∀ d ∈ dims.tail, d.distrib = .cyclic → d.blksize = 1)
    (aligned_head : front ≠ [] → ∀ d ∈ dims.head?, d.distrib = .cyclic → d.blksize = 1)
    (sizes : volume as = front.prod) (data : typeOld.data p = placed item (scaled extent (numbers as))) :
    ∃ (t : Datatype ν) (pairs : List (Axis × ℕ)),
      convertDims p order extent front (dims.zip coords) typeOld = some (t, pairs.map Prod.snd) ∧
      t.data p = placed item (scaled extent (numbers (as ++ pairs.map Prod.fst))) ∧
      pairs.map (fun pair => pair.1.shift pair.2) = portion (dims.map Dim.split) coords := by
  induction dims generalizing coords front as typeOld with
  | nil => exact ⟨typeOld, [], rfl, by rw [List.map_nil, List.append_nil, data], rfl⟩
  | cons d dims ih =>
    obtain ⟨here, valid⟩ := List.forall_mem_cons.mp valid
    cases within with
    | @cons coord _ coords _ lt within =>
      obtain ⟨t, st, ys, run, bytes, owned⟩ := Dim.convert_spec order here lt first
        fun behind => aligned_head behind d rfl
      have behind : front ++ [d.gsize] ≠ [] := by simp
      have bytes' : t.data p = placed item (scaled extent (numbers (as ++ [⟨d.gsize, ys⟩]))) := by
        rw [bytes, data, ← placed_axis, sizes, mul_comm]
      obtain ⟨t', pairs, rest, done, shifted⟩ := ih valid within (fun none => absurd none behind)
        (fun d' mem => aligned d' (List.mem_of_mem_tail mem))
        (fun _ d' mem => aligned d' (List.mem_of_mem_head? mem)) (by simp [volume_append, sizes]) bytes'
      refine ⟨t', (⟨d.gsize, ys⟩, st) :: pairs, ?_, ?_, ?_⟩
      · rw [List.zip_cons_cons, convertDims, run, Option.bind_some, rest]
        rfl
      · rw [done, List.append_assoc]
        rfl
      · rw [List.map_cons, shifted, Axis.shift, owned]
        rfl

theorem gridCoords_eq {ns : List ℕ} (pos : ∀ n ∈ ns, 0 < n) : gridCoords ns.prod rank ns = coordinates ns rank := by
  induction ns generalizing rank with
  | nil => rfl
  | cons n ns ih =>
    obtain ⟨here, pos⟩ := List.forall_mem_cons.mp pos
    rw [gridCoords, coordinates, List.prod_cons, Nat.mul_div_cancel_left _ here, ih pos]

/-- The elements that a rank owns, in the order of the array. -/
def ownedBy (dims : List Dim) (rank : ℕ) : List ℕ :=
  (List.range (dims.map Dim.gsize).prod).filter fun x =>
    owners ((order.fastestFirst dims).map Dim.split) x = order.fastestFirst (coordinates (dims.map Dim.psize) rank)

theorem Order.forall₂_fastestFirst {R : ℕ → ℕ → Prop} {xs : List ℕ} :
    List.Forall₂ R (order.fastestFirst xs) ((order.fastestFirst dims).map Dim.psize) ↔
      List.Forall₂ R xs (dims.map Dim.psize) := by
  cases order with
  | fortran => exact Iff.rfl
  | c =>
    simp only [Order.fastestFirst]
    rw [List.map_reverse, List.forall₂_reverse_iff]

theorem Order.fastestFirst_fastestFirst {α : Type} (xs : List α) :
    order.fastestFirst (order.fastestFirst xs) = xs := by
  cases order with
  | fortran => rfl
  | c => exact List.reverse_reverse xs

theorem splits_gsize : ((order.fastestFirst dims).map Dim.split).map Split.size =
    (order.fastestFirst dims).map Dim.gsize := by
  rw [List.map_map]
  rfl

/-- What one rank gets. -/
theorem convertDarray_spec (some_dims : dims ≠ []) (valid : ∀ d ∈ dims, d.Valid)
    (aligned : ∀ d ∈ (order.fastestFirst dims).tail, d.distrib = .cyclic → d.blksize = 1)
    (lt : rank < (dims.map Dim.psize).prod) :
    ∃ t, convertDarray p (dims.map Dim.psize).prod rank dims order oldtype = some t ∧
      t.data p = placed (oldtype.data p) (scaled (oldtype.calcFootprint p).extent (ownedBy order dims rank)) := by
  have some_procs : ∀ n ∈ dims.map Dim.psize, 0 < n := by
    intro n mem
    obtain ⟨d, listed, rfl⟩ := List.mem_map.mp mem
    exact (valid d listed).some_procs
  have within := order.forall₂_fastestFirst.mpr (coordinates_lt lt)
  have item : oldtype.data p = placed (oldtype.data p) (scaled (oldtype.calcFootprint p).extent (numbers [])) := by
    simp [numbers, scaled, placed_zero]
  obtain ⟨t, pairs, run, data, shifted⟩ := convertDims_spec order
    (fun d mem => valid d (Order.mem_fastestFirst.mp mem)) within (fun _ => rfl) aligned
    (fun behind => absurd rfl behind)
    rfl item
  have length : (order.fastestFirst (coordinates (dims.map Dim.psize) rank)).length =
      ((order.fastestFirst dims).map Dim.split).length := by
    rw [within.length_eq, List.length_map, List.length_map]
  have sizes : pairs.map (fun pair => pair.1.size) = (order.fastestFirst dims).map Dim.gsize := by
    rw [← splits_gsize, ← sizes_portion length, ← shifted, List.map_map]
    rfl
  refine ⟨_, by rw [convertDarray, if_neg some_dims, gridCoords_eq some_procs, run, Option.map_some], ?_⟩
  rw [data_bounded, data, placed_singleton, ← sizes, List.zip_map', displacement_eq, Nat.one_mul, ownedBy,
    ← order.prod_fastestFirst, ← splits_gsize, ← numbers_portion length, ← shifted, numbers_shift,
    List.nil_append, scaled_shift]

/-- There is one rank that owns an element. -/
theorem existsUnique_owner (valid : ∀ d ∈ dims, d.Valid) {x : ℕ} (inside : x < (dims.map Dim.gsize).prod) :
    ∃! rank, rank < (dims.map Dim.psize).prod ∧ x ∈ ownedBy order dims rank := by
  have owned : ∀ s ∈ (order.fastestFirst dims).map Dim.split, s.Owned := by
    intro s mem
    obtain ⟨d, listed, rfl⟩ := List.mem_map.mp mem
    exact (valid d (Order.mem_fastestFirst.mp listed)).owned
  have total : x < (((order.fastestFirst dims).map Dim.split).map Split.size).prod := by
    rwa [splits_gsize, order.prod_fastestFirst]
  have within : List.Forall₂ (· < ·) (order.fastestFirst (owners ((order.fastestFirst dims).map Dim.split) x))
      (dims.map Dim.psize) := by
    have lt := owners_lt owned total
    rw [List.map_map] at lt
    refine order.forall₂_fastestFirst.mp ?_
    rwa [Order.fastestFirst_fastestFirst]
  have held (rank : ℕ) : x ∈ ownedBy order dims rank ↔ coordinates (dims.map Dim.psize) rank =
      order.fastestFirst (owners ((order.fastestFirst dims).map Dim.split) x) := by
    rw [ownedBy, List.mem_filter, decide_eq_true_iff, and_iff_right (List.mem_range.mpr inside)]
    constructor
    · intro same
      rw [same, Order.fastestFirst_fastestFirst]
    · intro same
      rw [same, Order.fastestFirst_fastestFirst]
  simp only [held]
  exact existsUnique_rank within

/-- Each rank gets the elements that it owns, in the order of the array, and each element is owned by one rank. In
the dimensions behind the fastest one, cyclic distributions are of single elements. -/
theorem darray_typemap (some_dims : dims ≠ []) (valid : ∀ d ∈ dims, d.Valid)
    (aligned : ∀ d ∈ (order.fastestFirst dims).tail, d.distrib = .cyclic → d.blksize = 1) (oldtype : Datatype ν) :
    (∀ rank < (dims.map Dim.psize).prod,
      ∃ t, convertDarray p (dims.map Dim.psize).prod rank dims order oldtype = some t ∧
        t.data p = placed (oldtype.data p) (scaled (oldtype.calcFootprint p).extent (ownedBy order dims rank))) ∧
      ∀ x < (dims.map Dim.gsize).prod, ∃! rank, rank < (dims.map Dim.psize).prod ∧ x ∈ ownedBy order dims rank :=
  ⟨fun _ lt => convertDarray_spec order some_dims valid aligned lt,
    fun _ inside => existsUnique_owner order valid inside⟩

/-- Four rows in two blocks, and six columns that two ranks take in turns, two of them at a time. -/
def rowsAndColumns : List Dim := [⟨4, .block, none, 2⟩, ⟨6, .cyclic, some 2, 2⟩]

theorem darray_typemap_rowsAndColumns :
    (∃ t, convertDarray .ints 4 3 rowsAndColumns .c (.named ()) = some t ∧
      t.data .ints = placed [0, 1, 2, 3] [56, 60, 80, 84]) ∧
      ∃! rank, rank < 4 ∧ 14 ∈ ownedBy .c rowsAndColumns rank := by
  have valid : ∀ d ∈ rowsAndColumns, d.Valid := by
    simp only [rowsAndColumns, List.forall_mem_cons]
    exact ⟨⟨by decide, by simp, by simp, by simp⟩, ⟨by decide, by simp, by simp, by simp⟩, by simp⟩
  have parts := @darray_typemap _ .ints .c rowsAndColumns (by decide) valid (by decide) (.named ())
  exact ⟨parts.1 3 (by decide), parts.2 14 (by decide)⟩

/-- A process that has several items in a block has the second one right behind the first one. -/
theorem second_item {g n b : ℕ} (several : 1 < b) (some_procs : 0 < n) (columns : 1 < g) (stride : ℤ) :
    extent ∈ starts extent ((Combiner.hvector (localSize g n 0 b / b) b stride).rows extent) ++
      (Row.mk (localSize g n 0 b % b) ((localSize g n 0 b / b : ℕ) * stride)).starts extent := by
  have held : 1 < localSize g n 0 b := by
    have := (@lt_localSize g n 0 b 0 1 several some_procs).mpr (by omega)
    omega
  rw [List.mem_append]
  -- it is in the first block, or among the elements behind no block
  by_cases whole : b ≤ localSize g n 0 b
  · have some_blocks : 0 < localSize g n 0 b / b := Nat.div_pos whole (by omega)
    refine .inl (List.mem_flatMap.mpr ⟨⟨b, 0⟩, List.mem_map.mpr ⟨0, List.mem_range.mpr some_blocks, by simp⟩, ?_⟩)
    exact List.mem_map.mpr ⟨1, List.mem_range.mpr several, by simp⟩
  · rw [Nat.div_eq_of_lt (by omega), Nat.mod_eq_of_lt (by omega)]
    exact .inr (List.mem_map.mpr ⟨1, List.mem_range.mpr held, by simp⟩)

/-- In the other cases elements are misplaced: where a dimension that is distributed cyclically in larger blocks
follows one that is distributed in blocks, the first rank gets an element of the next one. -/
theorem darray_overlaps {g n g' n' b : ℕ} (some_procs : 0 < n) (parted : (g + n - 1) / n < g) (some_procs' : 0 < n')
    (several : 1 < b) (columns : 1 < g') (x : ν) :
    ∃ t, convertDarray p (n * n') 0 [⟨g, .block, none, n⟩, ⟨g', .cyclic, some b, n'⟩] .fortran (.named x) = some t ∧
      (g + n - 1) / n ∉ ownedBy .fortran [⟨g, .block, none, n⟩, ⟨g', .cyclic, some b, n'⟩] 0 ∧
      ∀ y ∈ (Datatype.named x).data p, ((g + n - 1) / n : ℕ) * (p.size x : ℤ) + y ∈ t.data p := by
  have some_rows : 0 < g := Nat.zero_lt_of_lt parted
  have some_elements : b ≠ 0 := by omega
  have pos : 0 < (g + n - 1) / n := Nat.div_pos (by omega) some_procs
  generalize size : (g + n - 1) / n = m at parted pos ⊢
  obtain ⟨rows, rows_eq⟩ : ∃ rows, rows = Datatype.derived (.contiguous m) (.named x) := ⟨_, rfl⟩
  obtain ⟨blocks, blocks_eq⟩ : ∃ blocks, blocks = cyclicBlocks (localSize g' n' 0 b / b) b (localSize g' n' 0 b % b)
    (n' * b * p.size x * [g].prod) rows := ⟨_, rfl⟩
  have block : typeBlock [] g n 0 none (p.size x) (.named x) = some (rows, 0) := by
    simp [typeBlock, size, rows_eq, parted.le]
  have cyclic : typeCyclic p [g] g' n' 0 (some b) (p.size x) rows = some (blocks, 0) := by
    simp [typeCyclic, blocks_eq, some_elements]
  refine ⟨bounded p 0 (p.size x * (g * g')) blocks, ?_, ?_, ?_⟩
  · have run : convertDims p .fortran (p.size x) [] [(⟨g, .block, none, n⟩, 0), (⟨g', .cyclic, some b, n'⟩, 0)]
        (.named x) = some (blocks, [0, 0]) := by
      simp [convertDims, Dim.convert, block, cyclic]
    simp [convertDarray, gridCoords, Order.fastestFirst, Datatype.calcFootprint, run, displacement]
  · simp only [ownedBy, owners, Order.fastestFirst, Dim.split, Dim.blksize, coordinates, List.map_cons, List.mem_filter]
    rintro ⟨-, same⟩
    rw [decide_eq_true_iff, Nat.mod_eq_of_lt parted, List.cons.injEq, if_neg (by decide), Option.getD_none, size,
      Nat.div_self pos, Nat.zero_div] at same
    exact Nat.one_ne_zero same.1
  · intro y mem
    have here : y ∈ rows.data p := by
      rw [rows_eq, Datatype.data, starts_contiguous, ← zero_add y]
      exact mem_placed (List.mem_map.mpr ⟨0, List.mem_range.mpr pos, by simp⟩) mem
    have extent : (rows.calcFootprint p).extent = (m : ℕ) * (p.size x : ℤ) := by
      simp [rows_eq, Datatype.calcFootprint, Combiner.footprint, Footprint.spread, contigLbUb, pos.ne']
      ring
    rw [data_bounded, placed_zero, blocks_eq, data_cyclicBlocks, ← extent]
    exact mem_placed (second_item several some_procs' columns _) here

/-- Four columns, two of them at a time, of four rows in two blocks. -/
theorem darray_overlaps_pairs : ∃ t,
    convertDarray .ints 4 0 [⟨4, .block, none, 2⟩, ⟨4, .cyclic, some 2, 2⟩] .fortran (.named ()) = some t ∧
      2 ∉ ownedBy .fortran [⟨4, .block, none, 2⟩, ⟨4, .cyclic, some 2, 2⟩] 0 ∧
      ∀ y ∈ (Datatype.named ()).data .ints, 8 + y ∈ t.data .ints :=
  @darray_overlaps _ .ints 4 2 4 2 2 (by decide) (by decide) (by decide) (by decide) (by decide) ()

end Dims

end FoMPI.Mpitypes
