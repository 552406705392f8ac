import FoMPI.Mpitypes.Struct

/-!
# Datatypes

A datatype as `MPI_Type_get_envelope` and `MPI_Type_get_contents` take it apart, the footprint that
`MPIT_Type_calc_footprint` computes for it, and the dataloop that `MPIT_Type_init` has created. The
latter stands for the bytes of the type map, in their order.
-/
namespace FoMPI.Mpitypes
open FoMPI.Foundation

/-- The predefined types other than pairs, of which `MPI_2INT` is one, and markers of bounds. Their extents are
their sizes. -/
structure Predefined (ν : Type) where
  size : ν → ℕ
  /-- `DLOOP_Named_type_alignsize` at a displacement. -/
  alignsize : ν → ℤ → ℤ
  size_pos : ∀ x, 0 < size x

/-- Only `int`. -/
def Predefined.ints : Predefined Unit := ⟨fun _ => 4, fun _ _ => 4, fun _ => by decide⟩

/-- How a type is made of items of one other type. -/
inductive Combiner
  | contiguous (count : ℕ)
  | vector (count blocklength : ℕ) (stride : ℤ)
  | hvector (count blocklength : ℕ) (stride : ℤ)
  | indexedBlock (blocklength : ℕ) (displacements : List ℤ)
  | indexed (blocks : List Row)
  | hindexed (blocks : List Row)
  deriving DecidableEq, Repr

/-- A datatype over the predefined types `ν`. The members of a struct refer to its handles by their numbers. -/
inductive Datatype (ν : Type)
  | named (type : ν)
  | dup (oldtype : Datatype ν)
  | resized (lb extent : ℤ) (oldtype : Datatype ν)
  | derived (combiner : Combiner) (oldtype : Datatype ν)
  | struct (handles : ℕ) (members : List (Member (Fin handles))) (types : Fin handles → Datatype ν)

section Footprint

/-- `DLOOP_Type_footprint`. -/
structure Footprint where
  size : ℕ
  lb : ℤ
  ub : ℤ
  trueLb : ℤ
  trueUb : ℤ
  extent : ℤ
  alignsz : ℤ
  hasStickyLb : Bool
  hasStickyUb : Bool
  deriving DecidableEq, Repr

def Footprint.zero : Footprint := ⟨0, 0, 0, 0, 0, 0, 0, false, false⟩

/-- `DLOOP_DATATYPE_CONTIG_LB_UB`. -/
def contigLbUb (cnt : ℕ) (oldLb oldUb oldExtent : ℤ) : ℤ × ℤ :=
  if cnt = 0 then (oldLb, oldUb)
  else if oldLb ≤ oldUb then (oldLb, oldUb + oldExtent * (cnt - 1))
  else (oldLb + oldExtent * (cnt - 1), oldUb)

/-- `DLOOP_DATATYPE_VECTOR_LB_UB`. -/
def vectorLbUb (cnt : ℕ) (stride : ℤ) (blklen : ℕ) (oldLb oldUb oldExtent : ℤ) : ℤ × ℤ :=
  if cnt = 0 ∨ blklen = 0 then (oldLb, oldUb)
  else if 0 ≤ stride ∧ 0 ≤ oldExtent then (oldLb, oldUb + oldExtent * (blklen - 1) + stride * (cnt - 1))
  else if stride < 0 ∧ 0 ≤ oldExtent then (oldLb + stride * (cnt - 1), oldUb + oldExtent * (blklen - 1))
  else if 0 ≤ stride ∧ oldExtent < 0 then (oldLb + oldExtent * (blklen - 1), oldUb + stride * (cnt - 1))
  else (oldLb + oldExtent * (blklen - 1) + stride * (cnt - 1), oldUb)

/-- `DLOOP_DATATYPE_BLOCK_LB_UB`. -/
def blockLbUb (cnt : ℕ) (disp oldLb oldUb oldExtent : ℤ) : ℤ × ℤ :=
  if cnt = 0 then (oldLb + disp, oldUb + disp)
  else if oldLb ≤ oldUb then (oldLb + disp, oldUb + disp + oldExtent * (cnt - 1))
  else (oldLb + disp + oldExtent * (cnt - 1), oldUb + disp)

/-- `min_lb` and `max_ub` behind one more block. -/
def widen (minMax tmp : ℤ × ℤ) : ℤ × ℤ :=
  (if tmp.1 < minMax.1 then tmp.1 else minMax.1, if minMax.2 < tmp.2 then tmp.2 else minMax.2)

/-- A footprint from the bounds, where all items are of one type. -/
def Footprint.spread (cfp : Footprint) (size : ℕ) (lbUb : ℤ × ℤ) : Footprint :=
  { cfp with
    size := size
    lb := lbUb.1
    ub := lbUb.2
    trueLb := lbUb.1 + (cfp.trueLb - cfp.lb)
    trueUb := lbUb.2 + (cfp.trueUb - cfp.ub)
    extent := lbUb.2 - lbUb.1 }

/-- Blocks of different lengths; empty ones are skipped. -/
def Footprint.blocks (cfp : Footprint) (blocks : List Row) : Footprint :=
  match blocks.filter fun row => row.count ≠ 0 with
  | [] => .zero
  | row :: rows =>
    let bounds := fun row : Row => blockLbUb row.count row.displ cfp.lb cfp.ub cfp.extent
    cfp.spread (((row :: rows).map Row.count).sum * cfp.size) ((rows.map bounds).foldl widen (bounds row))

/-- The cases of `MPIT_Type_calc_footprint` for items of one type. -/
def Combiner.footprint (c : Combiner) (cfp : Footprint) : Footprint :=
  match c with
  | .contiguous count =>
    if count = 0 then .zero else cfp.spread (count * cfp.size) (contigLbUb count cfp.lb cfp.ub cfp.extent)
  | .vector count blocklength stride =>
    if count = 0 then .zero
    else
      cfp.spread (count * blocklength * cfp.size)
        (vectorLbUb count (stride * cfp.extent) blocklength cfp.lb cfp.ub cfp.extent)
  | .hvector count blocklength stride =>
    if count = 0 then .zero
    else cfp.spread (count * blocklength * cfp.size) (vectorLbUb count stride blocklength cfp.lb cfp.ub cfp.extent)
  | .indexedBlock blocklength displacements =>
    match displacements with
    | [] => .zero
    | disp :: disps =>
      let bounds := fun disp : ℤ => blockLbUb blocklength (disp * cfp.extent) cfp.lb cfp.ub cfp.extent
      cfp.spread ((disps.length + 1) * blocklength * cfp.size) ((disps.map bounds).foldl widen (bounds disp))
  | .indexed blocks => cfp.blocks (blocks.map fun row => ⟨row.count, row.displ * cfp.extent⟩)
  | .hindexed blocks => cfp.blocks blocks

/-- One block of `DLOOP_Type_calc_footprint_struct`; `tfp` has what was found before, and `first_iter` is that
there was nothing. -/
def Footprint.member (firstIter : Bool) (tfp cfp : Footprint) (blklen : ℕ) (disp alignsz : ℤ) : Footprint :=
  let (tmpLb, tmpUb) := blockLbUb blklen disp cfp.lb cfp.ub cfp.extent
  let tmpTrueLb := tmpLb + (cfp.trueLb - cfp.lb)
  let tmpTrueUb := tmpUb + (cfp.trueUb - cfp.ub)
  let takeLb := firstIter ∨ (!tfp.hasStickyLb ∧ tmpLb < tfp.lb) ∨ (!tfp.hasStickyLb ∧ cfp.hasStickyLb) ∨
    (cfp.hasStickyLb ∧ tmpLb < tfp.lb)
  let takeUb := firstIter ∨ (!tfp.hasStickyUb ∧ tfp.ub < tmpUb) ∨ (!tfp.hasStickyUb ∧ cfp.hasStickyUb) ∨
    (cfp.hasStickyUb ∧ tfp.ub < tmpUb)
  { tfp with
    size := tfp.size + cfp.size * blklen
    alignsz := if tfp.alignsz < alignsz then alignsz else tfp.alignsz
    lb := if takeLb then tmpLb else tfp.lb
    hasStickyLb := if takeLb ∧ cfp.hasStickyLb then true else tfp.hasStickyLb
    ub := if takeUb then tmpUb else tfp.ub
    hasStickyUb := if takeUb ∧ cfp.hasStickyUb then true else tfp.hasStickyUb
    trueLb := if firstIter ∨ tfp.trueLb < tmpTrueLb then tmpTrueLb else tfp.trueLb
    trueUb := if firstIter ∨ tmpTrueUb < tfp.trueUb then tmpTrueUb else tfp.trueUb }

/-- The end of `DLOOP_Type_calc_footprint_struct`. -/
def Footprint.pad (tfp : Footprint) : Footprint :=
  let tmpExtent := tfp.ub - tfp.lb
  let epsilon := if 0 < tfp.alignsz then tmpExtent.tmod tfp.alignsz else 0
  if !tfp.hasStickyLb ∧ !tfp.hasStickyUb ∧ epsilon ≠ 0 then
    { tfp with ub := tfp.ub + (tfp.alignsz - epsilon), extent := tmpExtent + (tfp.alignsz - epsilon) }
  else { tfp with extent := tmpExtent }

end Footprint

namespace Datatype
variable {ν : Type} (p : Predefined ν)

/-- The alignment of a block of a struct. -/
def alignsz (cfp : Footprint) (disp : ℤ) : Datatype ν → ℤ
  | named type => p.alignsize type disp
  | _ => cfp.alignsz

/-- `MPIT_Type_calc_footprint`. -/
def calcFootprint : Datatype ν → Footprint
  | named type => ⟨p.size type, 0, p.size type, 0, p.size type, p.size type, p.alignsize type 0, false, false⟩
  | dup oldtype => oldtype.calcFootprint
  | resized lb extent oldtype =>
    { oldtype.calcFootprint with
      lb := lb
      ub := lb + extent
      extent := extent
      hasStickyLb := true
      hasStickyUb := true }
  | derived combiner oldtype => combiner.footprint oldtype.calcFootprint
  | struct _ members types =>
    match members.filter fun m => m.blklen ≠ 0 with
    | [] => .zero
    | m :: ms =>
      let member := fun firstIter tfp (m : Member _) =>
        let cfp := (types m.oldtype).calcFootprint
        Footprint.member firstIter tfp cfp m.blklen m.disp ((types m.oldtype).alignsz p cfp m.disp)
      (ms.foldl (member false) (member true .zero m)).pad

end Datatype

section Create

/-- The cases of `Dataloop_create` for items of one type. -/
def Combiner.create (c : Combiner) (oldtype : Handle) : Option Dataloop :=
  match c with
  | .contiguous count => some (dataloopCreateContiguous count oldtype)
  | .vector count blocklength stride => some (dataloopCreateVector count blocklength stride false oldtype)
  | .hvector count blocklength stride => some (dataloopCreateVector count blocklength stride true oldtype)
  | .indexedBlock blocklength displacements => some (dataloopCreateBlockindexed blocklength displacements false oldtype)
  | .indexed blocks => dataloopCreateIndexed blocks false oldtype
  | .hindexed blocks => dataloopCreateIndexed blocks true oldtype

/-- `ints[0]`. -/
def Combiner.count : Combiner → ℕ
  | .contiguous count | .vector count _ _ | .hvector count _ _ => count
  | .indexedBlock _ displacements => displacements.length
  | .indexed blocks | .hindexed blocks => blocks.length

def Dataloop.setElExtent (extent : ℤ) : Dataloop → Dataloop
  | .final loopParams elSize _ => .final loopParams elSize extent
  | .nested loopParams elSize _ dataloop => .nested loopParams elSize extent dataloop

namespace Datatype
variable {ν : Type} (p : Predefined ν) (fuel : ℕ) (stack : ℕ → Stackelm)

/-- A datatype with its dataloop; `MPIT_Datatype_set_szext` takes the other values from the footprint. -/
def withLoop (t : Datatype ν) (loop : Option Dataloop) : Handle :=
  ⟨(t.calcFootprint p).size, (t.calcFootprint p).extent, loop⟩

/-- `Dataloop_create`, which is `none` if an assertion fails. Predefined types have no dataloop. The segments
that structs are flattened with are given `fuel` iterations and the memory `stack`. -/
def dataloopCreate : Datatype ν → Option (Option Dataloop)
  | named _ => some none
  | dup oldtype => oldtype.dataloopCreate.map fun old =>
    match old with
    | some d => some d
    | none => some (dataloopCreateContiguous 1 (oldtype.withLoop p none))
  | resized _ extent oldtype => oldtype.dataloopCreate.map fun old =>
    match old with
    | some d => some d
    | none => some ((dataloopCreateContiguous 1 (oldtype.withLoop p none)).setElExtent extent)
  | derived combiner oldtype =>
    if combiner.count = 0 then some (some (dataloopCreateContiguous 0 .mpiInt))
    else oldtype.dataloopCreate.bind fun old => (combiner.create (oldtype.withLoop p old)).map some
  | struct _ members types =>
    if members = [] then some (some (dataloopCreateContiguous 0 .mpiInt))
    else if ∀ m ∈ members, (types m.oldtype).dataloopCreate.isSome then
      let handles := fun i => (types i).withLoop p ((types i).dataloopCreate.getD none)
      (dataloopCreateStruct fuel stack handles members).map some
    else none

/-- What MPITypes knows of a datatype behind `MPIT_Type_init`. -/
def handle (t : Datatype ν) : Option Handle := (t.dataloopCreate p fuel stack).map (t.withLoop p)

end Datatype

end Create

section Typemap

/-- Where the items of a type are, in blocks of them. -/
def Combiner.rows (c : Combiner) (extent : ℤ) : List Row :=
  match c with
  | .contiguous count => [⟨count, 0⟩]
  | .vector count blocklength stride => (List.range count).map fun i : ℕ => ⟨blocklength, i * (stride * extent)⟩
  | .hvector count blocklength stride => (List.range count).map fun i : ℕ => ⟨blocklength, i * stride⟩
  | .indexedBlock blocklength displacements => displacements.map fun d => ⟨blocklength, d * extent⟩
  | .indexed blocks => blocks.map fun row => ⟨row.count, row.displ * extent⟩
  | .hindexed blocks => blocks

/-- The bytes of a type map, in its order. -/
def Datatype.data {ν : Type} (p : Predefined ν) : Datatype ν → List ℤ
  | named type => (Block.mk 0 (p.size type)).bytes
  | dup oldtype | resized _ _ oldtype => oldtype.data p
  | derived combiner oldtype =>
    placed (oldtype.data p) (starts (oldtype.calcFootprint p).extent (combiner.rows (oldtype.calcFootprint p).extent))
  | struct _ members types => members.flatMap fun m =>
    placed ((types m.oldtype).data p) ((Row.mk m.blklen m.disp).starts ((types m.oldtype).calcFootprint p).extent)

end Typemap

section Size
variable {ν : Type} {p : Predefined ν} {cfp : Footprint}

/-- What is empty counts nothing. -/
theorem sum_filter {α : Type} {q : α → Bool} {f : α → ℕ} (empty : ∀ x, q x = false → f x = 0) (xs : List α) :
    ((xs.filter q).map f).sum = (xs.map f).sum := by
  induction xs with
  | nil => rfl
  | cons x xs ih =>
    cases found : q x with
    | false => rw [List.filter_cons_of_neg (by simp [found]), ih, List.map_cons, List.sum_cons, empty x found,
      Nat.zero_add]
    | true => rw [List.filter_cons_of_pos found, List.map_cons, List.sum_cons, ih, List.map_cons, List.sum_cons]

theorem Footprint.size_blocks (blocks : List Row) :
    (cfp.blocks blocks).size = (blocks.map Row.count).sum * cfp.size := by
  have same : ((blocks.filter fun row => row.count ≠ 0).map Row.count).sum = (blocks.map Row.count).sum :=
    sum_filter (fun row empty => by simpa using empty) blocks
  unfold Footprint.blocks
  rw [← same]
  cases blocks.filter fun row => row.count ≠ 0 with
  | nil => exact (Nat.zero_mul _).symm
  | cons row rows => rfl

theorem Combiner.size_footprint (c : Combiner) (extent : ℤ) :
    (c.footprint cfp).size = ((c.rows extent).map Row.count).sum * cfp.size := by
  cases c with
  | contiguous count =>
    rw [Combiner.footprint]
    split
    · rename_i zero
      simp [Combiner.rows, zero, Footprint.zero]
    · simp [Combiner.rows, Footprint.spread]
  | vector count blocklength stride =>
    rw [Combiner.footprint]
    split
    · rename_i zero
      simp [Combiner.rows, zero, Footprint.zero]
    · simp [Combiner.rows, Footprint.spread, Function.comp_def]
  | hvector count blocklength stride =>
    rw [Combiner.footprint]
    split
    · rename_i zero
      simp [Combiner.rows, zero, Footprint.zero]
    · simp [Combiner.rows, Footprint.spread, Function.comp_def]
  | indexedBlock blocklength displacements =>
    cases displacements with
    | nil => simp [Combiner.rows, Combiner.footprint, Footprint.zero]
    | cons disp disps =>
      have total : ((Combiner.indexedBlock blocklength (disp :: disps)).rows extent).map Row.count =
          List.replicate (disps.length + 1) blocklength := by
        simp [Combiner.rows, Function.comp_def, List.replicate_succ]
      rw [total, List.sum_replicate]
      rfl
  | indexed blocks =>
    rw [Combiner.footprint, Footprint.size_blocks, Combiner.rows, List.map_map, List.map_map]
    rfl
  | hindexed blocks => exact Footprint.size_blocks blocks

/-- The blocks of a struct, one after the other. -/
theorem size_members {ι : Type} {step : Footprint → Member ι → Footprint} {size : Member ι → ℕ}
    (each : ∀ tfp m, (step tfp m).size = tfp.size + size m) (ms : List (Member ι)) (tfp : Footprint) :
    (ms.foldl step tfp).size = tfp.size + (ms.map size).sum := by
  induction ms generalizing tfp with
  | nil => rfl
  | cons m ms ih => rw [List.foldl_cons, ih, each, List.map_cons, List.sum_cons, Nat.add_assoc]

theorem Footprint.size_pad (tfp : Footprint) : tfp.pad.size = tfp.size := by
  unfold Footprint.pad
  dsimp only
  rw [apply_ite Footprint.size]
  exact ite_self _

/-- The size is the number of bytes in the type map. -/
theorem length_data (p : Predefined ν) (t : Datatype ν) : (t.data p).length = (t.calcFootprint p).size := by
  induction t with
  | named type => exact Block.length_bytes _
  | dup oldtype ih => exact ih
  | resized lb extent oldtype ih => exact ih
  | derived combiner oldtype ih =>
    rw [Datatype.data, length_placed, length_starts, ih, Datatype.calcFootprint, combiner.size_footprint]
  | struct handles members types ih =>
    have empty : ∀ m : Member (Fin handles), decide (m.blklen ≠ 0) = false →
      ((types m.oldtype).calcFootprint p).size * m.blklen = 0 :=
      fun m found => by
        have none : m.blklen = 0 := by simpa using found
        rw [none, Nat.mul_zero]
    have all : ((Datatype.struct handles members types).data p).length =
        ((members.filter fun m => m.blklen ≠ 0).map fun m =>
            ((types m.oldtype).calcFootprint p).size * m.blklen).sum := by
      rw [sum_filter empty, Datatype.data, List.length_flatMap]
      congr 1
      refine List.map_congr_left fun m _ => ?_
      rw [length_placed, Row.length_starts, ih, Nat.mul_comm]
    rw [all, Datatype.calcFootprint]
    cases members.filter fun m => m.blklen ≠ 0 with
    | nil => rfl
    | cons m ms =>
      dsimp only
      rw [Footprint.size_pad, size_members (fun tfp m => rfl)]
      simp [Footprint.member, Footprint.zero]

end Size

section Regular
variable {ν : Type} (p : Predefined ν) (fuel : ℕ) (stack : ℕ → Stackelm)

def Combiner.SomeItems : Combiner → Prop
  | .contiguous count => 0 < count
  | .vector count blocklength _ | .hvector count blocklength _ => 0 < count ∧ 0 < blocklength
  | .indexedBlock blocklength displacements => 0 < blocklength ∧ displacements ≠ []
  | .indexed blocks | .hindexed blocks => ∃ row ∈ blocks, row.count ≠ 0

/-- Where displacements are counted in items of no extent, blocks are adjacent that do not look so; where they
are in bytes and the first block is empty, those of another one may be read. -/
structure Combiner.Regular (c : Combiner) (extent : ℤ) : Prop where
  some_items : c.SomeItems
  indexed : ∀ blocks, c = .indexed blocks → extent ≠ 0
  hindexed : ∀ blocks, c = .hindexed blocks → ∀ row ∈ blocks.head?, row.count ≠ 0

/-- A datatype with data in all of its parts, of which none is taken for dense that is not, and of which the parts
of a struct are not too deep or too large to be flattened. -/
def Datatype.Regular : Datatype ν → Prop
  | named _ => True
  | dup oldtype | resized _ _ oldtype => oldtype.Regular
  | derived combiner oldtype =>
    oldtype.Regular ∧ combiner.Regular (oldtype.calcFootprint p).extent ∧ ∀ h ∈ oldtype.handle p fuel stack, h.Dense
  | struct _ members types =>
    (∀ m ∈ members, (types m.oldtype).Regular) ∧ (∃ m ∈ members, m.blklen ≠ 0) ∧
      ∀ m ∈ members, m.blklen ≠ 0 → ∀ h ∈ (types m.oldtype).handle p fuel stack, h.Dense ∧
        (h.loopOf m.blklen).depth < maxDatatypeDepth ∧ (h.stream m.blklen).length < 2147483648 ∧
        (h.loopOf m.blklen).work < fuel

end Regular

section Typemaps
variable {ν : Type} {p : Predefined ν} {fuel : ℕ} {stack : ℕ → Stackelm} {h : Handle} {c : Combiner}
  {t : Datatype ν} {d : Dataloop}
  {data : List ℤ}

/-- A datatype stands for these bytes. -/
structure Handle.StandsFor (h : Handle) (data : List ℤ) : Prop where
  sound : h.Sound
  merged : ∀ d, h.loop = some d → Merged d.leaf.1 d.leaf.2
  bytes : h.bytes = data

theorem Handle.StandsFor.fit (stands : h.StandsFor data) (dense : h.Dense) : h.Fit :=
  ⟨stands.sound, stands.merged, dense⟩

theorem Handle.StandsFor.built (stands : h.StandsFor data) (loop : h.loop = some d) : Built data d where
  sound := (stands.sound.derived d loop).1
  bytes := by rw [← stands.bytes, Handle.bytes, loop]
  merged := stands.merged d loop

theorem Built.standsFor (built : Built (t.data p) d) : (t.withLoop p (some d)).StandsFor (t.data p) where
  sound := ⟨fun loop => (Option.some_ne_none _ loop).elim, fun d' loop => by
    obtain rfl : d = d' := Option.some.inj loop
    exact ⟨built.sound, by rw [built.bytes, length_data]; rfl⟩⟩
  merged d' loop := by
    obtain rfl : d = d' := Option.some.inj loop
    exact built.merged
  bytes := built.bytes

theorem Combiner.create_spec (sound : h.Sound) (regular : c.Regular h.extent) :
    ∃ d, c.create h = some d ∧ Shaped h (starts h.extent (c.rows h.extent)) d := by
  obtain ⟨some_items, indexed, hindexed⟩ := regular
  cases c with
  | contiguous count => exact ⟨_, rfl, .contiguous some_items starts_singleton⟩
  | vector count blocklength stride => exact ⟨_, rfl, vector_spec sound some_items.1 some_items.2 stride false⟩
  | hvector count blocklength stride => exact ⟨_, rfl, vector_spec sound some_items.1 some_items.2 stride true⟩
  | indexedBlock blocklength displacements => exact ⟨_, rfl, blockindexed_spec sound some_items.2 some_items.1 false⟩
  | indexed blocks =>
    exact indexed_spec sound some_items (.inr (indexed blocks rfl)) fun inbytes => absurd inbytes Bool.false_ne_true
  | hindexed blocks =>
    obtain ⟨d, run, shaped⟩ := indexed_spec sound some_items (.inl rfl) fun _ => hindexed blocks rfl
    have same : blocks.map (inBytes true h.extent) = blocks := List.map_id _
    exact ⟨d, run, same ▸ shaped⟩

theorem Combiner.SomeItems.count_ne_zero (some_items : c.SomeItems) : c.count ≠ 0 := by
  have of_mem {blocks : List Row} (some_items : ∃ row ∈ blocks, row.count ≠ 0) : blocks.length ≠ 0 := by
    obtain ⟨row, mem, -⟩ := some_items
    exact (List.length_pos_of_mem mem).ne'
  cases c with
  | contiguous count => exact Nat.ne_of_gt some_items
  | vector count blocklength stride => exact Nat.ne_of_gt some_items.1
  | hvector count blocklength stride => exact Nat.ne_of_gt some_items.1
  | indexedBlock blocklength displacements => exact (List.length_pos_of_ne_nil some_items.2).ne'
  | indexed blocks => exact of_mem some_items
  | hindexed blocks => exact of_mem some_items

/-- A copy of a predefined type is one item of it. -/
theorem copy_named {x : ν} (d : Dataloop) (copied : d = .final (.contig 1) (p.size x) d.elExtent) :
    Built ((Datatype.named x).data p) d := by
  rw [copied]
  refine ⟨⟨sound_contig Nat.one_pos, p.size_pos x⟩, ?_, trivial⟩
  rw [Dataloop.bytes, bytes_blocks_rows, rows_contig, starts_singleton, Row.starts_one, placed_zero]
  rfl

/-- Only predefined types have no dataloop. -/
theorem named_of_none (created : t.dataloopCreate p fuel stack = some none) : ∃ x, t = .named x := by
  cases t with
  | named x => exact ⟨x, rfl⟩
  | dup oldtype =>
    obtain ⟨old, -, none⟩ := Option.map_eq_some_iff.mp created
    cases old <;> contradiction
  | resized lb extent oldtype =>
    obtain ⟨old, -, none⟩ := Option.map_eq_some_iff.mp created
    cases old <;> contradiction
  | derived combiner oldtype =>
    rw [Datatype.dataloopCreate] at created
    split at created
    · simp at created
    · obtain ⟨old, -, created⟩ := Option.bind_eq_some_iff.mp created
      simp at created
  | struct handles members types =>
    rw [Datatype.dataloopCreate] at created
    split at created
    · simp at created
    · split at created
      · simp at created
      · contradiction

/-- The loop of a type that has the bytes of another one is that one's, or a new one where that is predefined. -/
theorem same_data {old : Option Dataloop} {f : Handle → Dataloop} (created : t.dataloopCreate p fuel stack = some old)
    (stands : (t.withLoop p old).StandsFor (t.data p))
    (new : ∀ x, t = .named x → f (t.withLoop p none) = .final (.contig 1) (p.size x) (f (t.withLoop p none)).elExtent) :
    ∃ d, (match old with | some d => some d | none => some (f (t.withLoop p none))) = some d ∧ Built (t.data p) d := by
  cases old with
  | some d => exact ⟨d, rfl, stands.built rfl⟩
  | none =>
    obtain ⟨x, rfl⟩ := named_of_none created
    exact ⟨_, rfl, copy_named _ (new x rfl)⟩

theorem created_spec (regular : t.Regular p fuel stack) :
    ∃ loop, t.dataloopCreate p fuel stack = some loop ∧ (t.withLoop p loop).StandsFor (t.data p) := by
  induction t with
  | named x =>
    refine ⟨none, rfl, ⟨fun _ => ⟨p.size_pos x, rfl⟩, fun d loop => (Option.some_ne_none d loop.symm).elim⟩,
        fun d loop =>
      (Option.some_ne_none d loop.symm).elim, rfl⟩
  | dup oldtype ih =>
    obtain ⟨old, created, stands⟩ := ih regular
    obtain ⟨d, copied, built⟩ := same_data (f := dataloopCreateContiguous 1) created stands
      fun x same => by subst same; rfl
    exact ⟨some d, by rw [Datatype.dataloopCreate, created, Option.map_some, ← copied],
      Built.standsFor (t := .dup oldtype) built⟩
  | resized lb extent oldtype ih =>
    obtain ⟨old, created, stands⟩ := ih regular
    obtain ⟨d, copied, built⟩ := same_data (f := fun h => (dataloopCreateContiguous 1 h).setElExtent extent)
      created stands
      fun x same => by subst same; rfl
    exact ⟨some d, by rw [Datatype.dataloopCreate, created, Option.map_some, ← copied],
      Built.standsFor (t := .resized lb extent oldtype) built⟩
  | derived combiner oldtype ih =>
    obtain ⟨regular, items, dense⟩ := regular
    obtain ⟨old, created, stands⟩ := ih regular
    have fit := stands.fit (dense _ (by rw [Datatype.handle, created]; rfl))
    obtain ⟨d, run, shaped⟩ := combiner.create_spec fit.sound items
    have built := shaped.built fit
    rw [stands.bytes] at built
    refine ⟨some d, ?_, Built.standsFor (t := .derived combiner oldtype) built⟩
    rw [Datatype.dataloopCreate, if_neg items.some_items.count_ne_zero, created, Option.bind_some, run, Option.map_some]
  | struct handles members types ih =>
    obtain ⟨regular, some_items, usable⟩ := regular
    -- what is known of the types of the members
    obtain ⟨known, known_eq⟩ : ∃ known : Fin handles → Handle, known = fun i =>
      (types i).withLoop p (((types i).dataloopCreate p fuel stack).getD none) := ⟨_, rfl⟩
    have each (m : Member (Fin handles)) (mem : m ∈ members) : ((types m.oldtype).dataloopCreate p fuel stack).isSome ∧
        (types m.oldtype).handle p fuel stack = some (known m.oldtype) ∧
            (known m.oldtype).StandsFor ((types m.oldtype).data p) := by
      obtain ⟨loop, created, stands⟩ := ih m.oldtype (regular m mem)
      have same : known m.oldtype = (types m.oldtype).withLoop p loop := by
        rw [known_eq]
        dsimp only
        rw [created]
        rfl
      exact ⟨by rw [created]; rfl, by rw [Datatype.handle, created, same]; rfl, same ▸ stands⟩
    have blocks : ∀ m ∈ members, m.blklen ≠ 0 → m.Usable fuel known := fun m mem some_items => by
      obtain ⟨-, created, stands⟩ := each m mem
      obtain ⟨dense, shallow, short, enough⟩ := usable m mem some_items _ created
      exact ⟨stands.fit dense, shallow, short, enough⟩
    obtain ⟨d, run, built⟩ := struct_spec blocks some_items stack
    have data : structData known members = (Datatype.struct handles members types).data p := by
      refine List.flatMap_congr fun m mem => ?_
      have extent : (known m.oldtype).extent = ((types m.oldtype).calcFootprint p).extent := by rw [known_eq]; rfl
      rw [Member.data, (each m mem).2.2.bytes, extent]
    rw [data] at built
    refine ⟨some d, ?_, Built.standsFor built⟩
    obtain ⟨m, mem, -⟩ := some_items
    have some_created : ∀ m ∈ members, ((types m.oldtype).dataloopCreate p fuel stack).isSome :=
      fun m mem => (each m mem).1
    rw [Datatype.dataloopCreate, if_neg (List.ne_nil_of_mem mem), if_pos some_created, ← known_eq]
    dsimp only
    rw [run, Option.map_some]

end Typemaps

end FoMPI.Mpitypes
