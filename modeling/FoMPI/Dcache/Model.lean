import Mathlib.Data.Fin.Basic
import FoMPI.Foundation.Transition
import FoMPI.Foundation.Blocks

/-!
# The datatype cache

`dcache_get_next_block` on the ten entries of `glob_info.dcache_blocks`. What the
datatype library flattens a type and a count into is the parameter `layout`; a
handle freed with `foMPI_Type_free` may come back with another layout.
-/
namespace FoMPI.Dcache
open FoMPI.Foundation

/-- `dcache_blocks_t`; the arrays `displ` and `blocklen` are one list, of length
`number_blocks`. The type `none` is `MPI_DATATYPE_NULL`. -/
structure DcacheBlocks (ι : Type*) where
  blocks : List Block
  blockOffset : ℤ
  type : Option ι
  typeCount : ℤ
  pos : ℕ
  blockRemainingSize : ℕ

/-- The cache part of `glob_info`. -/
structure GlobInfo (ι : Type*) where
  dcacheBlocks : Fin 10 → DcacheBlocks ι
  dcacheLastEntry : Fin 10
  dcacheOriginLastEntry : Fin 10
  dcacheTargetLastEntry : Fin 10

/-- What `MPIT_Type_blockct` and `MPIT_Type_flatten` report for a type and a count. -/
abbrev Layout (ι : Type*) := ι → ℤ → List Block

/-- A datatype and a count. -/
abbrev Key (ι : Type*) := ι × ℤ

section Library
variable {ι : Type*}

/-- The length that the library stores for a run, an `int`. One that comes out negative is zero here:
nothing is moved for it. -/
def storedLength (n : ℕ) : ℕ := (Int.bmod n 4294967296).toNat

def stored (b : Block) : Block := ⟨b.displ, storedLength b.blocklen⟩

/-- The library reports the runs of the type maps. The types in `whole` have no member `MPI_2INT`, of
which it reports half of the bytes. -/
def Flattens (whole : ι → Prop) (typeMap layout : Layout ι) : Prop :=
  ∀ type n, whole type → layout type n = (typeMap type n).map stored

/-- What the library reports is the type map itself. -/
structure Reported (whole : ι → Prop) (typeMap : Layout ι) (key : Key ι) : Prop where
  whole : whole key.1
  short : ∀ b ∈ typeMap key.1 key.2, b.blocklen < 2147483648

theorem storedLength_eq {n : ℕ} (short : n < 2147483648) : storedLength n = n := by
  have exact : Int.bmod (n : ℤ) 4294967296 = n := by
    rw [Int.bmod_eq_of_le] <;> omega
  unfold storedLength
  rw [exact]
  exact Int.toNat_natCast n

theorem storedLength_lt (n : ℕ) : storedLength n < 2147483648 := by
  have := Int.bmod_lt (x := n) (m := 4294967296) (by decide)
  unfold storedLength
  omega

theorem Reported.layout {whole : ι → Prop} {typeMap layout : Layout ι} {key : Key ι}
    (reported : Reported whole typeMap key) (flattens : Flattens whole typeMap layout) :
    layout key.1 key.2 = typeMap key.1 key.2 := by
  rw [flattens _ _ reported.whole]
  refine (List.map_congr_left fun b hb => ?_).trans (List.map_id _)
  rw [stored, storedLength_eq (reported.short b hb)]
  rfl

end Library

variable {ι : Type*} [DecidableEq ι]

/-- `dcache_init`; the other fields are whatever the memory held. -/
def dcacheInit (memory : Fin 10 → DcacheBlocks ι) : GlobInfo ι :=
  ⟨fun i => { memory i with type := none }, 0, 0, 0⟩

/-- `dcache_init_blocks`; `block_offset` is left as it is. -/
def dcacheInitBlocks (layout : Layout ι) (key : Key ι) (e : DcacheBlocks ι) : DcacheBlocks ι :=
  { e with
    blocks := layout key.1 key.2
    type := some key.1
    typeCount := key.2
    pos := 0
    blockRemainingSize := 0 }

def DcacheBlocks.holds (e : DcacheBlocks ι) (key : Key ι) : Bool :=
  e.type = some key.1 ∧ e.typeCount = key.2

namespace GlobInfo

def set (c : GlobInfo ι) (i : Fin 10) (e : DcacheBlocks ι) : GlobInfo ι :=
  { c with dcacheBlocks := Function.update c.dcacheBlocks i e }

/-- The search loops: from the last hit once around, up to the first entry that matches. -/
def search (c : GlobInfo ι) (key : Key ι) (last : Fin 10) : Option (Fin 10) :=
  ((List.finRange 10).map (last + ·)).find? fun i => (c.dcacheBlocks i).holds key

/-- Search for the first datatype, or insert it at the FIFO position. -/
def originEntry (layout : Layout ι) (c : GlobInfo ι) (key : Key ι) : Fin 10 × GlobInfo ι :=
  match c.search key c.dcacheOriginLastEntry with
  | some i => (i, { c with dcacheOriginLastEntry := i })
  | none =>
    let i := c.dcacheLastEntry
    (i, { c.set i (dcacheInitBlocks layout key (c.dcacheBlocks i)) with dcacheLastEntry := i + 1 })

/-- Search for the second datatype, or insert it; the entry of the first one is skipped. -/
def targetEntry (layout : Layout ι) (c : GlobInfo ι) (origin : Fin 10) (key : Key ι) :
    Fin 10 × GlobInfo ι :=
  match c.search key c.dcacheTargetLastEntry with
  | some i => (i, { c with dcacheTargetLastEntry := i })
  | none =>
    let i := if origin = c.dcacheLastEntry then c.dcacheLastEntry + 1 else c.dcacheLastEntry
    (i, { c.set i (dcacheInitBlocks layout key (c.dcacheBlocks i)) with dcacheLastEntry := i + 1 })

end GlobInfo

/-- Begin a new block if the last one is used up; `none` is a read past the last block. -/
def DcacheBlocks.begin (e : DcacheBlocks ι) : Option (DcacheBlocks ι) :=
  if e.blockRemainingSize = 0 then
    e.blocks[e.pos]?.map fun b =>
      { e with pos := e.pos + 1, blockRemainingSize := b.blocklen, blockOffset := b.displ }
  else some e

/-- Account for `size` bytes of the current block. -/
def DcacheBlocks.consume (size : ℕ) (e : DcacheBlocks ι) : DcacheBlocks ι :=
  { e with
    blockRemainingSize := e.blockRemainingSize - size
    blockOffset := e.blockOffset + size }

/-- With both datatypes in one entry a block is used up as a whole. -/
def DcacheBlocks.finish (e : DcacheBlocks ι) : DcacheBlocks ι := { e with blockRemainingSize := 0 }

def DcacheBlocks.reset (e : DcacheBlocks ι) : DcacheBlocks ι :=
  { e with pos := 0, blockRemainingSize := 0 }

/-- All blocks of the entry have been begun. -/
def DcacheBlocks.exhausted (e : DcacheBlocks ι) : Bool := e.pos = e.blocks.length

namespace GlobInfo

/-- The iteration on the two entries found: the chunk, `last_block` and the cache after it. -/
def findNextBlock (c : GlobInfo ι) (origin target : Fin 10) : Option (Chunk × Bool × GlobInfo ι) := do
  let c ← (c.dcacheBlocks origin).begin.map (c.set origin)
  let c ← (c.dcacheBlocks target).begin.map (c.set target)
  let o := c.dcacheBlocks origin
  let t := c.dcacheBlocks target
  let size :=
    if o.blockRemainingSize < t.blockRemainingSize then o.blockRemainingSize else t.blockRemainingSize
  let c :=
    if origin ≠ target then (c.set origin (o.consume size)).set target (t.consume size)
    else c.set origin o.finish
  let chunk : Chunk := ⟨o.blockOffset, t.blockOffset, size⟩
  if (c.dcacheBlocks origin).exhausted ∧ (c.dcacheBlocks target).exhausted then
    let c := c.set origin (c.dcacheBlocks origin).reset
    return (chunk, true, c.set target (c.dcacheBlocks target).reset)
  else return (chunk, false, c)

/-- Both searches. -/
def lookup (layout : Layout ι) (c : GlobInfo ι) (origin target : Key ι) :
    Fin 10 × Fin 10 × GlobInfo ι :=
  let (o, c) := c.originEntry layout origin
  let (t, c) := c.targetEntry layout o target
  (o, t, c)

/-- `dcache_get_next_block`. -/
def getNextBlock (layout : Layout ι) (c : GlobInfo ι) (origin target : Key ι) :
    Option (Chunk × Bool × GlobInfo ι) :=
  let (o, t, c) := c.lookup layout origin target
  c.findNextBlock o t

/-- The loop of the communication routines: call `dcache_get_next_block` until `last_block`. -/
def transfer (layout : Layout ι) (origin target : Key ι) : ℕ → GlobInfo ι →
    Option (List Chunk × GlobInfo ι)
  | 0, _ => none
  | fuel + 1, c => do
    let (chunk, lastBlock, c) ← c.getNextBlock layout origin target
    if lastBlock then return ([chunk], c)
    let (rest, c) ← transfer layout origin target fuel c
    return (chunk :: rest, c)

/-- The cache part of `foMPI_Type_free`. -/
def typeFree (c : GlobInfo ι) (datatype : ι) : GlobInfo ι :=
  { c with dcacheBlocks := fun i =>
      let e := c.dcacheBlocks i
      if e.type = some datatype then { e with type := none } else e }

end GlobInfo

/-- The cache and the layouts of the datatypes that exist now. -/
structure State (ι : Type*) where
  cache : GlobInfo ι
  layout : Layout ι

inductive Call (ι : Type*)
  | transfer (origin target : Key ι)
  | typeFree (datatype : ι) (reused : ℤ → List Block)

/-- How often a transfer calls `dcache_get_next_block` at most. -/
def calls (layout : Layout ι) (origin target : Key ι) : ℕ :=
  (layout origin.1 origin.2).length + (layout target.1 target.2).length

/-- A transfer runs to its end; after a free the handle may stand for a new datatype. -/
def step (s : State ι) : Call ι → Option (State ι)
  | .transfer origin target =>
    (s.cache.transfer s.layout origin target (calls s.layout origin target)).map fun r =>
      { s with cache := r.2 }
  | .typeFree datatype reused =>
    some ⟨s.cache.typeFree datatype, Function.update s.layout datatype reused⟩

/-- Both layouts are non-empty lists of positive blocks of the same total length. -/
structure Fits (layout : Layout ι) (origin target : Key ι) : Prop where
  originPositive : Positive (layout origin.1 origin.2)
  targetPositive : Positive (layout target.1 target.2)
  originNonempty : layout origin.1 origin.2 ≠ []
  targetNonempty : layout target.1 target.2 ≠ []
  sameTotal : total (layout origin.1 origin.2) = total (layout target.1 target.2)

/-- Every transfer of a history is given datatypes that fit. -/
def Fitting (s : State ι) (call : Call ι) (_ : State ι) : Prop :=
  match call with
  | .transfer origin target => Fits s.layout origin target
  | .typeFree _ _ => True

end FoMPI.Dcache
